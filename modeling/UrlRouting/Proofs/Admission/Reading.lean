import UrlRouting.Admission
import UrlRouting.Proofs.Value.Entries

/-!
What the checks read. Each looks at a few options by their names, and one of them at the host; all
but the predicate have a verdict whatever these options are (`Check.passes_eq_holds`). Options that
agree by these names therefore admit the same requests (`Admission.rejection?_congr`).
-/

namespace UrlRouting

open Http

variable {m options : Mapping} {rule : Option Text} {request : Request} {name : Text}

namespace Check

/-- The names of the options that a check looks at. -/
def reads : Check → List Text
  | predicate => ["match"]
  | method => ["method"]
  | negotiation => ["ajax", "pjax", "json"]
  | ext => ["ext", "deny_ext"]
  | domain => ["domain"]
  | scheme => ["https"]
  | filter => ["filter"]

/-- No two checks look at the same option. -/
theorem eq_of_mem_reads {check other : Check} (h : name ∈ check.reads) (h' : name ∈ other.reads) :
    other = check := by
  have hapart : ∀ name ∈ check.reads, name ∈ other.reads → other = check := by
    cases check <;> cases other <;> decide
  exact hapart name h h'

theorem mem_all (check : Check) : check ∈ all := by cases check <;> decide

theorem passes_congr {check : Check} (h : ∀ name ∈ check.reads, m.named name = options.named name)
    (rule : Option Text) (request : Request) :
    check.passes m rule request = check.passes options rule request := by
  cases check with
  | predicate =>
    rw [passes, passes, passesPredicate, passesPredicate, h _ (by decide)]
  | method =>
    rw [passes, passes, passesMethod, passesMethod, h _ (by decide)]
  | negotiation =>
    rw [passes, passes, passesNegotiation, passesNegotiation, h _ (by decide), h _ (by decide),
      h _ (by decide)]
  | ext =>
    rw [passes, passes, passesExt, passesExt, h _ (by decide), h _ (by decide)]
  | domain =>
    rw [passes, passes, passesDomain, passesDomain, h _ (by decide)]
  | scheme =>
    rw [passes, passes, passesScheme, passesScheme, h _ (by decide)]
  | filter =>
    rw [passes, passes, passesFilter, passesFilter, h _ (by decide)]

/-- Setting an option and removing it make no difference to the checks that do not look at it. -/
theorem named_of_ne {check other : Check} (h : name ∈ check.reads) (hne : other ≠ check)
    (options : Mapping) (value : Value) : ∀ read ∈ other.reads,
      Mapping.named (Entries.set options (.str name) value) read =
        Mapping.named (Entries.erase options (.str name)) read := by
  intro read hread
  have hother : read ≠ name := fun he ↦ hne (eq_of_mem_reads h (he ▸ hread))
  rw [Mapping.named_set_of_ne hother, Mapping.named_erase_of_ne hother]

/-- The predicate and the check of the domain apart, no check looks at the host. -/
theorem passes_onHost {check : Check} (hpredicate : check ≠ predicate) (hdomain : check ≠ domain)
    (options : Mapping) (rule : Option Text) (request : Request) (host : Text)
    (rootDomain : Option Text) :
    check.passes options rule { request with host := host, rootDomain := rootDomain } =
      check.passes options rule request := by
  cases check with
  | predicate => exact absurd rfl hpredicate
  | domain => exact absurd rfl hdomain
  | _ => rfl

theorem passesPredicate_of_uncallable (h : (options.named "match").isCallable = false)
    (rule : Option Text) (request : Request) :
    passesPredicate options rule request = .ok true := by
  rw [passesPredicate]
  cases hmatch : options.named "match" with
  | guard g => rw [hmatch] at h; cases h
  | type name => rw [hmatch] at h; cases h
  | dispatch cls => rw [hmatch] at h; cases h
  | _ => rfl

/-- The verdict of a check that cannot fail. -/
def holds : Check → Mapping → Request → Bool
  | predicate, _, _ => true
  | method, options, request => passesMethod options request
  | negotiation, options, request => passesNegotiation options request
  | ext, options, request => passesExt options request
  | domain, options, request => passesDomain options request
  | scheme, options, request => passesScheme options request
  | filter, options, request => passesFilter options request

theorem passes_eq_holds {check : Check} (h : check ≠ predicate) (options : Mapping)
    (rule : Option Text) (request : Request) :
    check.passes options rule request = .ok (check.holds options request) := by
  cases check with
  | predicate => exact absurd rfl h
  | _ => rfl

theorem holds_congr {check : Check} (h : ∀ name ∈ check.reads, m.named name = options.named name)
    (request : Request) : check.holds m request = check.holds options request := by
  by_cases hpredicate : check = predicate
  · subst hpredicate
    rfl
  · have hpasses := passes_congr h none request
    rwa [passes_eq_holds hpredicate, passes_eq_holds hpredicate, Except.ok.injEq] at hpasses

end Check

namespace Admission

/-- Checks that all have the same verdict on two requests have the same first failure. -/
theorem firstFailure_congr {rule' : Option Text} {request' : Request} {checks : List Check}
    (h : ∀ check ∈ checks, check.passes m rule' request' = check.passes options rule request) :
    firstFailure m rule' request' checks = firstFailure options rule request checks := by
  induction checks with
  | nil => rfl
  | cons check rest ih =>
    rw [firstFailure, firstFailure, h check List.mem_cons_self,
      ih fun check hmem ↦ h check (List.mem_cons_of_mem _ hmem)]

theorem rejection?_congr {rule' : Option Text} {request' : Request}
    (h : ∀ check : Check, check.passes m rule' request' = check.passes options rule request) :
    rejection? m rule' request' = rejection? options rule request :=
  firstFailure_congr fun check _ ↦ h check

theorem firstFailure_eq_find? {checks : List Check} (h : .predicate ∉ checks) :
    firstFailure options rule request checks =
      .ok (checks.find? fun check ↦ !check.holds options request) := by
  induction checks with
  | nil => rfl
  | cons check rest ih =>
    obtain ⟨hne, hrest⟩ := not_or.mp (mt List.mem_cons.mpr h)
    rw [firstFailure, Check.passes_eq_holds (Ne.symm hne), ih hrest, List.find?_cons]
    cases check.holds options request <;> rfl

/-- Whether the options admit the request. -/
def admits (options : Mapping) (rule : Option Text) (request : Request) : Except Fault Bool :=
  (rejection? options rule request).map Option.isNone

/-- The predicate is asked first, and it alone may fail. -/
theorem admits_eq (options : Mapping) (rule : Option Text) (request : Request) :
    admits options rule request = (Check.passesPredicate options rule request).map fun passed ↦
      passed && Check.all.all fun check ↦ check.holds options request := by
  have hrest : Check.predicate ∉ Check.all.tail := by decide
  -- A predicate that fails or says no ends the run; behind it, no check can fail.
  change Except.map _ (Check.passesPredicate options rule request >>= _) = _
  rcases Check.passesPredicate options rule request with fault | _ | _
  · rfl
  · rfl
  · change Except.map _ (firstFailure options rule request Check.all.tail) =
      Except.ok (Check.all.tail.all fun check ↦ check.holds options request)
    rw [firstFailure_eq_find? hrest, Except.map, Except.ok.injEq, Bool.eq_iff_iff,
      Option.isNone_iff_eq_none, List.find?_eq_none, List.all_eq_true]
    simp only [Bool.not_eq_true', Bool.not_eq_false]

theorem admits_eq_error_iff {fault : Fault} : admits options rule request = .error fault ↔
    Check.passesPredicate options rule request = .error fault := by
  rw [admits_eq]
  cases Check.passesPredicate options rule request with
  | error fault' => exact Iff.rfl
  | ok passed => exact ⟨nofun, nofun⟩

/-- Where one check is narrowed by a verdict and the others read the same, so is the admission. -/
theorem admits_narrowed {check : Check} {verdict : Bool} (hcheck : check ≠ .predicate)
    (hothers : ∀ other ≠ check, ∀ name ∈ other.reads, m.named name = options.named name)
    (h : check.holds m request = (check.holds options request && verdict)) :
    admits m rule request = (admits options rule request).map (· && verdict) := by
  have hpredicate : Check.passesPredicate m rule request =
      Check.passesPredicate options rule request :=
    Check.passes_congr (hothers .predicate hcheck.symm) rule request
  have hholds : (Check.all.all fun check ↦ check.holds m request) =
      ((Check.all.all fun check ↦ check.holds options request) && verdict) := by
    rw [Bool.eq_iff_iff, Bool.and_eq_true, List.all_eq_true, List.all_eq_true]
    have hother : ∀ other ≠ check, other.holds m request = other.holds options request :=
      fun other hne ↦ Check.holds_congr (hothers other hne) request
    constructor
    · intro hall
      have hboth := hall check check.mem_all
      rw [h, Bool.and_eq_true] at hboth
      refine ⟨fun other hmem ↦ ?_, hboth.2⟩
      by_cases hne : other = check
      · exact hne ▸ hboth.1
      · exact (hother other hne).symm.trans (hall other hmem)
    · rintro ⟨hall, hverdict⟩ other hmem
      by_cases hne : other = check
      · rw [hne, h, hall check check.mem_all, hverdict, Bool.and_self]
      · exact (hother other hne).trans (hall other hmem)
  rw [admits_eq, admits_eq, hpredicate, hholds]
  rcases Check.passesPredicate options rule request with fault | passed
  · rfl
  · exact congrArg Except.ok (Bool.and_assoc _ _ _).symm

end Admission

end UrlRouting

import UrlRouting.Proofs.Admission.Reading
import UrlRouting.Proofs.Table.Reachable

/-!
Options whose values have not the form that their checks call for: `Admission.admits_of_misshapen`.
The predicate, the method and the filter are disregarded then. The extensions are read off the plain
text of the value nevertheless, and a domain that is no text is not the domain of any request.
-/

namespace UrlRouting

open Http

variable {options : Mapping} {rule : Option Text} {request : Request} {name : Text} {value : Value}

/-- The value has not the form that the check of an option calls for. -/
inductive Options.Misshapen : Text → Value → Prop where
  | uncallable {value : Value} (h : value.isCallable = false) : Misshapen "match" value
  | textless {name : Text} {value : Value}
      (hname : name ∈ (["method", "ext", "deny_ext", "domain"] : List Text))
      (h : value.text? = none) : Misshapen name value
  | unmapped {value : Value} (h : ∀ m, value ≠ .map m) : Misshapen "filter" value

namespace Check

theorem passesMethod_of_textless (h : (options.named "method").text? = none) (request : Request) :
    passesMethod options request = true := by
  rw [passesMethod]
  cases hmethod : options.named "method" with
  | str listed => rw [hmethod] at h; cases h
  | _ => rfl

theorem passesDomain_of_textless (h : (options.named "domain").text? = none) (request : Request) :
    passesDomain options request = (options.named "domain").isNull := by
  have hsame (t : Text) : (options.named "domain").same (.str t) = false := by
    rw [Bool.eq_false_iff]
    intro hsame
    rw [Value.same_str_iff.mp hsame] at h
    cases h
  rw [passesDomain, hsame, hsame, Bool.or_false, Bool.or_false]

theorem passesFilter_of_unmapped (h : ∀ m, options.named "filter" ≠ .map m) (request : Request) :
    passesFilter options request = true := by
  rw [passesFilter]
  cases hfilter : options.named "filter" with
  | map expected => exact absurd hfilter (h expected)
  | _ => rfl

end Check

namespace Admission

/-- An option that its check disregards might as well be removed. -/
theorem rejection?_of_disregarded (check : Check) (hname : name ∈ check.reads)
    (h : check.passes (Entries.set options (.str name) value) rule request =
      check.passes (Entries.erase options (.str name)) rule request) :
    rejection? (Entries.set options (.str name) value) rule request =
      rejection? (Entries.erase options (.str name)) rule request := by
  refine rejection?_congr fun other ↦ ?_
  by_cases hne : other = check
  · exact hne ▸ h
  · exact Check.passes_congr (Check.named_of_ne hname hne options value) rule request

theorem rejection?_of_misshapen (h : Options.Misshapen name value)
    (hname : name ∉ (["ext", "deny_ext", "domain"] : List Text)) (options : Mapping)
    (rule : Option Text) (request : Request) :
    rejection? (Entries.set options (.str name) value) rule request =
      rejection? (Entries.erase options (.str name)) rule request := by
  cases h with
  | uncallable h =>
    refine rejection?_of_disregarded .predicate (by decide) ?_
    rw [Check.passes, Check.passes, Check.passesPredicate_of_uncallable,
      Check.passesPredicate_of_uncallable]
    · rw [Mapping.named_erase_self]
      rfl
    · rwa [Mapping.named_set_self]
  | textless hlisted h =>
    obtain rfl := (List.mem_cons.mp hlisted).resolve_right hname
    refine rejection?_of_disregarded .method (by decide) ?_
    rw [Check.passes, Check.passes, Check.passesMethod_of_textless, Check.passesMethod_of_textless]
    · rw [Mapping.named_erase_self]
      rfl
    · rwa [Mapping.named_set_self]
  | unmapped h =>
    refine rejection?_of_disregarded .filter (by decide) ?_
    rw [Check.passes, Check.passes, Check.passesFilter_of_unmapped, Check.passesFilter_of_unmapped]
    · rw [Mapping.named_erase_self]
      intro m he
      cases he
    · rwa [Mapping.named_set_self]

variable (options rule request value)

theorem admits_set_ext : admits (Entries.set options (.str "ext") value) rule request =
    (admits (Entries.erase options (.str "ext")) rule request).map
      (· && (value.isNull || request.path == ['/'] || Check.inList request.ext value.plain)) := by
  have hname : "ext".toList ∈ Check.ext.reads := by decide
  refine admits_narrowed (by decide) (fun _ hne ↦ Check.named_of_ne hname hne options value) ?_
  have hother : "deny_ext".toList ≠ "ext" := by decide
  have hnull : Value.null.isNull = true := rfl
  simp only [Check.holds, Check.passesExt, Check.inOption, Mapping.named_set_self,
    Mapping.named_erase_self, Mapping.named_set_of_ne hother, Mapping.named_erase_of_ne hother,
    hnull]
  cases request.path == ['/'] <;> cases value.isNull <;> simp [Bool.and_comm]

theorem admits_set_deny_ext : admits (Entries.set options (.str "deny_ext") value) rule request =
    (admits (Entries.erase options (.str "deny_ext")) rule request).map
      (· && (value.isNull || request.path == ['/'] ||
        !Check.inList request.ext value.plain)) := by
  have hname : "deny_ext".toList ∈ Check.ext.reads := by decide
  refine admits_narrowed (by decide) (fun _ hne ↦ Check.named_of_ne hname hne options value) ?_
  have hother : "ext".toList ≠ "deny_ext" := by decide
  have hnull : Value.null.isNull = true := rfl
  simp only [Check.holds, Check.passesExt, Check.inOption, Mapping.named_set_self,
    Mapping.named_erase_self, Mapping.named_set_of_ne hother, Mapping.named_erase_of_ne hother,
    hnull]
  cases request.path == ['/'] <;> cases value.isNull <;> simp

variable {value}

theorem admits_set_domain_of_textless (h : value.text? = none) :
    admits (Entries.set options (.str "domain") value) rule request =
      (admits (Entries.erase options (.str "domain")) rule request).map (· && value.isNull) := by
  have hname : "domain".toList ∈ Check.domain.reads := by decide
  refine admits_narrowed (by decide) (fun _ hne ↦ Check.named_of_ne hname hne options value) ?_
  rw [Check.holds, Check.holds, Check.passesDomain_of_textless, Check.passesDomain_of_textless,
    Mapping.named_set_self, Mapping.named_erase_self]
  · rfl
  · rw [Mapping.named_erase_self]
    rfl
  · rwa [Mapping.named_set_self]

end Admission

/-- A value that has not the form its check calls for is as good as none, but for the extensions,
which are read off its plain text, and for the domain. Nothing but a predicate ever fails. -/
theorem admits_of_misshapen (h : Options.Misshapen name value) (options : Mapping)
    (rule : Option Text) (request : Request) :
    (name ∉ (["ext", "deny_ext", "domain"] : List Text) →
      Admission.rejection? (Entries.set options (.str name) value) rule request =
        Admission.rejection? (Entries.erase options (.str name)) rule request) ∧
    (name = "ext" →
      Admission.admits (Entries.set options (.str name) value) rule request =
        (Admission.admits (Entries.erase options (.str name)) rule request).map
          (· && (value.isNull || request.path == ['/'] ||
            Check.inList request.ext value.plain))) ∧
    (name = "deny_ext" →
      Admission.admits (Entries.set options (.str name) value) rule request =
        (Admission.admits (Entries.erase options (.str name)) rule request).map
          (· && (value.isNull || request.path == ['/'] ||
            !Check.inList request.ext value.plain))) ∧
    (name = "domain" →
      Admission.admits (Entries.set options (.str name) value) rule request =
        (Admission.admits (Entries.erase options (.str name)) rule request).map
          (· && value.isNull)) ∧
    ∀ fault, Admission.admits options rule request = .error fault ↔
      (options.named "match").isCallable = true ∧
        Check.passesPredicate options rule request = .error fault := by
  refine ⟨fun hname ↦ Admission.rejection?_of_misshapen h hname options rule request, ?_, ?_, ?_,
    fun fault ↦ ?_⟩
  · rintro rfl
    exact Admission.admits_set_ext options rule request value
  · rintro rfl
    exact Admission.admits_set_deny_ext options rule request value
  · rintro rfl
    cases h with
    | textless _ h => exact Admission.admits_set_domain_of_textless options rule request h
  · rw [Admission.admits_eq_error_iff]
    refine ⟨fun hfault ↦ ⟨?_, hfault⟩, And.right⟩
    by_contra huncallable
    rw [Check.passesPredicate_of_uncallable (Bool.eq_false_iff.mpr huncallable)] at hfault
    cases hfault

theorem misshapen_numericExt : Options.Misshapen "ext" (.int 5) := .textless (by decide) rfl

/-- A number in place of the extensions admits the requests that have it for an extension, and no
others. -/
theorem admits_of_misshapen_numericExt : Options.Misshapen "ext" (.int 5) ∧
    Admission.admits [(.str "ext", .int 5)] none (.bare "GET" "/page.5") = .ok true ∧
    Admission.admits [(.str "ext", .int 5)] none (.bare "GET" "/page") = .ok false := by
  refine ⟨misshapen_numericExt, ?_, ?_⟩
  · have hadmits := (admits_of_misshapen misshapen_numericExt [] none (.bare "GET" "/page.5")).2.1
    exact (hadmits rfl).trans rfl
  · have hadmits := (admits_of_misshapen misshapen_numericExt [] none (.bare "GET" "/page")).2.1
    exact (hadmits rfl).trans rfl

/-- Not every value that has not the form its check calls for is as good as none: a number in place
of the extensions rejects a path without extension. -/
theorem not_forall_disengaged : ¬∀ (options : Mapping) (rule : Option Text) (request : Request),
    (∀ name value, Options.Misshapen name value →
      Admission.admits (Entries.set options (.str name) value) rule request =
        Admission.admits (Entries.erase options (.str name)) rule request) ∧
    ∀ fault, Admission.admits options rule request = .error fault →
      Check.passesPredicate options rule request = .error fault := by
  intro h
  have hsame := (h [] none (.bare "GET" "/page")).1 "ext" (.int 5) misshapen_numericExt
  have hset : Admission.admits (Entries.set [] (.str "ext") (.int 5)) none (.bare "GET" "/page") =
      .ok false := rfl
  have herase : Admission.admits (Entries.erase [] (.str "ext")) none (.bare "GET" "/page") =
      .ok true := rfl
  rw [hset, herase] at hsame
  cases hsame

end UrlRouting

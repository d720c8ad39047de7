import UrlRouting.Proofs.Table.Routing

/-!
Refusals come from routers alone: compiling and asking a rule may fail, but not by refusing the
request (`Unrefusing`). A router that refuses a request has therefore asked all of its rules, and
has had no decision from any of them (`Table.routing_eq_http`).
-/

namespace UrlRouting

open Http

variable {α β : Type}

/-- The refusal of a request that a fault is, if it is one. -/
def Fault.refused? : Fault → Option (HttpKind × HttpError)
  | .http kind e => some (kind, e)
  | _ => none

theorem Fault.eq_http_of_refused? {fault : Fault} {kind : HttpKind} {e : HttpError}
    (h : fault.refused? = some (kind, e)) : fault = .http kind e := by
  cases fault with
  | http kind' e' =>
    cases h
    rfl
  | _ => cases h

/-- The rule whose expression is malformed, if a fault says so. -/
def Fault.malformed? : Fault → Option Text
  | .badPattern rule => some rule
  | _ => none

theorem Fault.eq_badPattern_of_malformed? {fault : Fault} {text : Text}
    (h : fault.malformed? = some text) : fault = .badPattern text := by
  cases fault with
  | badPattern rule =>
    cases h
    rfl
  | _ => cases h

/-- If there is a fault, it is one of some. -/
def Confined (P : Fault → Prop) (x : Except Fault α) : Prop := ∀ fault, x = .error fault → P fault

/-- Faults that do not come from the expression of a rule, and refuse nothing. -/
def Fault.IsPlain (fault : Fault) : Prop := fault.refused? = none ∧ fault.malformed? = none

/-- If there is a fault, it is not the refusal of a request. -/
def Unrefusing (x : Except Fault α) : Prop := Confined (fun fault ↦ fault.refused? = none) x

namespace Confined

variable {P Q : Fault → Prop} {x : Except Fault α}

theorem ok (a : α) : Confined P (.ok a : Except Fault α) := nofun

theorem error {fault : Fault} (h : P fault) : Confined P (.error fault : Except Fault α) := by
  intro fault' he
  cases he
  exact h

theorem bind {f : α → Except Fault β} (hx : Confined P x) (hf : ∀ a, Confined P (f a)) :
    Confined P (x >>= f) := by
  intro fault h
  rcases bind_eq_error_iff.mp h with h | ⟨a, -, h⟩
  · exact hx fault h
  · exact hf a fault h

theorem map {f : α → β} (hx : Confined P x) : Confined P (x.map f) := by
  intro fault h
  cases x with
  | error fault' => exact hx fault (congrArg Except.error (Except.error.inj h))
  | ok a => cases h

theorem mono (hx : Confined P x) (h : ∀ fault, P fault → Q fault) : Confined Q x :=
  fun fault he ↦ h fault (hx fault he)

theorem unrefusing (hx : Confined Fault.IsPlain x) : Unrefusing x := hx.mono fun _ h ↦ h.1

end Confined

/-! ### Rules -/

namespace CompiledRule

variable {c : CompiledRule}

theorem unrefusing_regex (complete : Bool) : Unrefusing (c.regex complete) := by
  refine .bind (.map ?_) fun text ↦ ?_
  · rw [Template.Setting.withMaps]
    split
    · exact .ok _
    · exact .error rfl
  · rw [read]
    split
    · exact .ok _
    · exact .error rfl
    · exact .error rfl

theorem unrefusing_capture (url : Text) (complete : Bool) :
    Unrefusing (c.capture url complete) := by
  rw [capture]
  split
  · exact .ok _
  · exact .map (unrefusing_regex complete)

end CompiledRule

namespace Variables

variable {groups patterns options : Mapping} {rule url : Text} {delimiter : Value}

theorem plain_holdsDelimiter (delimiter v : Value) :
    Confined Fault.IsPlain (holdsDelimiter delimiter v) := by
  rw [holdsDelimiter.eq_def]
  repeat' split
  all_goals first | exact .ok _ | exact .error ⟨rfl, rfl⟩

theorem plain_anyHoldsDelimiter (delimiter : Value) (vs : List Value) :
    Confined Fault.IsPlain (anyHoldsDelimiter delimiter vs) := by
  induction vs with
  | nil => exact .ok _
  | cons v rest ih =>
    refine .bind (plain_holdsDelimiter delimiter v) fun holds ↦ ?_
    cases holds with
    | true => exact .ok _
    | false => exact ih

theorem plain_extra : Confined Fault.IsPlain (extra rule url delimiter) := by
  rw [extra.eq_def]
  split
  · exact .error ⟨rfl, rfl⟩
  · exact .ok _
  · exact .error ⟨rfl, rfl⟩

theorem plain_extract :
    Confined Fault.IsPlain (extract groups rule url patterns options delimiter) := by
  refine .bind (plain_anyHoldsDelimiter _ _) fun holds ↦ ?_
  cases holds with
  | true => exact .ok _
  | false => exact .bind plain_extra fun _ ↦ .ok _

end Variables

theorem Target.plain_handler (target : Value) (options : Mapping) (mark : Text)
    (declared : Value) : Confined Fault.IsPlain (handler target options mark declared) := by
  have hclass : ∀ cls, Confined Fault.IsPlain (ofClass cls) := by
    intro cls
    cases cls <;> first | exact .ok _ | exact .error ⟨rfl, rfl⟩
  rw [handler.eq_def]
  repeat' split
  all_goals first | exact hclass _ | exact .ok _

namespace Check

theorem plain_answer (rule : Option Text) (request : Request) (g : Guard Value) :
    Confined Fault.IsPlain (answer rule request g) := by
  cases g <;> first | exact .ok _ | exact .error ⟨rfl, rfl⟩

theorem plain_passes (check : Check) (options : Mapping) (rule : Option Text)
    (request : Request) : Confined Fault.IsPlain (check.passes options rule request) := by
  cases check with
  | predicate =>
    rw [passes, passesPredicate]
    split
    next g _ =>
      refine .bind (plain_answer rule request g) fun answer ↦ ?_
      split <;> exact .ok _
    next => exact .error ⟨rfl, rfl⟩
    next => exact .error ⟨rfl, rfl⟩
    next => exact .ok _
  | _ => exact .ok _

theorem plain_firstFailure (options : Mapping) (rule : Option Text) (request : Request)
    (checks : List Check) :
    Confined Fault.IsPlain (Admission.firstFailure options rule request checks) := by
  induction checks with
  | nil => exact .ok _
  | cons check rest ih =>
    refine .bind (plain_passes check options rule request) fun passes ↦ ?_
    cases passes with
    | true => exact ih
    | false => exact .ok _

end Check

theorem CompiledRule.plain_decision (c : CompiledRule) (request : Request) (url : Text)
    (groups options : Mapping) : Confined Fault.IsPlain (c.decision request url groups options) :=
  .bind Variables.plain_extract fun _ ↦ .map (Target.plain_handler _ _ _ _)

theorem CompiledRule.unrefusing_decide (c : CompiledRule) (request : Request) (url : Text)
    (asked : Bool) : Unrefusing (c.decide request url asked) := by
  refine .bind (Check.plain_firstFailure _ _ _ _).unrefusing fun rejection ↦ ?_
  cases rejection with
  | some check => exact .ok _
  | none =>
    refine .bind (unrefusing_capture _ _) fun captures ↦ ?_
    cases captures with
    | none => exact .ok _
    | some captures =>
      exact .bind (c.plain_decision request _ _ _).unrefusing fun d ↦ .ok _

namespace Table

variable {t : Table} {id : NodeId} {request : Request} {url : Text} {asked anyDomain : Bool}

theorem unrefusing_ruleAt (t : Table) (id : NodeId) : Unrefusing (t.ruleAt id) := by
  rw [ruleAt]
  split
  next => exact .error rfl
  next =>
    split
    next => exact .ok _
    next =>
      split
      next => exact .map (CompiledRule.unrefusing_regex _)
      next => exact .error rfl

theorem unrefusing_decisionAt : Unrefusing (t.decisionAt id request url asked anyDomain) :=
  .bind (t.unrefusing_ruleAt id) fun _ ↦ CompiledRule.unrefusing_decide _ _ _ _

theorem unrefusing_capturesAt : Unrefusing (t.capturesAt id url asked) :=
  .bind (t.unrefusing_ruleAt id) fun _ ↦ CompiledRule.unrefusing_capture _ _

theorem unrefusing_compilingAll (t : Table) (ids : List NodeId) :
    Unrefusing (t.compilingAll ids) := by
  induction ids with
  | nil => exact .ok _
  | cons id rest ih =>
    refine .bind ?_ fun _ ↦ ih
    rw [compiling]
    split
    · exact .map (t.unrefusing_ruleAt id)
    · split
      · exact .ok _
      · exact .error rfl

theorem unrefusing_readying (t : Table) (rid : RouterId) : Unrefusing (t.readying rid) := by
  rw [readying]
  split
  · exact .ok _
  · exact t.unrefusing_compilingAll _

/-! ### Routers -/

variable {ids : List NodeId} {fault : Fault} {kind : HttpKind} {e : HttpError} {d : Dispatch}
  {rid : RouterId} {methods : List Text}

section First

variable {decide : NodeId → Except Fault (Option Dispatch)}

theorem firstOf_eq_some (h : firstOf decide ids = .ok (some d)) :
    ∃ id ∈ ids, decide id = .ok (some d) := by
  induction ids with
  | nil => cases h
  | cons id rest ih =>
    obtain ⟨found, hfound, h⟩ := bind_eq_ok_iff.mp h
    cases found with
    | some found =>
      cases h
      exact ⟨id, List.mem_cons_self, hfound⟩
    | none =>
      obtain ⟨other, hmem, hother⟩ := ih h
      exact ⟨other, List.mem_cons_of_mem _ hmem, hother⟩

theorem firstOf_eq_error (h : firstOf decide ids = .error fault) :
    ∃ id ∈ ids, decide id = .error fault := by
  induction ids with
  | nil => cases h
  | cons id rest ih =>
    rcases bind_eq_error_iff.mp h with h | ⟨found, -, h⟩
    · exact ⟨id, List.mem_cons_self, h⟩
    · cases found with
      | some found => cases h
      | none =>
        obtain ⟨other, hmem, hother⟩ := ih h
        exact ⟨other, List.mem_cons_of_mem _ hmem, hother⟩

end First

theorem isRule_of_decisionAt {d : Option Dispatch}
    (h : t.decisionAt id request url asked anyDomain = .ok d) : t.isRule id = true := by
  obtain ⟨c, hc, -⟩ := bind_eq_ok_iff.mp h
  obtain ⟨r, hr, -⟩ := Option.map_eq_some_iff.mp (inEffect?_of_ruleAt hc)
  rw [isRule, hr, Option.isSome_some]

theorem decisionAt_of_anywhereAt (h : t.anywhereAt id request url = .ok (some d)) :
    t.decisionAt id request url false true = .ok (some d) := by
  rw [anywhereAt] at h
  split at h
  · exact h
  · cases h

theorem unrefusing_anywhereAt : Unrefusing (t.anywhereAt id request url) := by
  rw [anywhereAt]
  split
  · exact unrefusing_decisionAt
  · exact .error rfl

def PathMatches (t : Table) (id : NodeId) (url : Text) : Prop :=
  ∃ captures, t.capturesAt id url false = .ok (some captures)

/-- The methods that a rule lists, `none` if it allows all. -/
def listedAt (t : Table) (id : NodeId) : Option (List Text) :=
  Check.listedMethods? (Mapping.named (t.effectiveOptions id) "method")

theorem allowedOf_cons_of_none {rest : List NodeId} (h : t.capturesAt id url false = .ok none) :
    t.allowedOf url (id :: rest) = t.allowedOf url rest := by
  rw [allowedOf, h]
  rfl

theorem allowedOf_cons_of_pathMatches {rest : List NodeId} (h : t.PathMatches id url) :
    t.allowedOf url (id :: rest) = match t.listedAt id with
      | none => .ok none
      | some listed => t.allowedOf url rest >>= fun more ↦ .ok (more.map (listed ++ ·)) := by
  obtain ⟨captures, h⟩ := h
  rw [allowedOf, h]
  rfl

theorem allowedOf_eq_error (h : t.allowedOf url ids = .error fault) :
    ∃ id ∈ ids, t.capturesAt id url false = .error fault := by
  induction ids with
  | nil => cases h
  | cons id rest ih =>
    have hlater (h : t.allowedOf url rest = .error fault) :
        ∃ id' ∈ id :: rest, t.capturesAt id' url false = .error fault := by
      obtain ⟨other, hmem, hother⟩ := ih h
      exact ⟨other, List.mem_cons_of_mem _ hmem, hother⟩
    rcases hc : t.capturesAt id url false with fault' | _ | captures
    · rw [allowedOf, hc] at h
      cases h
      exact ⟨id, List.mem_cons_self, hc⟩
    · rw [allowedOf_cons_of_none hc] at h
      exact hlater h
    · rw [allowedOf_cons_of_pathMatches ⟨captures, hc⟩] at h
      split at h
      next => cases h
      next =>
        rcases bind_eq_error_iff.mp h with h | ⟨more, -, h⟩
        · exact hlater h
        · cases h

/-- Some rule whose path matches allows all methods. -/
theorem allowedOf_eq_none (h : t.allowedOf url ids = .ok none) :
    ∃ id ∈ ids, t.PathMatches id url ∧ t.listedAt id = none := by
  induction ids with
  | nil => cases h
  | cons id rest ih =>
    have hlater (h : t.allowedOf url rest = .ok none) :
        ∃ id' ∈ id :: rest, t.PathMatches id' url ∧ t.listedAt id' = none := by
      obtain ⟨other, hmem, hother⟩ := ih h
      exact ⟨other, List.mem_cons_of_mem _ hmem, hother⟩
    rcases hc : t.capturesAt id url false with fault' | _ | captures
    · rw [allowedOf, hc] at h
      cases h
    · rw [allowedOf_cons_of_none hc] at h
      exact hlater h
    · have hmatches : t.PathMatches id url := ⟨captures, hc⟩
      rw [allowedOf_cons_of_pathMatches hmatches] at h
      split at h
      next hlisted => exact ⟨id, List.mem_cons_self, hmatches, hlisted⟩
      next =>
        obtain ⟨more, hmore, h⟩ := bind_eq_ok_iff.mp h
        cases more with
        | none => exact hlater hmore
        | some more => cases h

/-- Every rule whose path matches lists methods, and the methods are those that these rules list. -/
theorem allowedOf_eq_some (h : t.allowedOf url ids = .ok (some methods)) :
    (∀ id ∈ ids, t.PathMatches id url → ∃ listed, t.listedAt id = some listed) ∧
    ∀ m, m ∈ methods ↔ ∃ id ∈ ids, t.PathMatches id url ∧ ∃ listed ∈ t.listedAt id, m ∈ listed := by
  induction ids generalizing methods with
  | nil =>
    cases h
    simp
  | cons id rest ih =>
    simp only [List.mem_cons, forall_eq_or_imp, exists_eq_or_imp]
    rcases hc : t.capturesAt id url false with fault' | _ | captures
    · rw [allowedOf, hc] at h
      cases h
    · have hmiss : ¬t.PathMatches id url := by
        rintro ⟨captures, hcaptures⟩
        cases hc.symm.trans hcaptures
      rw [allowedOf_cons_of_none hc] at h
      simpa only [hmiss, false_implies, false_and, true_and, false_or] using ih h
    · have hmatches : t.PathMatches id url := ⟨captures, hc⟩
      rw [allowedOf_cons_of_pathMatches hmatches] at h
      split at h
      next => cases h
      next listed hlisted =>
        obtain ⟨more, hmore, h⟩ := bind_eq_ok_iff.mp h
        cases more with
        | none => cases h
        | some more =>
          cases h
          obtain ⟨hlists, hmethods⟩ := ih hmore
          refine ⟨⟨fun _ ↦ ⟨listed, hlisted⟩, hlists⟩, fun m ↦ ?_⟩
          rw [List.mem_append, hmethods]
          refine or_congr ⟨fun hm ↦ ⟨hmatches, listed, hlisted, hm⟩, ?_⟩ Iff.rfl
          rintro ⟨-, listed', hlisted', hm⟩
          cases hlisted.symm.trans hlisted'
          exact hm

/-- How a fault breaks routing off: something cannot be compiled, or a rule fails when it is asked
for a decision or for its path. -/
inductive Breaks (t : Table) (rid : RouterId) (request : Request) : Fault → Prop where
  | compiling {fault : Fault} (h : t.readying rid = .error fault) : t.Breaks rid request fault
  | deciding {fault : Fault} {id : NodeId} (hid : id ∈ t.routes rid)
      (h : t.decisionAt id (t.completed rid request) (t.urlOf rid request) false false =
        .error fault) : t.Breaks rid request fault
  | anywhere {fault : Fault} {id : NodeId} (hid : id ∈ (t.router rid).everywhere)
      (h : t.anywhereAt id (t.completed rid request) (t.urlOf rid request) = .error fault) :
      t.Breaks rid request fault
  | matching {fault : Fault} {id : NodeId} (hid : id ∈ t.routes rid)
      (h : t.capturesAt id (t.urlOf rid request) false = .error fault) : t.Breaks rid request fault

theorem Breaks.ne_http (h : t.Breaks rid request fault) (kind : HttpKind) (e : HttpError) :
    fault ≠ .http kind e := by
  have hunrefused : fault.refused? = none := by
    cases h with
    | compiling h => exact t.unrefusing_readying rid fault h
    | deciding _ h => exact unrefusing_decisionAt fault h
    | anywhere _ h => exact unrefusing_anywhereAt fault h
    | matching _ h => exact unrefusing_capturesAt fault h
  rintro rfl
  cases hunrefused

/-- A router answers with the decision of a rule, is broken off, or refuses the request since none
of its rules decides on it. -/
theorem routing_cases (t : Table) (rid : RouterId) (request : Request) :
    (∃ d id anyDomain, t.routing rid request = .ok d ∧
      id ∈ t.routes rid ++ (t.router rid).everywhere ∧
      t.decisionAt id (t.completed rid request) (t.urlOf rid request) false anyDomain =
        .ok (some d)) ∨
    (∃ fault, t.routing rid request = .error fault ∧ t.Breaks rid request fault) ∨
    ∃ allowed, t.allowedOf (t.urlOf rid request) (t.routes rid) = .ok allowed ∧
      t.routing rid request = .error (.refusal (t.completed rid request) (allowed.getD [])) := by
  rw [routing, routed, answering]
  rcases hready : t.readying rid with fault | _
  · exact .inr (.inl ⟨fault, rfl, .compiling hready⟩)
  rcases hdecided : t.firstDecisionOf (t.completed rid request) (t.urlOf rid request) false
    (t.routes rid) with fault | _ | d
  · obtain ⟨id, hid, h⟩ := firstOf_eq_error hdecided
    exact .inr (.inl ⟨fault, rfl, .deciding hid h⟩)
  · rcases hanywhere : t.firstAnywhereOf (t.completed rid request) (t.urlOf rid request)
      (t.router rid).everywhere with fault | _ | d
    · obtain ⟨id, hid, h⟩ := firstOf_eq_error hanywhere
      exact .inr (.inl ⟨fault, rfl, .anywhere hid h⟩)
    · rcases hallowed : t.allowedOf (t.urlOf rid request) (t.routes rid) with fault | allowed
      · obtain ⟨id, hid, h⟩ := allowedOf_eq_error hallowed
        exact .inr (.inl ⟨fault, rfl, .matching hid h⟩)
      · exact .inr (.inr ⟨allowed, rfl, rfl⟩)
    · obtain ⟨id, hid, h⟩ := firstOf_eq_some hanywhere
      exact .inl ⟨d, id, true, rfl, List.mem_append_right _ hid, decisionAt_of_anywhereAt h⟩
  · obtain ⟨id, hid, h⟩ := firstOf_eq_some hdecided
    exact .inl ⟨d, id, false, rfl, List.mem_append_left _ hid, h⟩

/-- A router that refuses a request has asked its rules which methods they list. -/
theorem routing_eq_http (h : t.routing rid request = .error (.http kind e)) :
    ∃ allowed, t.allowedOf (t.urlOf rid request) (t.routes rid) = .ok allowed ∧
      Fault.http kind e = .refusal (t.completed rid request) (allowed.getD []) := by
  rcases t.routing_cases rid request with
    ⟨d, -, -, hd, -⟩ | ⟨fault, hf, hbreaks⟩ | ⟨allowed, ha, hr⟩
  · cases h.symm.trans hd
  · cases h.symm.trans hf
    exact absurd rfl (hbreaks.ne_http kind e)
  · exact ⟨allowed, ha, Except.error.inj (h.symm.trans hr)⟩

end Table

/-! ### Kinds of refusals -/

theorem Fault.refusal_eq_methodNotAllowed {request : Request} {allowed : List Text}
    {e : HttpError} : Fault.refusal request allowed = .http .methodNotAllowed e ↔
      allowed ≠ [] ∧ Text.lower request.method ∉ allowed ∧ e = .methodNotAllowed allowed [] := by
  have hlisted : (allowed.isEmpty || allowed.contains (Text.lower request.method)) = true ↔
      allowed = [] ∨ Text.lower request.method ∈ allowed := by
    rw [Bool.or_eq_true, List.isEmpty_iff, List.contains_iff_mem]
  rw [refusal]
  split
  next h =>
    rw [hlisted] at h
    refine ⟨fun he ↦ ?_, fun he ↦ absurd h (not_or.mpr ⟨he.1, he.2.1⟩)⟩
    cases he
  next h =>
    rw [hlisted, not_or] at h
    rw [Fault.http.injEq, eq_comm (b := e), eq_self_iff_true, true_and]
    exact ⟨fun he ↦ ⟨h.1, h.2, he⟩, fun he ↦ he.2.2⟩

end UrlRouting

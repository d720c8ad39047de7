import UrlRouting.Proofs.Admission.Reading
import UrlRouting.Proofs.Dispatch.Classes
import UrlRouting.Proofs.Table.Deciding
import UrlRouting.Proofs.Table.Refusal
import UrlRouting.Proofs.Variables.Unconsumed

/-!
Rules that cannot fail. Where a rule delimits parameters by a text and names no class whose
decisions have fields of their own, whatever it captures makes a decision
(`CanDecide.exists_decision`). Where moreover its expression can be made and its predicate does not
fail, it decides on the request, or leaves it to others (`Fits.exists_decide`). A router whose rules
all are of this kind answers with a decision or refuses the request (`Serves.routing_cases`).
-/

namespace UrlRouting

open Http

section Decidable

variable {α : Type} (x : Except Fault α)

/-- Whether there is a result is seen by looking at it. -/
instance decidableExistsOk : Decidable (∃ a, x = .ok a) :=
  match x with
  | .ok a => isTrue ⟨a, rfl⟩
  | .error _ => isFalse nofun

instance decidableExistsOkAnd (p : α → Prop) [DecidablePred p] : Decidable (∃ a, x = .ok a ∧ p a) :=
  match x with
  | .ok a => decidable_of_iff (p a) ⟨fun h ↦ ⟨a, rfl, h⟩, fun ⟨_, he, h⟩ ↦ Except.ok.inj he ▸ h⟩
  | .error _ => isFalse nofun

end Decidable

namespace Target

variable {target : Value} {options : Mapping}

/-- Placeholders are filled in texts, and a text is no class. -/
theorem class?_substitute (groups options : Mapping) (target : Value) :
    class? (substitute groups options target) = class? target := by
  cases target <;> rfl

theorem namedClasses_substitute (groups options : Mapping) (target : Value) :
    namedClasses (substitute groups options target) options = namedClasses target options := by
  rw [namedClasses, namedClasses, List.filterMap_cons, List.filterMap_cons, List.filterMap_cons,
    List.filterMap_cons, class?_substitute]

theorem exists_handler
    (h : (namedClasses target options).head?.any DispatchClass.hasFields = false) (mark : Text)
    (declared : Value) : ∃ found, handler target options mark declared = .ok found := by
  cases hnamed : (namedClasses target options).head? with
  | some cls =>
    rw [hnamed, Option.any_some] at h
    obtain ⟨found, hfound, -⟩ := exists_ofClass h
    exact ⟨found, (handler_of_named hnamed mark declared).trans hfound⟩
  | none =>
    obtain ⟨hoption, htarget⟩ := class?_of_unnamed hnamed
    obtain ⟨-, found, -, hfound, -⟩ := exists_handler_of_kind htarget mark declared
    exact ⟨found, (handler_of_no_dispatcher hoption target mark declared).trans hfound⟩

end Target

namespace Admission

/-- Where the predicate has a verdict, the request is admitted or rejected. -/
theorem exists_rejection? {options : Mapping} {rule : Option Text} {request : Request}
    {passed : Bool} (h : Check.passesPredicate options rule request = .ok passed) :
    ∃ rejection, rejection? options rule request = .ok rejection := by
  cases hrejection : rejection? options rule request with
  | ok rejection => exact ⟨rejection, rfl⟩
  | error fault =>
    have hadmits : admits options rule request = .error fault :=
      congrArg (Except.map Option.isNone) hrejection
    cases h.symm.trans (admits_eq_error_iff.mp hadmits)

end Admission

namespace Captures

/-- What is captured are texts, which can be asked for the delimiter. -/
theorem exists_anyHoldsDelimiter (captures : Captures) (delimiter : Text) :
    ∃ held, Variables.anyHoldsDelimiter (.str delimiter)
      (Entries.values (captures.toMapping.filter fun entry ↦ !entry.2.isNull)) = .ok held := by
  induction captures with
  | nil => exact ⟨false, rfl⟩
  | cons first rest ih =>
    obtain ⟨name, part⟩ := first
    obtain ⟨held, hrest⟩ := ih
    cases part with
    | none => exact ⟨held, hrest⟩
    | some v =>
      change ∃ held, Variables.anyHoldsDelimiter _ (.str v :: _) = .ok held
      rw [Variables.anyHoldsDelimiter, Variables.holdsDelimiter]
      cases Text.occursIn delimiter v with
      | true => exact ⟨true, rfl⟩
      | false => exact ⟨held, hrest⟩

end Captures

namespace CompiledRule

variable {c : CompiledRule} {request : Request} {complete : Bool}

theorem exists_extract_of_delimiter {mark : Text}
    (hmark : c.parameterDelimiter c.options = .str mark) (url : Text) (captures : Captures) :
    ∃ vars, Variables.extract captures.toMapping c.text url c.patterns c.options
      (c.parameterDelimiter c.options) = .ok vars := by
  obtain ⟨held, hheld⟩ := captures.exists_anyHoldsDelimiter mark
  rw [Variables.extract_eq, Variables.tail, hmark, hheld]
  cases held with
  | true => exact ⟨_, rfl⟩
  | false =>
    cases mark with
    | nil => exact absurd rfl (ne_nil_of_parameterDelimiter hmark)
    | cons x mark => exact ⟨_, rfl⟩

/-- Parameters are delimited by a text, and no class is named whose decisions have fields of their
own. -/
structure CanDecide (c : CompiledRule) : Prop where
  delimiter : ∃ mark : Text, c.parameterDelimiter c.options = .str mark
  cls : (Target.namedClasses c.target c.options).head?.any DispatchClass.hasFields = false

instance (c : CompiledRule) : Decidable c.CanDecide :=
  decidable_of_iff ((c.parameterDelimiter c.options).text?.isSome = true ∧
      (Target.namedClasses c.target c.options).head?.any DispatchClass.hasFields = false)
    ⟨fun ⟨hmark, hcls⟩ ↦
        ⟨(Option.isSome_iff_exists.mp hmark).imp fun _ ↦ Value.text?_eq_some_iff.mp, hcls⟩,
      fun ⟨⟨_, hmark⟩, hcls⟩ ↦ ⟨by rw [hmark]; rfl, hcls⟩⟩

namespace CanDecide

theorem on (h : c.CanDecide) (anyDomain : Bool) : (c.on anyDomain).CanDecide := by
  have hdispatcher : Mapping.named (c.on anyDomain).options "dispatcher" =
      Mapping.named c.options "dispatcher" := by
    cases anyDomain with
    | false => rfl
    | true => exact named_onAnyDomain (by decide) c
  have htarget : (c.on anyDomain).target = c.target := by cases anyDomain <;> rfl
  refine ⟨c.parameterDelimiter_on anyDomain ▸ h.delimiter, ?_⟩
  rw [Target.namedClasses, hdispatcher, htarget]
  exact h.cls

/-- Whatever is captured makes a decision. -/
theorem exists_decision (h : c.CanDecide) (request : Request) (url : Text) (captures : Captures) :
    ∃ d, c.decision request url captures.toMapping c.options = .ok d := by
  obtain ⟨mark, hmark⟩ := h.delimiter
  obtain ⟨vars, hvars⟩ := exists_extract_of_delimiter hmark url captures
  obtain ⟨found, hfound⟩ := Target.exists_handler
    (Target.namedClasses_substitute captures.toMapping c.options c.target ▸ h.cls)
    c.config.namespaceMark (Target.substitute [] c.options c.target)
  rw [decision, hvars]
  change ∃ d, Dispatch.resolve _ _ _ _ _ _ _ = .ok d
  rw [Dispatch.resolve, hfound]
  exact ⟨_, rfl⟩

end CanDecide

/-- A class whose decisions have fields of their own makes none. -/
theorem decision_of_hasFields {mark : Text} (hmark : c.parameterDelimiter c.options = .str mark)
    {cls : DispatchClass} (hcls : (Target.namedClasses c.target c.options).head? = some cls)
    (hfields : cls.hasFields = true) (request : Request) (url : Text) (captures : Captures) :
    c.decision request url captures.toMapping c.options = .error .wrongType := by
  obtain ⟨vars, hvars⟩ := exists_extract_of_delimiter hmark url captures
  have hhandler := Target.handler_of_named
    (Target.namedClasses_substitute captures.toMapping c.options c.target ▸ hcls)
    c.config.namespaceMark (Target.substitute [] c.options c.target)
  rw [Target.ofClass_of_hasFields hfields] at hhandler
  rw [decision, hvars]
  change Dispatch.resolve _ _ _ _ _ _ _ = _
  rw [Dispatch.resolve, hhandler]
  rfl

theorem exists_capture {r : Regex} (h : c.regex complete = .ok r) (url : Text) :
    ∃ outcome, c.capture url complete = .ok outcome := by
  rw [capture]
  cases c.decided? url complete with
  | some outcome => exact ⟨outcome, rfl⟩
  | none =>
    rw [h]
    exact ⟨_, rfl⟩

theorem regex_on (c : CompiledRule) (anyDomain : Bool) :
    (c.on anyDomain).regex complete = c.regex complete := by
  cases anyDomain with
  | false => rfl
  | true => exact c.regex_onAnyDomain complete

theorem passesPredicate_on (c : CompiledRule) (anyDomain : Bool) (request : Request) :
    Check.passesPredicate (c.on anyDomain).options (some (c.on anyDomain).text) request =
      Check.passesPredicate c.options (some c.text) request := by
  cases anyDomain with
  | false => rfl
  | true =>
    have hnamed : ∀ name ∈ Check.predicate.reads,
        Mapping.named c.onAnyDomain.options name = Mapping.named c.options name := fun name hname ↦
      named_onAnyDomain (by rw [List.mem_singleton.mp hname]; decide) c
    exact Check.passes_congr hnamed (some c.text) request

/-- The rule can decide, its expression can be made, and its predicate does not fail on the
request. -/
structure Fits (c : CompiledRule) (request : Request) : Prop extends c.CanDecide where
  expression : ∃ r, c.regex (c.isComplete false) = .ok r
  predicate : ∃ passed, Check.passesPredicate c.options (some c.text) request = .ok passed

instance (c : CompiledRule) (request : Request) : Decidable (c.Fits request) :=
  decidable_of_iff (c.CanDecide ∧ (∃ r, c.regex (c.isComplete false) = .ok r) ∧
      ∃ passed, Check.passesPredicate c.options (some c.text) request = .ok passed)
    ⟨fun ⟨can, expression, predicate⟩ ↦ ⟨can, expression, predicate⟩,
      fun ⟨can, expression, predicate⟩ ↦ ⟨can, expression, predicate⟩⟩

namespace Fits

theorem on (h : c.Fits request) (anyDomain : Bool) : (c.on anyDomain).Fits request where
  toCanDecide := h.toCanDecide.on anyDomain
  expression := by
    rw [isComplete_on, regex_on]
    exact h.expression
  predicate := by
    rw [passesPredicate_on]
    exact h.predicate

/-- The rule decides on the request, or leaves it to others. -/
theorem exists_decide (h : c.Fits request) (url : Text) :
    ∃ decided, c.decide request url false = .ok decided := by
  obtain ⟨passed, hpassed⟩ := h.predicate
  obtain ⟨rejection, hrejection⟩ := Admission.exists_rejection? hpassed
  rw [decide, hrejection]
  cases rejection with
  | some check => exact ⟨none, rfl⟩
  | none =>
    obtain ⟨r, hr⟩ := h.expression
    obtain ⟨outcome, houtcome⟩ := exists_capture hr (c.trimmed request.ext url)
    change ∃ decided, (c.capture _ _ >>= _) = .ok decided
    rw [houtcome]
    cases outcome with
    | none => exact ⟨none, rfl⟩
    | some captures =>
      obtain ⟨d, hd⟩ := h.exists_decision request (c.trimmed request.ext url) captures
      refine ⟨some d, ?_⟩
      change c.decision _ _ _ _ >>= _ = _
      rw [hd]
      rfl

end Fits

end CompiledRule

theorem Fault.exists_refusal (request : Request) (allowed : List Text) : ∃ kind e,
    Fault.refusal request allowed = .http kind e ∧ (e.status = 404 ∨ e.status = 405) := by
  rw [refusal]
  split
  · exact ⟨_, _, rfl, .inl rfl⟩
  · exact ⟨_, _, rfl, .inr rfl⟩

namespace Table

variable {t : Table} {rid : RouterId} {request : Request}

/-- The router can be compiled, and all rules that it may ask fit the request. -/
structure Serves (t : Table) (rid : RouterId) (request : Request) : Prop where
  compiles : t.compilingAll (t.subtree (t.router rid).root) = .ok ()
  fits : ∀ id ∈ t.routes rid ++ (t.router rid).everywhere,
    ∃ c, t.ruleAt id = .ok c ∧ c.Fits (t.completed rid request)

instance (t : Table) (rid : RouterId) (request : Request) : Decidable (t.Serves rid request) :=
  decidable_of_iff ((∃ done, t.compilingAll (t.subtree (t.router rid).root) = .ok done) ∧
      ∀ id ∈ t.routes rid ++ (t.router rid).everywhere,
        ∃ c, t.ruleAt id = .ok c ∧ c.Fits (t.completed rid request))
    ⟨fun ⟨⟨_, compiles⟩, fits⟩ ↦ ⟨compiles, fits⟩, fun ⟨compiles, fits⟩ ↦ ⟨⟨_, compiles⟩, fits⟩⟩

namespace Serves

theorem readying (h : t.Serves rid request) : t.readying rid = .ok () := by
  rw [Table.readying, h.compiles, ite_self]

theorem exists_decisionAt (h : t.Serves rid request) {id : NodeId}
    (hid : id ∈ t.routes rid ++ (t.router rid).everywhere) (url : Text) (anyDomain : Bool) :
    ∃ decided, t.decisionAt id (t.completed rid request) url false anyDomain = .ok decided := by
  obtain ⟨c, hat, hfits⟩ := h.fits id hid
  rw [decisionAt, hat]
  exact (hfits.on anyDomain).exists_decide url

/-- Nothing breaks the routing of the request off. -/
theorem not_breaks (h : t.Serves rid request) (fault : Fault) : ¬t.Breaks rid request fault := by
  intro hbreaks
  cases hbreaks with
  | compiling hfault => cases h.readying.symm.trans hfault
  | deciding hid hfault =>
    obtain ⟨decided, hdecided⟩ := h.exists_decisionAt (List.mem_append_left _ hid) _ false
    cases hdecided.symm.trans hfault
  | anywhere hid hfault =>
    obtain ⟨decided, hdecided⟩ := h.exists_decisionAt (List.mem_append_right _ hid) _ true
    rw [anywhereAt, if_pos (isRule_of_decisionAt hdecided), hdecided] at hfault
    cases hfault
  | matching hid hfault =>
    obtain ⟨c, hat, hfits⟩ := h.fits _ (List.mem_append_left _ hid)
    obtain ⟨r, hr⟩ := hfits.expression
    obtain ⟨outcome, houtcome⟩ :=
      CompiledRule.exists_capture hr (c.trimmed [] (t.urlOf rid request))
    rw [capturesAt, hat] at hfault
    cases houtcome.symm.trans hfault

/-- The router decides on the request, or refuses it. -/
theorem routing_cases (h : t.Serves rid request) : (∃ d, t.routing rid request = .ok d) ∨
    ∃ kind e, t.routing rid request = .error (.http kind e) ∧
      (e.status = 404 ∨ e.status = 405) := by
  rcases t.routing_cases rid request with
    ⟨d, -, -, hd, -⟩ | ⟨fault, -, hbreaks⟩ | ⟨allowed, -, hrefused⟩
  · exact .inl ⟨d, hd⟩
  · exact absurd hbreaks (h.not_breaks fault)
  · obtain ⟨kind, e, he, hstatus⟩ :=
      Fault.exists_refusal (t.completed rid request) (allowed.getD [])
    exact .inr ⟨kind, e, he ▸ hrefused, hstatus⟩

end Serves

end Table

end UrlRouting

import UrlRouting.Proofs.Table.Routing

/-!
What a decision of a rule shows: all checks let the request pass, and the path of the rule matches
the URL. The domain has a say in the checks only.
-/

namespace UrlRouting

open Http

variable {t : Table} {id : NodeId} {request : Request} {url : Text} {asked anyDomain : Bool}
  {d : Dispatch}

theorem Admission.passes_of_admitted {options : Mapping} {rule : Option Text} {checks : List Check}
    (h : firstFailure options rule request checks = .ok none) :
    ∀ check ∈ checks, check.passes options rule request = .ok true := by
  induction checks with
  | nil => exact nofun
  | cons check rest ih =>
    obtain ⟨passes, hpasses, h⟩ := bind_eq_ok_iff.mp h
    cases passes with
    | false => cases h
    | true =>
      intro other hmem
      rcases List.mem_cons.mp hmem with rfl | hmem
      · exact hpasses
      · exact ih h other hmem

namespace CompiledRule

variable {c : CompiledRule} {captures : Captures}

/-- A decision carries the variables of what its rule captured. -/
theorem decide_eq_some (h : c.decide request url asked = .ok (some d)) : ∃ captures,
    c.capture (c.trimmed request.ext url) (c.isComplete asked) = .ok (some captures) ∧
    c.decision request (c.trimmed request.ext url) captures.toMapping c.options = .ok d := by
  obtain ⟨rejection, -, h⟩ := bind_eq_ok_iff.mp h
  cases rejection with
  | some failed => cases h
  | none =>
    obtain ⟨captures, hcaptures, h⟩ := bind_eq_ok_iff.mp h
    cases captures with
    | none => cases h
    | some captures =>
      obtain ⟨d', hd, h⟩ := bind_eq_ok_iff.mp h
      cases h
      exact ⟨captures, hcaptures, hd⟩

/-- Rules that admit the same requests, and take the same parts from URLs, decide alike if they do
so on these parts. -/
theorem decide_congr {c' : CompiledRule} {request' : Request} {url' : Text}
    {f : Dispatch → Dispatch}
    (hrejection : Admission.rejection? c'.options (some c'.text) request' =
      Admission.rejection? c.options (some c.text) request)
    (hcapture : c'.capture (c'.trimmed request'.ext url') (c'.isComplete asked) =
      c.capture (c.trimmed request.ext url) (c.isComplete asked))
    (hdecision : ∀ captures,
      c.capture (c.trimmed request.ext url) (c.isComplete asked) = .ok (some captures) →
      c'.decision request' (c'.trimmed request'.ext url') captures.toMapping c'.options =
        (c.decision request (c.trimmed request.ext url) captures.toMapping c.options).map f) :
    c'.decide request' url' asked = (c.decide request url asked).map (Option.map f) := by
  rw [decide, decide, hrejection]
  rcases Admission.rejection? c.options (some c.text) request with fault | _ | failed
  · rfl
  · change c'.capture _ _ >>= _ = Except.map _ (c.capture _ _ >>= _)
    rw [hcapture]
    rcases hcaptured : c.capture (c.trimmed request.ext url) (c.isComplete asked) with
      fault | _ | captures
    · rfl
    · rfl
    · change c'.decision _ _ _ _ >>= _ = Except.map _ (c.decision _ _ _ _ >>= _)
      rw [hdecision captures hcaptured]
      cases c.decision request (c.trimmed request.ext url) captures.toMapping c.options <;> rfl
  · rfl

/-- The names of the options that a decision looks at. -/
def decisionReads : List Text := ["param_depr", "default", "prefix", "dispatcher"]

/-- A decision carries its options, and is the same apart from them if they agree on what it looks
at. -/
theorem decision_congr {m options : Mapping}
    (h : ∀ name ∈ decisionReads, m.named name = options.named name) (c : CompiledRule)
    (request : Request) (url : Text) (groups : Mapping) :
    c.decision request url groups m =
      (c.decision request url groups options).map fun d ↦ { d with options := m } := by
  have hparameter : c.parameterDelimiter m = c.parameterDelimiter options := by
    rw [parameterDelimiter, parameterDelimiter, h _ (by decide)]
  have hextract : Variables.extract groups c.text url c.patterns m
      (c.parameterDelimiter options) = Variables.extract groups c.text url c.patterns options
        (c.parameterDelimiter options) := by
    rw [Variables.extract, Variables.extract, h _ (by decide)]
  have hsubstitute : ∀ groups, Target.substitute groups m = Target.substitute groups options := by
    intro groups
    funext target
    rw [Target.substitute.eq_def, Target.substitute.eq_def]
    simp only [Target.declared, h "prefix" (by decide)]
  have hhandler : ∀ target mark declared, Target.handler target m mark declared =
      Target.handler target options mark declared := by
    intro target mark declared
    rw [Target.handler.eq_def, Target.handler.eq_def, h _ (by decide)]
  rw [decision, decision, hparameter]
  simp only [hextract, hsubstitute, Dispatch.resolve, hhandler]
  cases Variables.extract groups c.text url c.patterns options (c.parameterDelimiter options) with
  | error e => rfl
  | ok vars =>
    change Except.map _ _ = Except.map _ (Except.map _ _)
    cases Target.handler (Target.substitute groups options c.target) options
      c.config.namespaceMark (Target.substitute [] options c.target) <;> rfl

theorem options_of_decision {options groups : Mapping}
    (h : c.decision request url groups options = .ok d) : d.options = options := by
  have hcarries : c.decision request url groups options = _ :=
    decision_congr (fun _ _ ↦ rfl) c request url groups
  rw [h] at hcarries
  exact congrArg Dispatch.options (Except.ok.inj hcarries)

theorem admitted_of_decide (h : c.decide request url asked = .ok (some d)) :
    Admission.rejection? c.options (some c.text) request = .ok none := by
  obtain ⟨rejection, hrejection, h⟩ := bind_eq_ok_iff.mp h
  cases rejection with
  | some check => cases h
  | none => exact hrejection

theorem passesMethod_of_decide (h : c.decide request url asked = .ok (some d)) :
    Check.passesMethod c.options request = true :=
  Except.ok.inj (Admission.passes_of_admitted (admitted_of_decide h) .method (by decide))

theorem path_onAnyDomain (c : CompiledRule) : c.onAnyDomain.path = c.path := by
  rw [path, path, dropsEnd_onAnyDomain]
  rfl

theorem capture_onAnyDomain (c : CompiledRule) (url : Text) (complete : Bool) :
    c.onAnyDomain.capture url complete = c.capture url complete := by
  have hdecided : c.onAnyDomain.decided? url complete = c.decided? url complete := by
    simp only [decided?, matchesLiterally, path_onAnyDomain]
    rfl
  rw [capture, capture, hdecided, regex_onAnyDomain]
  rfl

theorem trimmed_on (c : CompiledRule) (anyDomain : Bool) (ext url : Text) :
    (c.on anyDomain).trimmed ext url = c.trimmed ext url := by
  cases anyDomain with
  | false => rfl
  | true =>
    change c.onAnyDomain.trimmed ext url = _
    rw [trimmed, trimmed, dropsEnd_onAnyDomain, named_onAnyDomain (by decide)]
    rfl

theorem isComplete_on (c : CompiledRule) (anyDomain asked : Bool) :
    (c.on anyDomain).isComplete asked = c.isComplete asked := by
  cases anyDomain with
  | false => rfl
  | true =>
    change c.onAnyDomain.isComplete asked = _
    rw [isComplete, isComplete, named_onAnyDomain (by decide)]
    rfl

theorem capture_on (c : CompiledRule) (anyDomain : Bool) (ext url : Text) (asked : Bool) :
    (c.on anyDomain).capture ((c.on anyDomain).trimmed ext url)
        ((c.on anyDomain).isComplete asked) =
      c.capture (c.trimmed ext url) (c.isComplete asked) := by
  rw [trimmed_on, isComplete_on]
  cases anyDomain with
  | false => rfl
  | true => exact c.capture_onAnyDomain _ _

theorem parameterDelimiter_on (c : CompiledRule) (anyDomain : Bool) :
    (c.on anyDomain).parameterDelimiter (c.on anyDomain).options =
      c.parameterDelimiter c.options := by
  cases anyDomain with
  | false => rfl
  | true =>
    change c.onAnyDomain.parameterDelimiter c.onAnyDomain.options = _
    rw [parameterDelimiter, parameterDelimiter, named_onAnyDomain (by decide)]
    rfl

theorem passesMethod_on (c : CompiledRule) (anyDomain : Bool) (request : Request) :
    Check.passesMethod (c.on anyDomain).options request =
      Check.passesMethod c.options request := by
  cases anyDomain with
  | false => rfl
  | true =>
    change Check.passesMethod c.onAnyDomain.options request = _
    rw [Check.passesMethod, Check.passesMethod, named_onAnyDomain (by decide)]

end CompiledRule

namespace Table

theorem patterns_of_ruleAt {c : CompiledRule} (h : t.ruleAt id = .ok c) :
    c.patterns = t.effectivePatterns id := by
  obtain ⟨r, -, rfl⟩ := Option.map_eq_some_iff.mp (inEffect?_of_ruleAt h)
  rfl

theorem options_of_ruleAt {c : CompiledRule} (h : t.ruleAt id = .ok c) :
    c.options = t.effectiveOptions id := by
  obtain ⟨r, -, rfl⟩ := Option.map_eq_some_iff.mp (inEffect?_of_ruleAt h)
  rfl

/-- A rule that decides on a request accepts its method, and its path matches the trimmed URL. -/
theorem decisionAt_eq_some (h : t.decisionAt id request url asked anyDomain = .ok (some d)) :
    Check.passesMethod (t.effectiveOptions id) request = true ∧ ∃ c captures,
      t.ruleAt id = .ok c ∧
      c.capture (c.trimmed request.ext url) (c.isComplete asked) = .ok (some captures) ∧
      (c.on anyDomain).decision request (c.trimmed request.ext url) captures.toMapping
        (c.on anyDomain).options = .ok d := by
  obtain ⟨c, hat, hd⟩ := bind_eq_ok_iff.mp h
  obtain ⟨captures, hcaptures, hdecision⟩ := CompiledRule.decide_eq_some hd
  rw [c.capture_on] at hcaptures
  rw [c.trimmed_on] at hdecision
  refine ⟨?_, c, captures, hat, hcaptures, hdecision⟩
  rw [← options_of_ruleAt hat, ← c.passesMethod_on anyDomain]
  exact CompiledRule.passesMethod_of_decide hd

end Table

end UrlRouting

import UrlRouting.Proofs.Dispatch.Filling
import UrlRouting.Proofs.Variables.Captured

/-!
The form of a decision: its class, its kind and, for a path, how many segments there are. It is the
form of the declared target as long as captured text stays text (`form_eq_of_neutral`): a method
that is named by an at sign or a class path stays one whatever is captured, one that is named by a
double colon unless a placeholder takes the second colon away, and a path stays one with as many
segments unless the text that is put into it is empty or holds a character that targets are taken
apart at.
-/

namespace UrlRouting

open Http

/-! ### Form of a handler -/

/-- The handlers have one form: they may differ in the texts that name a method or the segments of
a path. -/
inductive Handler.SameForm : Handler → Handler → Prop where
  | refl (handler : Handler) : SameForm handler handler
  | method (controller action controller' action' : Value) :
      SameForm (.method controller action) (.method controller' action')
  | path {segments segments' : List Text} (h : segments.length = segments'.length) :
      SameForm (.path segments) (.path segments')

namespace Handler.SameForm

variable {handler handler' plain : Handler}

theorem symm (h : handler.SameForm handler') : handler'.SameForm handler := by
  cases h with
  | refl => exact .refl _
  | method => exact .method _ _ _ _
  | path h => exact .path h.symm

theorem trans (h : handler.SameForm plain) (h' : plain.SameForm handler') :
    handler.SameForm handler' := by
  cases h with
  | refl => exact h'
  | method =>
    cases h' with
    | refl => exact .method _ _ _ _
    | method => exact .method _ _ _ _
  | path h =>
    cases h' with
    | refl => exact .path h
    | path h' => exact .path (h.trans h')

/-- Decisions whose handlers have one form agree on the class, the kind and the number of
segments. -/
theorem decisions {d d' : Dispatch} (h : d.handler.SameForm d'.handler) :
    d.cls = d'.cls ∧ d.kind = d'.kind ∧ ∀ path path', d.handler = .path path →
      d'.handler = .path path' → path.length = path'.length := by
  obtain ⟨_, _, _, _, _, handler⟩ := d
  obtain ⟨_, _, _, _, _, handler'⟩ := d'
  cases h with
  | refl =>
    refine ⟨rfl, rfl, fun path path' hpath hpath' ↦ ?_⟩
    cases hpath.symm.trans hpath'
    rfl
  | method => exact ⟨rfl, rfl, nofun⟩
  | path h =>
    refine ⟨rfl, rfl, fun path path' hpath hpath' ↦ ?_⟩
    cases hpath
    cases hpath'
    exact h

end Handler.SameForm

/-! ### Form of a target -/

namespace Target

open Text

variable {mark t : Text} {groups options : Mapping} {target : Value} {found : Handler}

/-- The values leave the form of a target alone: it names a method by an at sign or as a class path;
or by a double colon, and all double colons are spared; or it is a path, and harmless text is put
into it. -/
def Neutral (mark : Text) (groups : Mapping) (t : Text) : Prop :=
  if t.contains '@' || isClassPath mark t then True
  else if occursIn "::" t then EachFilling SparesColons groups t
  else EachFilling FillsText groups t

instance (mark : Text) (groups : Mapping) (t : Text) : Decidable (Neutral mark groups t) :=
  inferInstanceAs (Decidable (if t.contains '@' || isClassPath mark t then True
    else if occursIn "::" t then EachFilling SparesColons groups t
    else EachFilling FillsText groups t))

def NamesMethod (mark t declared : Text) : Prop :=
  '@' ∈ t ∨ [':', ':'] <:+: t ∨ isClassPath mark declared = true

theorem ofText_of_namesMethod {declared : Text} (h : NamesMethod mark t declared) :
    ofText mark t declared = .method (callback t).1 (callback t).2 := by
  rw [ofText, if_pos]
  rw [Bool.or_eq_true, Bool.or_eq_true, List.contains_iff_mem, or_assoc]
  exact h.imp_right (Or.imp_left occursIn_iff.mpr)

theorem ofText_of_path {declared : Text} (h : ¬NamesMethod mark t declared) :
    ofText mark t declared = .path (segments t) := by
  rw [ofText, if_neg]
  rw [Bool.or_eq_true, Bool.or_eq_true, List.contains_iff_mem, or_assoc]
  exact fun hnames ↦ h (hnames.imp_right (Or.imp_left occursIn_iff.mp))

theorem ofText_fill (hnames : ∀ entry ∈ groups, Harmless entry.1.plain)
    (h : Neutral mark groups t) :
    (ofText mark (fill groups t) t).SameForm (ofText mark t t) := by
  have hmethod (hfilled : NamesMethod mark (fill groups t) t) (ht : NamesMethod mark t t) :
      (ofText mark (fill groups t) t).SameForm (ofText mark t t) := by
    rw [ofText_of_namesMethod hfilled, ofText_of_namesMethod ht]
    exact .method _ _ _ _
  rw [Neutral] at h
  by_cases hat : '@' ∈ t
  · exact hmethod (.inl (at_mem_fill hnames hat)) (.inl hat)
  by_cases hclass : isClassPath mark t = true
  · exact hmethod (.inr (.inr hclass)) (.inr (.inr hclass))
  rw [if_neg (by simp [hat, hclass])] at h
  by_cases hcolons : [':', ':'] <:+: t
  · have hin : occursIn "::" t = true := occursIn_iff.mpr hcolons
    rw [if_pos hin] at h
    exact hmethod (.inr (.inl (colons_fill hnames h hcolons))) (.inr (.inl hcolons))
  · have hin : ¬occursIn "::" t = true := fun hin ↦ hcolons (occursIn_iff.mp hin)
    rw [if_neg hin] at h
    have hpath : IsPath (outline isBar t) (fill groups t) :=
      IsPath.fill hnames h ⟨hat, hcolons, rfl⟩
    have hfilled : ¬NamesMethod mark (fill groups t) t := by
      simp [NamesMethod, hpath.not_mem, hpath.not_colons, hclass]
    have ht : ¬NamesMethod mark t t := by simp [NamesMethod, hat, hcolons, hclass]
    rw [ofText_of_path hfilled, ofText_of_path ht]
    exact .path (by rw [length_segments, length_segments, hpath.outline_eq])

theorem handler_of_dispatcher {cls : DispatchClass}
    (h : options.named "dispatcher" = .dispatch cls) (target : Value) (mark : Text)
    (declared : Value) : handler target options mark declared = ofClass cls := by
  rw [handler.eq_def, h]

theorem handler_str (h : ∀ cls, options.named "dispatcher" ≠ .dispatch cls) (t mark u : Text) :
    handler (.str t) options mark (.str u) = .ok (ofText mark t u) := by
  rw [handler.eq_def]
  split
  next cls hcls => exact absurd hcls (h cls)
  next => rfl

/-- Values that leave its form alone give a target a handler of the form of the declared one. -/
theorem handler_substitute (hnames : ∀ entry ∈ groups, Harmless entry.1.plain)
    (hneutral : (∀ cls, options.named "dispatcher" ≠ .dispatch cls) → ∀ t, target = .str t →
      Neutral mark groups (declared options t))
    (h : handler (substitute groups options target) options mark
      (substitute [] options target) = .ok found) :
    ∃ plain, handler (substitute [] options target) options mark
      (substitute [] options target) = .ok plain ∧ found.SameForm plain := by
  by_cases hdispatcher : ∃ cls, options.named "dispatcher" = .dispatch cls
  · obtain ⟨cls, hcls⟩ := hdispatcher
    rw [handler_of_dispatcher hcls] at h ⊢
    exact ⟨found, h, .refl _⟩
  · rw [not_exists] at hdispatcher
    cases target with
    | str t =>
      rw [substitute, substitute, handler_str hdispatcher] at h
      rw [substitute, handler_str hdispatcher]
      cases h
      exact ⟨_, rfl, ofText_fill hnames (hneutral hdispatcher t rfl)⟩
    | _ => exact ⟨found, h, .refl _⟩

end Target

/-! ### Form of a decision -/

namespace CompiledRule

variable {c : CompiledRule} {captures : Captures} {request : Request} {url : Text}
  {complete anyDomain : Bool} {d : Dispatch}

/-- The captures leave the form of the target alone, unless a dispatch class runs it anyway. -/
def Neutral (c : CompiledRule) (captures : Captures) : Prop :=
  (∀ cls, Mapping.named c.options "dispatcher" ≠ .dispatch cls) → ∀ t, c.target = .str t →
    Target.Neutral c.config.namespaceMark captures.toMapping (Target.declared c.options t)

theorem declared_on (c : CompiledRule) (anyDomain : Bool) (t : Text) :
    Target.declared (c.on anyDomain).options t = Target.declared c.options t := by
  cases anyDomain with
  | false => rfl
  | true =>
    have hnamed := @named_onAnyDomain "prefix" (by decide) c
    simp only [Target.declared, on, if_true, hnamed]

theorem substitute_on (c : CompiledRule) (anyDomain : Bool) (groups : Mapping) (target : Value) :
    Target.substitute groups (c.on anyDomain).options target =
      Target.substitute groups c.options target := by
  cases target with
  | str t => rw [Target.substitute, Target.substitute, declared_on]
  | _ => rfl

theorem handler_of_decision {groups : Mapping}
    (h : (c.on anyDomain).decision request url groups (c.on anyDomain).options = .ok d) :
    Target.handler (Target.substitute groups c.options c.target) c.options c.config.namespaceMark
      (Target.substitute [] c.options c.target) = .ok d.handler := by
  obtain ⟨vars, -, h⟩ := bind_eq_ok_iff.mp h
  have htarget : (c.on anyDomain).target = c.target := by cases anyDomain <;> rfl
  have hmark : (c.on anyDomain).config = c.config := by cases anyDomain <;> rfl
  rw [htarget, hmark, substitute_on, substitute_on, Dispatch.resolve] at h
  have hhandler : ∀ target declared : Value, Target.handler target (c.on anyDomain).options
      c.config.namespaceMark declared =
        Target.handler target c.options c.config.namespaceMark declared := by
    intro target declared
    cases anyDomain with
    | false => rfl
    | true =>
      have hnamed := @named_onAnyDomain "dispatcher" (by decide) c
      simp only [Target.handler, on, if_true, hnamed]
  rw [hhandler] at h
  cases hfound : Target.handler (Target.substitute groups c.options c.target) c.options
    c.config.namespaceMark (Target.substitute [] c.options c.target) with
  | error e =>
    rw [hfound] at h
    cases h
  | ok found =>
    rw [hfound] at h
    cases h
    rfl

/-- The handler of a decision has the form of the handler of the declared target. -/
theorem sameForm_of_decision (hcaptures : c.capture url complete = .ok (some captures))
    (hneutral : c.Neutral captures)
    (h : (c.on anyDomain).decision request url captures.toMapping (c.on anyDomain).options =
      .ok d) :
    ∃ plain, Target.handler (Target.substitute [] c.options c.target) c.options
      c.config.namespaceMark (Target.substitute [] c.options c.target) = .ok plain ∧
      d.handler.SameForm plain := by
  refine Target.handler_substitute ?_ hneutral (handler_of_decision h)
  intro entry hentry
  obtain ⟨capture, hcapture, rfl⟩ := List.mem_map.mp hentry
  exact Target.harmless_of_isIdentifier ((captured_names hcaptures).2 capture hcapture)

end CompiledRule

variable {t u s s' : Table} {id : NodeId} {request request' : Request} {url url' : Text}
  {asked asked' anyDomain anyDomain' : Bool} {d d' : Dispatch}

/-- Two decisions of one rule agree on the class, the kind and the number of segments if what each
request captures leaves the form of the target alone. -/
theorem form_eq_of_neutral (ht : t.Reachable) (hu : u.Reachable) (halike : t.Alike u)
    (hd : (Action.checkRule id request url asked anyDomain).run t = .ok (some d) s)
    (hd' : (Action.checkRule id request' url' asked' anyDomain').run u = .ok (some d') s') :
    ∃ c captures captures', t.ruleAt id = .ok c ∧
      c.capture (c.trimmed request.ext url) (c.isComplete asked) = .ok (some captures) ∧
      c.capture (c.trimmed request'.ext url') (c.isComplete asked') = .ok (some captures') ∧
      (c.Neutral captures → c.Neutral captures' →
        d.cls = d'.cls ∧ d.kind = d'.kind ∧ ∀ path path', d.handler = .path path →
          d'.handler = .path path' → path.length = path'.length) := by
  have hanswer := ((Action.checkRule_answers ht.sound _ _ _ _ _).run_ok hd).1
  have hanswer' := ((Action.checkRule_answers hu.sound _ _ _ _ _).run_ok hd').1
  obtain ⟨-, c, captures, hat, hcaptures, hdecision⟩ := Table.decisionAt_eq_some hanswer
  obtain ⟨-, c', captures', hat', hcaptures', hdecision'⟩ := Table.decisionAt_eq_some hanswer'
  have hsame : some c' = some c := by
    rw [← Table.inEffect?_of_ruleAt hat, ← Table.inEffect?_of_ruleAt hat', halike.inEffect?_eq]
  cases hsame
  refine ⟨c, captures, captures', hat, hcaptures, hcaptures', fun hneutral hneutral' ↦ ?_⟩
  obtain ⟨plain, hplain, hform⟩ :=
    CompiledRule.sameForm_of_decision hcaptures hneutral hdecision
  obtain ⟨plain', hplain', hform'⟩ :=
    CompiledRule.sameForm_of_decision hcaptures' hneutral' hdecision'
  cases hplain.symm.trans hplain'
  exact (hform.trans hform'.symm).decisions

/-- A rule that puts whatever it captures into the path of its target. -/
def Table.pageRule : Table := empty.afterAll
  [.addRouter [],
    .routeOn 0 { rule := "x/<page>", target := "index/<page>", patterns := [("page", ".+")] }]

theorem reachable_pageRule : Table.pageRule.Reachable :=
  ⟨_, by decide, rfl⟩

theorem pageRule_decides : ∀ visit ∈ [("x/a".toList, DispatchClass.controller),
    ("x/b".toList, .controller), ("x/a@b".toList, .method)], ∃ d s,
      (Action.checkRule 1 (.bare "GET" "/") visit.1 false false).run Table.pageRule =
        .ok (some d) s ∧ d.cls = visit.2 := by
  have hrun : ∀ visit ∈ [("x/a".toList, DispatchClass.controller), ("x/b".toList, .controller),
      ("x/a@b".toList, .method)],
      ((Action.checkRule 1 (.bare "GET" "/") visit.1 false false).answer? Table.pageRule).join.map
        Dispatch.cls = some visit.2 := by decide +kernel
  intro visit hvisit
  obtain ⟨d, hd, hcls⟩ := Option.map_eq_some_iff.mp (hrun visit hvisit)
  obtain ⟨s, hs⟩ := Action.exists_run_of_answer? (Option.join_eq_some_iff.mp hd)
  exact ⟨d, s, hs, hcls⟩

theorem pageRule_neutral {c : CompiledRule} {captures : Captures} {url : Text}
    (hurl : url = "x/a".toList ∨ url = "x/b".toList) (hat : Table.pageRule.ruleAt 1 = .ok c)
    (hcaptures : c.capture (c.trimmed [] url) (c.isComplete false) = .ok (some captures)) :
    c.Neutral captures := by
  have hall : ∀ url ∈ ["x/a".toList, "x/b".toList], (Table.pageRule.ruleAt 1 >>= fun c ↦
      (c.capture (c.trimmed [] url) (c.isComplete false)).map
        fun captures ↦ c.target.text?.all fun t ↦ decide (Target.Neutral c.config.namespaceMark
          (captures.getD []).toMapping (Target.declared c.options t))).toOption = some true := by
    decide +kernel
  have h := hall url (by simpa using hurl)
  rw [hat] at h
  change Except.toOption (Except.map _ (CompiledRule.capture _ _ _)) = _ at h
  rw [hcaptures] at h
  intro _ t ht
  rw [ht] at h
  exact of_decide_eq_true (Option.some.inj h)

theorem form_pageRule : ∃ d s d' s' c captures captures', Table.pageRule.Reachable ∧
    (Action.checkRule 1 (.bare "GET" "/") "x/a" false false).run Table.pageRule =
      .ok (some d) s ∧
    (Action.checkRule 1 (.bare "GET" "/") "x/b" false false).run Table.pageRule =
      .ok (some d') s' ∧
    Table.pageRule.ruleAt 1 = .ok c ∧
    c.capture (c.trimmed [] "x/a") (c.isComplete false) = .ok (some captures) ∧
    c.capture (c.trimmed [] "x/b") (c.isComplete false) = .ok (some captures') ∧
    c.Neutral captures ∧ c.Neutral captures' ∧
    d.cls = d'.cls ∧ d.kind = d'.kind ∧ ∀ path path', d.handler = .path path →
      d'.handler = .path path' → path.length = path'.length := by
  obtain ⟨d, s, hd, -⟩ := pageRule_decides ("x/a".toList, .controller) (by simp)
  obtain ⟨d', s', hd', -⟩ := pageRule_decides ("x/b".toList, .controller) (by simp)
  obtain ⟨c, captures, captures', hat, hcaptures, hcaptures', hform⟩ :=
    form_eq_of_neutral reachable_pageRule reachable_pageRule (.refl _) hd hd'
  have hneutral := pageRule_neutral (.inl rfl) hat hcaptures
  have hneutral' := pageRule_neutral (.inr rfl) hat hcaptures'
  exact ⟨d, s, d', s', c, captures, captures', reachable_pageRule, hd, hd', hat, hcaptures,
    hcaptures', hneutral, hneutral', hform hneutral hneutral'⟩

/-- The URL can choose the class of a decision. -/
theorem not_forall_form_eq : ¬∀ (t s s' : Table) (id : NodeId) (request request' : Request)
    (url url' : Text) (asked anyDomain : Bool) (d d' : Dispatch), t.Reachable →
    (Action.checkRule id request url asked anyDomain).run t = .ok (some d) s →
    (Action.checkRule id request' url' asked anyDomain).run t = .ok (some d') s' →
    d.cls = d'.cls ∧ d.kind = d'.kind ∧ ∀ path path', d.handler = .path path →
      d'.handler = .path path' → path.length = path'.length := by
  intro h
  obtain ⟨d, s, hd, hcls⟩ := pageRule_decides ("x/a".toList, .controller) (by simp)
  obtain ⟨d', s', hd', hcls'⟩ := pageRule_decides ("x/a@b".toList, .method) (by simp)
  have heq := (h _ _ _ _ _ _ _ _ _ _ _ _ reachable_pageRule hd hd').1
  rw [hcls, hcls'] at heq
  cases heq

end UrlRouting

import UrlRouting.Proofs.Table.Inherited

/-!
Rules at which the same is in effect decide alike (`Twins.decideAlike`): neither how a rule is shown
nor a name for patterns that no pattern goes by has a say in it. Only a malformed expression tells
them apart, which is a fault where it is compiled, and not any more once its rule counts as
compiled.
-/

namespace UrlRouting

open Http

namespace CompiledRule

variable {c c' : CompiledRule}

/-- The rules differ at most in how they are shown and in the names that patterns may go by, and
have the same expressions. -/
structure Akin (c c' : CompiledRule) : Prop where
  eq : ∃ shown aliases, c' = { c with shown := shown, aliases := aliases }
  regex : ∀ complete, c'.regex complete = c.regex complete

namespace Akin

variable (h : c.Akin c')

include h

theorem onAnyDomain : c.onAnyDomain.Akin c'.onAnyDomain := by
  refine ⟨?_, fun complete ↦ ?_⟩
  · obtain ⟨shown, aliases, rfl⟩ := h.eq
    exact ⟨shown, aliases, rfl⟩
  · rw [regex_onAnyDomain, regex_onAnyDomain, h.regex]

theorem isComplete (asked : Bool) : c'.isComplete asked = c.isComplete asked := by
  obtain ⟨shown, aliases, rfl⟩ := h.eq
  rfl

theorem decide_eq (request : Request) (url : Text) (asked : Bool) :
    c'.decide request url asked = c.decide request url asked := by
  have hregex := h.regex
  obtain ⟨shown, aliases, rfl⟩ := h.eq
  have hcapture : ∀ url complete,
      ({ c with shown := shown, aliases := aliases } : CompiledRule).capture url complete =
        c.capture url complete := by
    intro url complete
    rw [capture, capture, hregex]
    rfl
  simp only [decide, hcapture]
  rfl

theorem decide_on (anyDomain : Bool) (request : Request) (url : Text) (asked : Bool) :
    (c'.on anyDomain).decide request url asked = (c.on anyDomain).decide request url asked := by
  cases anyDomain with
  | false => exact h.decide_eq request url asked
  | true => exact h.onAnyDomain.decide_eq request url asked

end Akin

end CompiledRule

namespace Table

variable {t s : Table} {id other : NodeId} {c : CompiledRule}

/-- The same is in effect at both rules, and the names of merged options are fit for keys at both or
at neither. -/
structure Twins (t : Table) (id other : NodeId) : Prop where
  inEffect : ∃ c c', t.inEffect? id = some c ∧ t.inEffect? other = some c' ∧ c.Akin c'
  keys : t.namesAreKeys (t.lineage other) = t.namesAreKeys (t.lineage id)

/-- The expression that a rule is first compiled to is well-formed. -/
def Compiles (t : Table) (id : NodeId) : Prop :=
  ∀ c, t.inEffect? id = some c → ∃ r, c.regex (c.isComplete false) = .ok r

theorem Compiles.alike (h : t.Compiles id) (hs : t.Alike s) : s.Compiles id := by
  intro c hin
  rw [hs.inEffect?_eq] at hin
  exact h c hin

theorem compiles_of_outcome (hs : t.Sound) (hopen : (t.node id).isCompiled = false)
    (h : (Action.compileRule id).outcome t = .ok ()) : t.Compiles id := by
  rw [(Action.compileRule_answers hs id).outcome_eq] at h
  intro c hin
  cases hat : t.ruleAt id with
  | error e =>
    rw [hat] at h
    cases h
  | ok c' =>
    rw [ruleAt_of_open hopen (keys_of_ruleAt hs.grounded hat) hin] at hat
    cases hr : c.regex (c.isComplete false) with
    | ok r => exact ⟨r, rfl⟩
    | error e =>
      rw [hr] at hat
      cases hat

theorem ruleAt_of_regex {r : Regex} (hk : t.namesAreKeys (t.lineage id) = true)
    (hin : t.inEffect? id = some c) (hr : c.regex (c.isComplete false) = .ok r) :
    t.ruleAt id = .ok c := by
  cases hc : (t.node id).isCompiled with
  | true => exact ruleAt_of_compiled hc hin
  | false =>
    rw [ruleAt_of_open hc hk hin, hr]
    rfl

namespace Twins

variable {request : Request} {url : Text} {asked anyDomain : Bool} (h : t.Twins id other)

include h

theorem alike (hs : t.Alike s) : s.Twins id other where
  inEffect := by
    rw [hs.inEffect?_eq, hs.inEffect?_eq]
    exact h.inEffect
  keys := by rw [hs.keys, hs.keys, h.keys]

theorem compiles (hc : t.Compiles other) : t.Compiles id := by
  obtain ⟨c, c', hid, hother, hakin⟩ := h.inEffect
  intro c₁ hin
  obtain rfl := Option.some.inj (hid.symm.trans hin)
  obtain ⟨r, hr⟩ := hc c' hother
  rw [hakin.regex, hakin.isComplete] at hr
  exact ⟨r, hr⟩

theorem decision_eq {d d' : Option Dispatch}
    (hd : t.decisionAt id request url asked anyDomain = .ok d)
    (hd' : t.decisionAt other request url asked anyDomain = .ok d') : d' = d := by
  obtain ⟨c, hat, hd⟩ := bind_eq_ok_iff.mp hd
  obtain ⟨c', hat', hd'⟩ := bind_eq_ok_iff.mp hd'
  obtain ⟨c₁, c₂, hid, hother, hakin⟩ := h.inEffect
  obtain rfl := Option.some.inj (hid.symm.trans (inEffect?_of_ruleAt hat))
  obtain rfl := Option.some.inj (hother.symm.trans (inEffect?_of_ruleAt hat'))
  rw [hakin.decide_on, hd] at hd'
  exact (Except.ok.inj hd').symm

theorem decisionAt_of_status (hc : (t.node other).isCompiled = (t.node id).isCompiled) :
    t.decisionAt other request url asked anyDomain =
      t.decisionAt id request url asked anyDomain := by
  obtain ⟨c, c', hid, hother, hakin⟩ := h.inEffect
  rw [decisionAt, decisionAt, ruleAt, ruleAt, hid, hother, h.keys, hc]
  dsimp only
  rw [hakin.regex, hakin.isComplete]
  split
  · exact hakin.decide_on anyDomain request url asked
  · split
    · cases c.regex (c.isComplete false) with
      | ok r => exact hakin.decide_on anyDomain request url asked
      | error e => rfl
    · rfl

/-- Where both rules are compiled or both are open, or their expression is well-formed, they decide
alike or fail for the same reason. -/
theorem decisionAt_eq (ht : t.Grounded)
    (hc : (t.node other).isCompiled = (t.node id).isCompiled ∨ t.Compiles id) :
    t.decisionAt other request url asked anyDomain =
      t.decisionAt id request url asked anyDomain := by
  by_cases hstatus : (t.node other).isCompiled = (t.node id).isCompiled
  · exact h.decisionAt_of_status hstatus
  · -- One of the rules is compiled, so that the names of merged options are fit for keys.
    have hkeys : t.namesAreKeys (t.lineage id) = true := by
      cases hself : (t.node id).isCompiled with
      | true => rw [namesAreKeys_lineage ht, hself, Bool.true_or]
      | false =>
        have hother : (t.node other).isCompiled = true := by
          rwa [hself, Bool.not_eq_false] at hstatus
        rw [← h.keys, namesAreKeys_lineage ht, hother, Bool.true_or]
    obtain ⟨c, c', hid, hother, hakin⟩ := h.inEffect
    obtain ⟨r, hr⟩ := hc.resolve_left hstatus c hid
    have hr' : c'.regex (c'.isComplete false) = .ok r := by rw [hakin.regex, hakin.isComplete, hr]
    rw [decisionAt, decisionAt, ruleAt_of_regex hkeys hid hr,
      ruleAt_of_regex (h.keys.trans hkeys) hother hr']
    exact hakin.decide_on anyDomain request url asked

end Twins

/-- In a table to which the first one leads, the second rule answers every check like the first one.
The two may differ in faults only while one of them is compiled and the other one is not, and only
if the second one cannot be compiled. -/
structure DecideAlike (t : Table) (id other : NodeId) (s : Table) : Prop where
  answers : ∀ request url complete anyDomain d d',
    (Action.checkRule id request url complete anyDomain).outcome s = .ok d →
    (Action.checkRule other request url complete anyDomain).outcome s = .ok d' → d' = d
  outcomes : (s.node other).isCompiled = (s.node id).isCompiled ∨
      (Action.compileRule other).outcome t = .ok () →
    ∀ request url complete anyDomain,
      (Action.checkRule other request url complete anyDomain).outcome s =
        (Action.checkRule id request url complete anyDomain).outcome s

/-- Twins decide alike, also once nodes have been compiled and asked. -/
theorem Twins.decideAlike (h : t.Twins id other) (ht : t.Sound)
    (hopen : (t.node other).isCompiled = false) {ops : List Operation}
    (hops : ∀ op ∈ ops, op.asks t = true) : t.DecideAlike id other (t.afterAll ops) := by
  obtain ⟨hs, hadvanced⟩ := ahead_afterAll ht hops
  have htwins := h.alike hadvanced.toAlike
  refine ⟨fun request url complete anyDomain d d' hd hd' ↦ ?_,
    fun hc request url complete anyDomain ↦ ?_⟩
  · rw [(Action.checkRule_answers hs _ request url complete anyDomain).outcome_eq] at hd hd'
    exact htwins.decision_eq hd hd'
  · rw [(Action.checkRule_answers hs _ request url complete anyDomain).outcome_eq,
      (Action.checkRule_answers hs _ request url complete anyDomain).outcome_eq]
    refine htwins.decisionAt_eq hs.grounded (hc.imp_right fun hcompile ↦ ?_)
    exact (h.compiles (compiles_of_outcome ht hopen hcompile)).alike hadvanced.toAlike

end Table

end UrlRouting

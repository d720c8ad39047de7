import UrlRouting.Proofs.Table.Reachable
import UrlRouting.Proofs.Table.Unread

/-!
What compiling a rule fixes. Whatever is done afterwards, its patterns stay as they are, and so does
what its options are bound to; but the cells among them can be edited through other nodes that hold
them. That reaches three options only, which no decision depends on, so that a compiled rule comes
to the same decisions, with the options that it shows: `frozen_of_isCompiled`.
-/

namespace UrlRouting

open Http

variable {t s : Table} {edited : List Nat} {id : NodeId} {request : Request} {url : Text}
  {asked anyDomain : Bool}

/-- The options of a rule as it is tried: on its domain, or on any. -/
def Mapping.on (m : Mapping) (anyDomain : Bool) : Mapping :=
  if anyDomain then Entries.erase m "domain" else m

namespace Table

/-- The cells among the options in effect at a node. -/
def heldCells (t : Table) (id : NodeId) : List Nat :=
  (t.effectiveSlots id).filterMap fun entry ↦
    match entry.2 with
    | .shared cell => some cell
    | .fixed _ => none

theorem mem_heldCells {key : Value} {cell : Nat}
    (h : (key, Slot.shared cell) ∈ t.effectiveSlots id) : cell ∈ t.heldCells id :=
  List.mem_filterMap.mpr ⟨_, h, rfl⟩

theorem inEffect?_eq_bare (t : Table) (id : NodeId) :
    t.inEffect? id = (t.node id).bare.rule?.map fun r ↦
      { text := r.text
        target := r.target
        shown := r.shownWith (Text.lower r.method.plain)
        options := t.effectiveOptions id
        patterns := t.effectivePatterns id
        aliases := r.aliases
        config := t.configOf (t.node id).bare } := by
  rw [inEffect?, Node.rule?_bare, Option.map_map]
  rfl

namespace Follows

theorem effectiveSlots_eq (h : t.Follows edited s) (ht : t.Sound)
    (hc : (t.node id).isCompiled = true) : s.effectiveSlots id = t.effectiveSlots id := by
  obtain ⟨snapshot, hsnapshot⟩ := Option.isSome_iff_exists.mp hc
  rw [Table.effectiveSlots_eq h.sound.grounded, Table.effectiveSlots_eq ht.grounded,
    h.later.snapshot hc, hsnapshot]

theorem effectivePatterns_eq (h : t.Follows edited s) (ht : t.Sound)
    (hc : (t.node id).isCompiled = true) : s.effectivePatterns id = t.effectivePatterns id := by
  obtain ⟨snapshot, hsnapshot⟩ := Option.isSome_iff_exists.mp hc
  rw [Table.effectivePatterns_eq h.sound.grounded, Table.effectivePatterns_eq ht.grounded,
    h.later.snapshot hc, hsnapshot]

/-- The options of a compiled node are those that it was compiled with, as their cells read now. -/
theorem effectiveOptions_eq (h : t.Follows edited s) (ht : t.Sound)
    (hc : (t.node id).isCompiled = true) :
    s.effectiveOptions id = s.readAll (t.effectiveSlots id) := by
  rw [effectiveOptions, h.effectiveSlots_eq ht hc]

theorem sameApart (h : t.Follows edited s) (ht : t.Sound) (hc : (t.node id).isCompiled = true) :
    (t.effectiveOptions id).SameApart Options.inPlace (s.effectiveOptions id) := by
  rw [h.effectiveOptions_eq ht hc, effectiveOptions, Mapping.SameApart, readAll, readAll,
    List.forall₂_map_left_iff, List.forall₂_map_right_iff, List.forall₂_same]
  rintro ⟨key, slot⟩ hmem
  refine ⟨rfl, ?_⟩
  cases slot with
  | fixed value => exact .inl rfl
  | shared cell =>
    by_cases hkey : ∃ name ∈ Options.inPlace, key = .str name
    · exact .inr hkey
    · obtain ⟨snapshot, hsnapshot⟩ := Option.isSome_iff_exists.mp hc
      rw [Table.effectiveSlots_eq ht.grounded, hsnapshot] at hmem
      exact .inl (h.later.held hsnapshot hmem fun name hname he ↦ hkey ⟨name, hname, he⟩)

theorem effectiveOptions_eq_of_unheld (h : t.Follows edited s) (ht : t.Sound)
    (hc : (t.node id).isCompiled = true) (hcells : ∀ cell ∈ edited, cell ∉ t.heldCells id) :
    s.effectiveOptions id = t.effectiveOptions id := by
  rw [h.effectiveOptions_eq ht hc, effectiveOptions, readAll, readAll]
  refine List.map_congr_left ?_
  rintro ⟨key, slot⟩ hmem
  cases slot with
  | fixed value => rfl
  | shared cell =>
    obtain ⟨label, ht⟩ := ht
    have hlt := (ht.effectiveSlots id key cell hmem).1
    have hread := h.later.unedited hlt fun hcell ↦ hcells cell hcell (mem_heldCells hmem)
    exact congrArg (Prod.mk key) hread

theorem isRule_eq (h : t.Follows edited s) (hc : (t.node id).isCompiled = true) :
    s.isRule id = t.isRule id := by
  have hrule := congrArg (fun n ↦ (Node.rule? n).isSome) (h.later.bare hc)
  rw [isRule, isRule]
  simpa only [Node.rule?_bare, Option.isSome_map] using hrule

theorem inEffect?_eq (h : t.Follows edited s) (ht : t.Sound)
    (hc : (t.node id).isCompiled = true) :
    s.inEffect? id = (t.inEffect? id).map fun c ↦ c.withOptions (s.effectiveOptions id) := by
  have hconfig : s.configOf (t.node id).bare = t.configOf (t.node id).bare := by
    refine configOf_congr fun rid hrid ↦ h.later.config ?_
    obtain ⟨label, ht⟩ := ht
    exact (ht.fits id).router_lt hrid
  rw [inEffect?_eq_bare, inEffect?_eq_bare, h.later.bare hc, h.effectivePatterns_eq ht hc, hconfig,
    Option.map_map]
  rfl

theorem ruleAt_eq (h : t.Follows edited s) (ht : t.Sound) (hc : (t.node id).isCompiled = true) :
    s.ruleAt id = (t.ruleAt id).map fun c ↦ c.withOptions (s.effectiveOptions id) := by
  have hin := h.inEffect?_eq ht hc
  cases ht' : t.inEffect? id with
  | none =>
    rw [ht'] at hin
    rw [ruleAt, ruleAt, hin, ht']
    rfl
  | some c =>
    rw [ht'] at hin
    rw [ruleAt_of_compiled hc ht', ruleAt_of_compiled (h.later.isCompiled hc) hin]
    rfl

theorem capturesAt_eq (h : t.Follows edited s) (ht : t.Sound)
    (hc : (t.node id).isCompiled = true) :
    s.capturesAt id url asked = t.capturesAt id url asked := by
  rw [capturesAt, capturesAt, h.ruleAt_eq ht hc]
  cases hat : t.ruleAt id with
  | error e => rfl
  | ok c =>
    have hsame := h.sameApart ht hc
    rw [← options_of_ruleAt hat] at hsame
    change (c.withOptions _).capture ((c.withOptions _).trimmed [] url)
      ((c.withOptions _).isComplete asked) = c.capture (c.trimmed [] url) (c.isComplete asked)
    rw [CompiledRule.trimmed_withOptions hsame, CompiledRule.isComplete_withOptions hsame,
      CompiledRule.capture_withOptions hsame]

/-- A compiled rule comes to the same decisions, with the options that it shows. -/
theorem decisionAt_eq (h : t.Follows edited s) (ht : t.Sound)
    (hc : (t.node id).isCompiled = true) : s.decisionAt id request url asked anyDomain =
      (t.decisionAt id request url asked anyDomain).map
        (Option.map fun d ↦ { d with options := (s.effectiveOptions id).on anyDomain }) := by
  rw [decisionAt, decisionAt, h.ruleAt_eq ht hc]
  cases hat : t.ruleAt id with
  | error e => rfl
  | ok c =>
    have hsame : (c.on anyDomain).options.SameApart Options.inPlace
        ((s.effectiveOptions id).on anyDomain) := by
      have hall := h.sameApart ht hc
      rw [← options_of_ruleAt hat] at hall
      cases anyDomain with
      | false => exact hall
      | true => exact hall.erase _
    have hon : (c.withOptions (s.effectiveOptions id)).on anyDomain =
        (c.on anyDomain).withOptions ((s.effectiveOptions id).on anyDomain) := by
      cases anyDomain <;> rfl
    change ((c.withOptions (s.effectiveOptions id)).on anyDomain).decide request url asked = _
    rw [hon]
    exact CompiledRule.decide_withOptions hsame request url asked

end Follows

end Table

namespace Action

theorem outcome_effectiveOptions (h : t.Grounded) (hc : (t.node id).isCompiled = true) :
    (effectiveOptions id).outcome t = .ok (t.effectiveOptions id) :=
  outcome_effectiveOptions_of_keys (by rw [Table.namesAreKeys_lineage h, hc, Bool.true_or])

end Action

/-- Once a rule is compiled, its patterns, the way its path matches and its decisions are what they
are, whatever is done. The options that it shows, and that its decisions carry, are bound to the
slots of that moment: they can change in the values of three of them, by an edit of a cell that the
rule holds, and in no other way. -/
theorem frozen_of_isCompiled {ops : List Operation} (ht : t.Reachable)
    (hc : (t.node id).isCompiled = true) (hops : t.admits ops = true) :
    (t.afterAll ops).effectivePatterns id = t.effectivePatterns id ∧
    (∀ url asked, (Action.matchPath id url asked).outcome (t.afterAll ops) =
      (Action.matchPath id url asked).outcome t) ∧
    ∃ options, (Action.effectiveOptions id).outcome (t.afterAll ops) = .ok options ∧
      options = (t.afterAll ops).readAll (t.effectiveSlots id) ∧
      (t.effectiveOptions id).SameApart Options.inPlace options ∧
      (∀ request url asked anyDomain,
        (Action.checkRule id request url asked anyDomain).outcome (t.afterAll ops) =
          ((Action.checkRule id request url asked anyDomain).outcome t).map
            (Option.map fun d ↦ { d with options := options.on anyDomain })) ∧
      ((∀ cell ∈ t.cellsEdited ops, cell ∉ t.heldCells id) →
        (Action.effectiveOptions id).outcome t = .ok options ∧
        ∀ request url asked anyDomain,
          (Action.checkRule id request url asked anyDomain).outcome (t.afterAll ops) =
            (Action.checkRule id request url asked anyDomain).outcome t) := by
  have h := Table.follows_afterAll ops ht.sound hops
  have hsame : t.Follows [] t := ⟨ht.sound, .refl t⟩
  have hshown := Action.outcome_effectiveOptions h.sound.grounded (h.later.isCompiled hc)
  have hcheck : ∀ {edited s}, t.Follows edited s → ∀ request url asked anyDomain,
      (Action.checkRule id request url asked anyDomain).outcome s =
        ((Action.checkRule id request url asked anyDomain).outcome t).map
          (Option.map fun d ↦ { d with options := (s.effectiveOptions id).on anyDomain }) := by
    intro edited s hs request url asked anyDomain
    rw [(Action.checkRule_answers hs.sound _ _ _ _ _).outcome_eq,
      (Action.checkRule_answers ht.sound _ _ _ _ _).outcome_eq, hs.decisionAt_eq ht.sound hc]
  refine ⟨h.effectivePatterns_eq ht.sound hc, fun url asked ↦ ?_, _, hshown,
    h.effectiveOptions_eq ht.sound hc, h.sameApart ht.sound hc, hcheck h, fun hcells ↦ ?_⟩
  · rw [(Action.matchPath_answers h.sound _ _ _).outcome_eq,
      (Action.matchPath_answers ht.sound _ _ _).outcome_eq, h.capturesAt_eq ht.sound hc]
  · have heq := h.effectiveOptions_eq_of_unheld ht.sound hc hcells
    rw [heq]
    refine ⟨Action.outcome_effectiveOptions ht.sound.grounded hc,
      fun request url asked anyDomain ↦ ?_⟩
    rw [hcheck h, heq]
    exact (hcheck hsame request url asked anyDomain).symm

/-- A group with middleware, and a compiled rule in it that has inherited the middleware. -/
def Table.guardedRule : Table := empty.afterAll
  [.addRouter [], .groupOn 0 { rule := "a" } [], .call 1 "middleware" ⟨["auth"], []⟩,
    .declareRule 1 { rule := "b", target := "x" }, .compile 2]

theorem reachable_guardedRule : Table.guardedRule.Reachable :=
  ⟨_, by decide, rfl⟩

/-- Another rule of the group is given middleware of its own. -/
theorem frozen_guardedRule : ∃ ops : List Operation, ops.length = 3 ∧
    Table.guardedRule.Reachable ∧ (Table.guardedRule.node 2).isCompiled = true ∧
    Table.guardedRule.admits ops = true ∧
    (∀ cell ∈ Table.guardedRule.cellsEdited ops, cell ∉ Table.guardedRule.heldCells 2) ∧
    (Table.guardedRule.afterAll ops).effectivePatterns 2 =
      Table.guardedRule.effectivePatterns 2 ∧
    ∃ options, (Action.effectiveOptions 2).outcome (Table.guardedRule.afterAll ops) =
        .ok options ∧
      (Action.effectiveOptions 2).outcome Table.guardedRule = .ok options ∧
      ∀ request url asked anyDomain,
        (Action.checkRule 2 request url asked anyDomain).outcome
            (Table.guardedRule.afterAll ops) =
          (Action.checkRule 2 request url asked anyDomain).outcome Table.guardedRule := by
  have hc : (Table.guardedRule.node 2).isCompiled = true := by decide
  have hops : Table.guardedRule.admits [.declareRule 1 { rule := "c", target := "y" },
      .call 3 "middleware" ⟨["log"], []⟩, .call 3 "middleware" ⟨["trace"], []⟩] = true := by
    decide
  have hcells : ∀ cell ∈ Table.guardedRule.cellsEdited
      [.declareRule 1 { rule := "c", target := "y" }, .call 3 "middleware" ⟨["log"], []⟩,
        .call 3 "middleware" ⟨["trace"], []⟩], cell ∉ Table.guardedRule.heldCells 2 := by
    decide
  obtain ⟨hpatterns, -, options, hoptions, -, -, -, hunheld⟩ :=
    frozen_of_isCompiled reachable_guardedRule hc hops
  obtain ⟨hbefore, hcheck⟩ := hunheld hcells
  exact ⟨_, rfl, reachable_guardedRule, hc, hops, hcells, hpatterns, options, hoptions, hbefore,
    hcheck⟩

/-- Middleware that is added to the group afterwards shows at the compiled rule. -/
theorem not_forall_frozen : ¬∀ (t : Table) (ops : List Operation) (id : NodeId), t.Reachable →
    (t.node id).isCompiled = true → t.admits ops = true →
    (t.afterAll ops).effectiveOptions id = t.effectiveOptions id ∧
    (t.afterAll ops).effectivePatterns id = t.effectivePatterns id ∧
    ∀ request url asked anyDomain,
      (Action.checkRule id request url asked anyDomain).outcome (t.afterAll ops) =
        (Action.checkRule id request url asked anyDomain).outcome t := by
  intro h
  have hsame := (h Table.guardedRule [.call 1 "middleware" ⟨["log"], []⟩] 2 reachable_guardedRule
    (by decide) (by decide)).1
  have hcount := congrArg (fun options ↦
    (Options.items? (Mapping.named options "middleware")).map List.length) hsame
  exact absurd hcount (by decide)

end UrlRouting

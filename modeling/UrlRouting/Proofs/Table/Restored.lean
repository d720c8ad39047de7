import UrlRouting.Proofs.Table.Twins
import UrlRouting.Proofs.Template.Aliases

/-!
Rules that are restored from the state of another one. The state is the same, and once the new rule
is bound where the other one is, both decide alike, as long as what a state leaves out makes no
difference: `decideAlike_restored`.
-/

namespace UrlRouting

open Http

variable {t s u : Table} {id : NodeId} {r : Rule} {n : Node}

namespace Table

/-! ### Tables with further nodes -/

theorem configOf_of_routers (h : s.routers = t.routers) (n : Node) :
    s.configOf n = t.configOf n :=
  configOf_congr fun rid _ ↦ by
    have hrouter : s.router rid = t.router rid := by rw [router, router, h]
    rw [hrouter]

/-- What is in effect at the nodes of a table does not depend on nodes that are added. -/
theorem effective_of_extended (ht : t.Sound) (hs : s.Grounded) (hrouters : s.routers = t.routers)
    (hcells : s.cells = t.cells) (hnodes : ∀ id < t.nodes.length, s.node id = t.node id)
    (id : NodeId) (hid : id < t.nodes.length) :
    s.effectiveSlots id = t.effectiveSlots id ∧
      s.effectivePatterns id = t.effectivePatterns id ∧
      s.namesAreKeys (s.lineage id) = t.namesAreKeys (t.lineage id) := by
  have hg := ht.grounded
  obtain ⟨label, hlabel⟩ := ht
  induction id using hg.induction with
  | step id ih =>
    have hmerged : s.mergedNames (t.node id) = t.mergedNames (t.node id) := by
      rw [mergedNames, mergedNames, configOf_of_routers hrouters]
    rw [effectiveSlots_eq hs, effectiveSlots_eq hg, effectivePatterns_eq hs,
      effectivePatterns_eq hg, namesAreKeys_lineage hs, namesAreKeys_lineage hg, hnodes id hid,
      hmerged]
    cases (t.node id).snapshot with
    | some kept =>
      cases hp : (t.node id).parent with
      | none => exact ⟨rfl, rfl, rfl⟩
      | some p =>
        obtain ⟨-, -, hkeys⟩ := ih p hp ((hlabel.fits id).parent_lt hp)
        refine ⟨rfl, rfl, ?_⟩
        dsimp only
        rw [hkeys]
    | none =>
      cases hp : (t.node id).parent with
      | none => exact ⟨rfl, rfl, rfl⟩
      | some p =>
        obtain ⟨hslots, hpatterns, hkeys⟩ := ih p hp ((hlabel.fits id).parent_lt hp)
        dsimp only
        rw [hslots, hpatterns, hkeys, combineSlots_congr hcells]
        exact ⟨rfl, rfl, rfl⟩

/-! ### Restoring -/

/-- The state of a rule. -/
def stateAt (n : Node) (r : Rule) : RuleState :=
  ⟨r.name, r.text, r.target, r.method, n.options, n.patterns⟩

/-- The node of a rule that has been restored from the state of another one and bound where that one
is. -/
def restored (n : Node) (r : Rule) : Node where
  router := n.router
  parent := n.parent
  domain := .null
  options := n.options
  patterns := n.patterns
  merged := []
  snapshot := none
  body := .rule { r with aliases := Template.builtIn, expressions := [] }

theorem run_stateOf (hr : (t.node id).rule? = some r) :
    (Action.stateOf id).run t = .ok (stateAt (t.node id) r) t := by
  have hnode : (Action.node id).run t = .ok (t.node id) t := rfl
  rw [Action.stateOf, EStateM.run_bind, hnode]
  dsimp only
  rw [EStateM.run_bind, Action.run_rule hr]
  rfl

/-- A table with a rule that has been restored from another one. -/
def withRestored (t : Table) (n : Node) (r : Rule) : Table :=
  { t with nodes := t.nodes ++ [restored n r] }

theorem run_bind_of_open {router : Option RouterId} {parent : Option NodeId}
    (hr : (t.node id).rule? = some r) (hopen : (t.node id).isCompiled = false) :
    (Action.bind id router parent).run t =
      .ok () (t.setNode id { t.node id with router := router, parent := parent }) := by
  have hrule : (discard (Action.rule id)).run t = .ok () t := by
    rw [Action.run_discard, Action.run_rule hr]
  have hensure : (Action.ensureOpen id).run t = .ok () t := by
    rw [Action.ensureOpen, EStateM.run_bind]
    change EStateM.run (if (t.node id).isCompiled then _ else _) t = _
    rw [hopen]
    rfl
  rw [Action.bind, EStateM.run_bind, hrule]
  dsimp only
  rw [EStateM.run_bind, hensure]
  rfl

theorem run_restored (t : Table) (n : Node) (r : Rule) : ∃ s,
    (Action.restore (stateAt n r)).run t = .ok t.nodes.length s ∧
    (Action.bind t.nodes.length n.router n.parent).run s = .ok () (t.withRestored n r) := by
  let unbound : Node := { restored n r with router := none, parent := none }
  let s : Table := { t with nodes := t.nodes ++ [unbound] }
  have hnode : s.node t.nodes.length = unbound := node_append_length t unbound
  have hrule : (s.node t.nodes.length).rule? = (restored n r).rule? := by
    rw [hnode]
    rfl
  have hopen : (s.node t.nodes.length).isCompiled = false := by
    rw [hnode]
    rfl
  refine ⟨s, rfl, (run_bind_of_open hrule hopen).trans ?_⟩
  rw [hnode, setNode, withRestored]
  simp [s, unbound, restored]

theorem afterAll_copy_bind (hr : (t.node id).rule? = some r) :
    t.afterAll [.copy id, .bind t.nodes.length (t.node id).router (t.node id).parent] =
      t.withRestored (t.node id) r := by
  obtain ⟨s, hrestore, hbind⟩ := run_restored t (t.node id) r
  have hcopied : (Operation.copy id).after t = s := by
    refine Operation.after_of_run (x := .node t.nodes.length) ?_
    rw [Operation.run, EStateM.run_bind, run_stateOf hr]
    dsimp only
    rw [EStateM.run_bind, hrestore]
    rfl
  rw [afterAll, List.foldl_cons, hcopied]
  refine Operation.after_of_run (x := .node t.nodes.length) ?_
  rw [Operation.run, EStateM.run_bind, hbind]
  rfl

theorem sound_withRestored (ht : t.Sound) (id : NodeId) (r : Rule) :
    (t.withRestored (t.node id) r).Sound := by
  obtain ⟨label, h⟩ := ht
  have hn := h.fits id
  refine ⟨label, h.addNode ?_⟩
  exact
    { router_lt := hn.router_lt
      parent_lt := hn.parent_lt
      parent_group := hn.parent_group
      group_parent_lt := fun hnone ↦ by cases hnone
      member_lt := fun hm ↦ by cases hm
      own := hn.own
      snapshot := fun hs ↦ by cases hs
      keeps := by
        intro r' hr' complete folds x hx
        cases hr'
        cases hx }

/-! ### What a state leaves out -/

/-- The options that are in effect at an open node. -/
def openSlots (t : Table) (n : Node) : Entries Slot :=
  match n.parent with
  | none => n.options
  | some p => t.combineSlots (t.effectiveSlots p) n.options (t.mergedNames n)

def openPatterns (t : Table) (n : Node) : Mapping :=
  match n.parent with
  | none => n.patterns
  | some p => (t.effectivePatterns p).overlay n.patterns

theorem effectiveSlots_of_open (h : t.Grounded) (ho : (t.node id).snapshot = none) :
    t.effectiveSlots id = t.openSlots (t.node id) := by
  rw [effectiveSlots_eq h, openSlots, ho]
  cases (t.node id).parent <;> rfl

theorem effectivePatterns_of_open (h : t.Grounded) (ho : (t.node id).snapshot = none) :
    t.effectivePatterns id = t.openPatterns (t.node id) := by
  rw [effectivePatterns_eq h, openPatterns, ho]
  cases (t.node id).parent <;> rfl

/-- What the state of a rule leaves out makes no difference to the rule. -/
structure Restorable (t : Table) (id : NodeId) (r : Rule) : Prop where
  /-- If the rule is compiled, it keeps what would be in effect at it if it were open. -/
  current : ∀ kept, (t.node id).snapshot = some kept →
    kept = ⟨t.openSlots (t.node id), t.openPatterns (t.node id)⟩
  keys : ∀ n ∈ t.lineage id, ∀ name ∈ t.mergedNames n, name.isKey = true
  /-- An option that only the rule itself merges is not bound both by it and above it. -/
  merged : ∀ name ∈ (t.node id).merged,
    (∃ x, name = .str x) ∧ name ∈ (t.configOf (t.node id)).merged ∨
      (t.node id).options.get? name = none ∨
      ∀ p, (t.node id).parent = some p → (t.effectiveOptions p).get? name = none
  /-- No pattern in effect goes by a name that only the rule knows. -/
  aliases : Template.AgreeOn (t.effectivePatterns id) r.aliases Template.builtIn

theorem Restorable.effectiveSlots (h : t.Restorable id r) (ht : t.Grounded) :
    t.effectiveSlots id = t.openSlots (t.node id) := by
  cases hs : (t.node id).snapshot with
  | none => exact effectiveSlots_of_open ht hs
  | some kept => rw [effectiveSlots_eq ht, hs, h.current kept hs]

theorem Restorable.effectivePatterns (h : t.Restorable id r) (ht : t.Grounded) :
    t.effectivePatterns id = t.openPatterns (t.node id) := by
  cases hs : (t.node id).snapshot with
  | none => exact effectivePatterns_of_open ht hs
  | some kept => rw [effectivePatterns_eq ht, hs, h.current kept hs]

theorem mem_lineage_parent (ht : t.Grounded) {p : NodeId} (hp : (t.node id).parent = some p)
    (hn : n ∈ t.lineage p) : n ∈ t.lineage id := by
  rw [lineage_eq ht, hp]
  exact List.mem_cons_of_mem _ hn

section withRestored

theorem node_withRestored_of_lt (hid : id < t.nodes.length) (n : Node) (r : Rule) :
    (t.withRestored n r).node id = t.node id := node_append_of_lt hid _

theorem node_withRestored (t : Table) (n : Node) (r : Rule) :
    (t.withRestored n r).node t.nodes.length = restored n r := node_append_length t _

theorem readAll_withRestored (t : Table) (n : Node) (r : Rule) (m : Entries Slot) :
    (t.withRestored n r).readAll m = t.readAll m := readAll_of_cells rfl m

theorem mergedNames_withRestored (t : Table) (n : Node) (r : Rule) :
    (t.withRestored n r).mergedNames (restored n r) = (t.configOf n).merged := List.append_nil _

variable (ht : t.Sound) (h : t.Restorable id r) (hid : id < t.nodes.length)

include ht

theorem effective_withRestored {other : NodeId} (hother : other < t.nodes.length) (id : NodeId)
    (r : Rule) :
    (t.withRestored (t.node id) r).effectiveSlots other = t.effectiveSlots other ∧
      (t.withRestored (t.node id) r).effectivePatterns other = t.effectivePatterns other ∧
      (t.withRestored (t.node id) r).namesAreKeys ((t.withRestored (t.node id) r).lineage other) =
        t.namesAreKeys (t.lineage other) :=
  effective_of_extended ht (sound_withRestored ht id r).grounded rfl rfl
    (fun _ hlt ↦ node_withRestored_of_lt hlt _ r) other hother

theorem parent_lt {p : NodeId} (hp : (t.node id).parent = some p) : p < t.nodes.length := by
  obtain ⟨label, hlabel⟩ := ht
  exact (hlabel.fits id).parent_lt hp

include h

/-- What the rule merges on its own makes no difference. -/
theorem readAll_openSlots : t.readAll ((t.withRestored (t.node id) r).openSlots
    (restored (t.node id) r)) = t.readAll (t.openSlots (t.node id)) := by
  have hparent : (restored (t.node id) r).parent = (t.node id).parent := rfl
  rw [openSlots, openSlots, hparent]
  cases hp : (t.node id).parent with
  | none => rfl
  | some p =>
    obtain ⟨hslots, -, -⟩ := effective_withRestored ht (parent_lt ht hp) id r
    dsimp only
    rw [hslots, ← readAll_withRestored t (t.node id) r, readAll_combineSlots, readAll_withRestored,
      readAll_withRestored, readAll_combineSlots, mergedNames_withRestored, mergedNames,
      Options.combine_append]
    · rfl
    intro name hname
    rcases h.merged name hname with hlisted | hnone | hnone
    · exact .inl hlisted
    · exact .inr (.inl (by rw [get?_readAll, hnone, Option.map_none]))
    · exact .inr (.inr (hnone p hp))

include hid

theorem effectiveOptions_withRestored :
    (t.withRestored (t.node id) r).effectiveOptions t.nodes.length =
      (t.withRestored (t.node id) r).effectiveOptions id := by
  have hu := (sound_withRestored ht id r).grounded
  have hsnapshot : ((t.withRestored (t.node id) r).node t.nodes.length).snapshot = none := by
    rw [node_withRestored]
    rfl
  obtain ⟨hslots, -, -⟩ := effective_withRestored ht hid id r
  rw [effectiveOptions, effectiveOptions, effectiveSlots_of_open hu hsnapshot, node_withRestored,
    readAll_withRestored, readAll_withRestored, hslots, h.effectiveSlots ht.grounded]
  exact readAll_openSlots ht h

theorem effectivePatterns_withRestored :
    (t.withRestored (t.node id) r).effectivePatterns t.nodes.length =
      (t.withRestored (t.node id) r).effectivePatterns id := by
  have hu := (sound_withRestored ht id r).grounded
  have hsnapshot : ((t.withRestored (t.node id) r).node t.nodes.length).snapshot = none := by
    rw [node_withRestored]
    rfl
  have hparent : (restored (t.node id) r).parent = (t.node id).parent := rfl
  obtain ⟨-, hpatterns, -⟩ := effective_withRestored ht hid id r
  rw [effectivePatterns_of_open hu hsnapshot, node_withRestored, hpatterns,
    h.effectivePatterns ht.grounded, openPatterns, openPatterns, hparent]
  cases hp : (t.node id).parent with
  | none => rfl
  | some p =>
    obtain ⟨-, hpatterns, -⟩ := effective_withRestored ht (parent_lt ht hp) id r
    dsimp only
    rw [hpatterns]
    rfl

theorem keys_withRestored :
    (t.withRestored (t.node id) r).namesAreKeys
        ((t.withRestored (t.node id) r).lineage t.nodes.length) = true ∧
      (t.withRestored (t.node id) r).namesAreKeys ((t.withRestored (t.node id) r).lineage id) =
        true := by
  obtain ⟨-, -, hkeys⟩ := effective_withRestored ht hid id r
  refine ⟨?_, hkeys.trans (namesAreKeys_of_forall h.keys)⟩
  have hu := (sound_withRestored ht id r).grounded
  have hparent : (restored (t.node id) r).parent = (t.node id).parent := rfl
  rw [namesAreKeys_lineage hu, node_withRestored, hparent]
  cases hp : (t.node id).parent with
  | none => rfl
  | some p =>
    obtain ⟨-, -, hkeys⟩ := effective_withRestored ht (parent_lt ht hp) id r
    have hself : (t.configOf (t.node id)).merged.all Value.isKey = true := by
      have hmem : t.node id ∈ t.lineage id := by
        rw [lineage_eq ht.grounded]
        exact List.mem_cons_self
      exact List.all_eq_true.mpr fun name hname ↦
        h.keys _ hmem name (List.mem_append_left _ hname)
    dsimp only
    rw [hkeys, namesAreKeys_of_forall fun n hn ↦ h.keys n (mem_lineage_parent ht.grounded hp hn),
      mergedNames_withRestored, hself]
    rfl

end withRestored

/-- An expression is the same with the built-in names if they are all that is used. -/
theorem akin_of_agreeOn {c : CompiledRule} (shown : Text)
    (h : Template.AgreeOn c.patterns c.aliases Template.builtIn) :
    c.Akin { c with shown := shown, aliases := Template.builtIn } := by
  refine ⟨⟨shown, Template.builtIn, rfl⟩, fun complete ↦ ?_⟩
  have hexpression :
      ({ c with shown := shown, aliases := Template.builtIn } : CompiledRule).expression complete =
        c.expression complete := by
    have hmap := congrArg (Except.map ('^' :: ·))
      (h.map_expression c.setting c.path c.tokens complete c.dropsEnd)
    change (c.setting.withMaps c.patterns Template.builtIn c.tokens).map _ =
      (c.setting.withMaps c.patterns c.aliases c.tokens).map _
    cases hb : c.setting.withMaps c.patterns Template.builtIn c.tokens <;>
      cases ha : c.setting.withMaps c.patterns c.aliases c.tokens <;>
      rw [hb, ha] at hmap <;> exact hmap
  rw [CompiledRule.regex, CompiledRule.regex, hexpression]
  rfl

/-- The same is in effect at the new rule as at the old one. -/
theorem Restorable.twins (h : t.Restorable id r) (ht : t.Sound) (hr : (t.node id).rule? = some r) :
    (t.withRestored (t.node id) r).Twins id t.nodes.length := by
  have hid := lt_of_rule? hr
  obtain ⟨hkeys, hkeys'⟩ := keys_withRestored ht h hid
  refine ⟨?_, hkeys.trans hkeys'.symm⟩
  have hpatterns : (t.withRestored (t.node id) r).effectivePatterns id = t.effectivePatterns id :=
    (effective_withRestored ht hid id r).2.1
  have hold : (t.withRestored (t.node id) r).inEffect? id = some
      { text := r.text
        target := r.target
        shown := r.shownWith (Text.lower r.method.plain)
        options := (t.withRestored (t.node id) r).effectiveOptions id
        patterns := (t.withRestored (t.node id) r).effectivePatterns id
        aliases := r.aliases
        config := t.configOf (t.node id) } := by
    rw [inEffect?, node_withRestored_of_lt hid, hr]
    rfl
  refine ⟨_, _, hold, ?_, akin_of_agreeOn (r.shownWith (Text.lower r.method.plain)) ?_⟩
  · rw [inEffect?, node_withRestored, effectiveOptions_withRestored ht h hid,
      effectivePatterns_withRestored ht h hid]
    rfl
  · rw [hpatterns]
    exact h.aliases

end Table

/-- A rule of a group, with an option that it would merge if it were bound twice, and a name for
patterns that no pattern goes by. -/
def Table.storedRule : Table := empty.afterAll
  [.addRouter [], .groupOn 0 { rule := "shop" } [], .call 1 "middleware" ⟨["auth"], []⟩,
    .declareRule 1 { rule := "item/<id>", target := "x", patterns := [("id", "int")] },
    .call 2 "middleware" ⟨["log"], []⟩, .call 2 "merge_options" ⟨["tags"], []⟩,
    .call 2 "regex" ⟨[], [("slug", "[a-z-]+")]⟩]

theorem reachable_storedRule : Table.storedRule.Reachable := ⟨_, by decide, rfl⟩

theorem restorable_storedRule {r : Rule} (hr : (Table.storedRule.node 2).rule? = some r) :
    Table.storedRule.Restorable 2 r := by
  have hopen : (Table.storedRule.node 2).isCompiled = false := by decide
  refine ⟨fun kept hkept ↦ ?_, by decide, fun name hname ↦ .inr (.inl ?_), ?_⟩
  · rw [Table.isCompiled_of_snapshot hkept] at hopen
    cases hopen
  · have hfree : ∀ name ∈ (Table.storedRule.node 2).merged,
        ((Table.storedRule.node 2).options.get? name).isNone = true := by decide
    exact Option.isNone_iff_eq_none.mp (hfree name hname)
  · intro name pattern hpattern
    have hpatterns : Table.storedRule.effectivePatterns 2 = ([("id", "int")] : Mapping) := rfl
    have hmem := Entries.mem_of_get?_str_eq_some hpattern
    rw [hpatterns, List.mem_singleton, Prod.mk.injEq] at hmem
    obtain rfl : pattern = "int".toList := Value.str.inj hmem.2
    have hkinds : (Table.storedRule.node 2).rule?.map (·.aliases.named? "int") =
        some (Template.builtIn.named? "int") := rfl
    rw [hr] at hkinds
    exact (Option.some.inj hkinds).symm

/-- The rule together with one that has been restored from it. -/
def Table.restoredRule : Table := storedRule.afterAll [.copy 2, .bind 3 (some 0) (some 1)]

/-- A rule whose pattern goes by a name that only the rule knows. -/
def Table.slugRule : Table := empty.afterAll
  [.addRouter [], .routeOn 0 { rule := "a/<id>", target := "x", patterns := [("id", "slug")] },
    .call 1 "regex" ⟨[], [("slug", "[a-z-]+")]⟩]

theorem reachable_slugRule : Table.slugRule.Reachable := ⟨_, by decide, rfl⟩

end UrlRouting

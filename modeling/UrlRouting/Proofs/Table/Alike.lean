import UrlRouting.Proofs.Table.Change

/-!
Tables that show the same. Compiling a node and keeping an expression change a table, but nothing
that is in effect at any node: `advanced_setNode`. What a rule is compiled to, or would be, is
therefore the same before and after (`Alike.inEffect?_eq`), and so is all that nodes were declared
and configured with (`Advanced`).
-/

namespace UrlRouting

def Rule.bare (r : Rule) : Rule := { r with expressions := [] }

/-- The node as it was declared and configured, without what compiling adds to it. -/
def Node.bare (n : Node) : Node :=
  { n with
    snapshot := none
    body :=
      match n.body with
      | .rule rule => .rule rule.bare
      | .group group => .group group }

namespace Node

theorem rule?_bare (n : Node) : n.bare.rule? = n.rule?.map Rule.bare := by
  rw [rule?, rule?, bare]
  cases n.body <;> rfl

theorem group?_bare (n : Node) : n.bare.group? = n.group? := by
  rw [group?, group?, bare]
  cases n.body <;> rfl

theorem members_bare (n : Node) : n.bare.members = n.members := by
  rw [members, members, bare]
  cases n.body <;> rfl

end Node

namespace Table

/-- A rule with all that is in effect at it: as it was compiled, or as it would be. -/
def inEffect? (t : Table) (id : NodeId) : Option CompiledRule :=
  (t.node id).rule?.map fun r ↦
    { text := r.text
      target := r.target
      shown := r.shownWith (Text.lower r.method.plain)
      options := t.effectiveOptions id
      patterns := t.effectivePatterns id
      aliases := r.aliases
      config := t.configOf (t.node id) }

/-- The second table shows what the first one does: nodes may have been compiled and expressions
kept, but the same is in effect everywhere. -/
structure Alike (t s : Table) : Prop where
  length : s.nodes.length = t.nodes.length
  cells : s.cells = t.cells
  router : ∀ id, s.router id = { t.router id with compiled := (s.router id).compiled }
  owner : ∀ id, (s.node id).router = (t.node id).router
  group : ∀ id, (s.node id).group? = (t.node id).group?
  rule : ∀ id, (s.node id).rule?.map Rule.bare = (t.node id).rule?.map Rule.bare
  slots : ∀ id, s.effectiveSlots id = t.effectiveSlots id
  patterns : ∀ id, s.effectivePatterns id = t.effectivePatterns id
  compiled : ∀ id, (t.node id).isCompiled = true → (s.node id).isCompiled = true
  keys : ∀ id, s.namesAreKeys (s.lineage id) = t.namesAreKeys (t.lineage id)

variable {t s u : Table} {id : NodeId} {n : Node}

namespace Alike

theorem refl (t : Table) : t.Alike t where
  length := rfl
  cells := rfl
  router _ := rfl
  owner _ := rfl
  group _ := rfl
  rule _ := rfl
  slots _ := rfl
  patterns _ := rfl
  compiled _ h := h
  keys _ := rfl

theorem trans (h : t.Alike s) (h' : s.Alike u) : t.Alike u where
  length := h'.length.trans h.length
  cells := h'.cells.trans h.cells
  router id := by rw [h'.router, h.router]
  owner id := (h'.owner id).trans (h.owner id)
  group id := (h'.group id).trans (h.group id)
  rule id := (h'.rule id).trans (h.rule id)
  slots id := (h'.slots id).trans (h.slots id)
  patterns id := (h'.patterns id).trans (h.patterns id)
  compiled id hc := h'.compiled id (h.compiled id hc)
  keys id := (h'.keys id).trans (h.keys id)

theorem config (h : t.Alike s) (id : RouterId) : (s.router id).config = (t.router id).config := by
  rw [h.router]

theorem configOf_node (h : t.Alike s) (id : NodeId) :
    s.configOf (s.node id) = t.configOf (t.node id) := by
  rw [configOf_congr fun id _ ↦ h.config id, configOf, configOf, h.owner]

theorem effectiveOptions (h : t.Alike s) (id : NodeId) :
    s.effectiveOptions id = t.effectiveOptions id := by
  rw [Table.effectiveOptions, Table.effectiveOptions, h.slots, readAll_of_cells h.cells]

theorem inEffect?_eq (h : t.Alike s) (id : NodeId) : s.inEffect? id = t.inEffect? id := by
  have hrule := h.rule id
  rw [inEffect?, inEffect?, h.effectiveOptions, h.patterns, h.configOf_node]
  rcases hs : (s.node id).rule? with _ | r <;> rcases ht : (t.node id).rule? with _ | r'
  · rfl
  · simp [hs, ht] at hrule
  · simp [hs, ht] at hrule
  · obtain ⟨name, text, target, method, aliases, expressions⟩ := r
    obtain ⟨name', text', target', method', aliases', expressions'⟩ := r'
    simp only [hs, ht, Option.map_some, Option.some.injEq, Rule.bare, Rule.mk.injEq] at hrule
    obtain ⟨rfl, rfl, rfl, rfl, rfl, -⟩ := hrule
    rfl

theorem isRule_eq (h : t.Alike s) (id : NodeId) : s.isRule id = t.isRule id := by
  rw [isRule, isRule]
  simpa only [Option.isSome_map] using congrArg Option.isSome (h.rule id)

theorem subtreeOf_eq (h : t.Alike s) (depth : Nat) (id : NodeId) :
    s.subtreeOf depth id = t.subtreeOf depth id := by
  induction depth generalizing id with
  | zero => rfl
  | succ depth ih =>
    have hgroup := h.group id
    rw [subtreeOf, subtreeOf]
    rcases hs : (s.node id).body with r | g <;> rcases ht : (t.node id).body with r' | g'
    · rfl
    · simp [Node.group?, hs, ht] at hgroup
    · simp [Node.group?, hs, ht] at hgroup
    · simp only [Node.group?, hs, ht, Option.some.injEq] at hgroup
      subst hgroup
      simp only [funext ih]

theorem subtree_eq (h : t.Alike s) (id : NodeId) : s.subtree id = t.subtree id := by
  rw [subtree, subtree, h.length, h.subtreeOf_eq]

theorem rulesIn_eq (h : t.Alike s) (id : NodeId) : s.rulesIn id = t.rulesIn id := by
  rw [rulesIn, rulesIn, h.subtree_eq, funext h.isRule_eq]

theorem routes_eq (h : t.Alike s) (id : RouterId) : s.routes id = t.routes id := by
  rw [routes, routes, h.rulesIn_eq, h.router]

end Alike

theorem combineSlots_congr (h : s.cells = t.cells) (base top : Entries Slot) (names : List Value) :
    s.combineSlots base top names = t.combineSlots base top names := by
  simp only [combineSlots, read_of_cells h]

theorem inEffect?_of_compiled (h : t.Grounded) {r : Rule} (hr : (t.node id).rule? = some r)
    (hc : (t.node id).isCompiled = true) :
    t.inEffect? id = some (t.compiledRule (t.node id) r) := by
  obtain ⟨snapshot, hs⟩ := Option.isSome_iff_exists.mp hc
  rw [inEffect?, hr, effectiveOptions, effectiveSlots_eq h, effectivePatterns_eq h, compiledRule,
    hs]
  rfl

/-- The table has the second one ahead of it: nodes are compiled on the way there and expressions
are kept, but nothing is declared or configured, and compiled nodes stay what they are. -/
structure Advanced (t s : Table) : Prop extends t.Alike s where
  bare : ∀ id, (s.node id).bare = (t.node id).bare
  snapshot : ∀ id, (t.node id).isCompiled = true → (s.node id).snapshot = (t.node id).snapshot
  routers : s.routers.length = t.routers.length
  closed : ∀ id, (t.router id).compiled = true → (s.router id).compiled = true

namespace Advanced

theorem refl (t : Table) : t.Advanced t where
  toAlike := .refl t
  bare _ := rfl
  snapshot _ _ := rfl
  routers := rfl
  closed _ hc := hc

theorem trans (h : t.Advanced s) (h' : s.Advanced u) : t.Advanced u where
  toAlike := h.toAlike.trans h'.toAlike
  bare id := (h'.bare id).trans (h.bare id)
  snapshot id hc := (h'.snapshot id (h.compiled id hc)).trans (h.snapshot id hc)
  routers := h'.routers.trans h.routers
  closed id hc := h'.closed id (h.closed id hc)

theorem router_eq (h : t.Advanced s) {id : RouterId} (hc : (t.router id).compiled = true) :
    s.router id = t.router id := by
  rw [h.router, h.closed id hc, ← hc]

end Advanced

/-- The node declares what node `id` does, and keeps what that one keeps or, if that one is open,
what is in effect at it. -/
structure Shows (t : Table) (id : NodeId) (n : Node) : Prop where
  bare : n.bare = (t.node id).bare
  snapshot : n.snapshot = (t.node id).snapshot ∨
    n.snapshot = some ⟨t.effectiveSlots id, t.effectivePatterns id⟩ ∧
      (t.node id).isCompiled = false ∧ t.namesAreKeys (t.lineage id) = true

namespace Shows

theorem refl (t : Table) (id : NodeId) : t.Shows id (t.node id) := ⟨rfl, .inl rfl⟩

theorem parent (h : t.Shows id n) : n.parent = (t.node id).parent := (congrArg Node.parent h.bare :)

theorem router (h : t.Shows id n) : n.router = (t.node id).router := (congrArg Node.router h.bare :)

theorem options (h : t.Shows id n) : n.options = (t.node id).options :=
  (congrArg Node.options h.bare :)

theorem patterns (h : t.Shows id n) : n.patterns = (t.node id).patterns :=
  (congrArg Node.patterns h.bare :)

theorem merged (h : t.Shows id n) : n.merged = (t.node id).merged := (congrArg Node.merged h.bare :)

end Shows

section Shows

theorem effectiveSlots_of_shows (ht : t.Grounded) (hs : s.Grounded)
    (h : ∀ id, t.Shows id (s.node id)) (hcells : s.cells = t.cells)
    (hmerged : ∀ id, s.mergedNames (s.node id) = t.mergedNames (t.node id)) (id : NodeId) :
    s.effectiveSlots id = t.effectiveSlots id := by
  induction id using ht.induction with
  | step id ih =>
    rcases (h id).snapshot with hsn | ⟨hsn, -⟩
    · rw [effectiveSlots_eq hs, effectiveSlots_eq ht, hsn, (h id).parent, (h id).options, hmerged]
      cases (t.node id).snapshot with
      | some snapshot => rfl
      | none =>
        cases hp : (t.node id).parent with
        | none => rfl
        | some p =>
          simp only [ih p hp]
          exact combineSlots_congr hcells _ _ _
    · rw [effectiveSlots_eq hs, hsn]

theorem effectivePatterns_of_shows (ht : t.Grounded) (hs : s.Grounded)
    (h : ∀ id, t.Shows id (s.node id)) (id : NodeId) :
    s.effectivePatterns id = t.effectivePatterns id := by
  induction id using ht.induction with
  | step id ih =>
    rcases (h id).snapshot with hsn | ⟨hsn, -⟩
    · rw [effectivePatterns_eq hs, effectivePatterns_eq ht, hsn, (h id).parent, (h id).patterns]
      cases (t.node id).snapshot with
      | some snapshot => rfl
      | none =>
        cases hp : (t.node id).parent with
        | none => rfl
        | some p => simp only [ih p hp]
    · rw [effectivePatterns_eq hs, hsn]

theorem isCompiled_of_shows (h : t.Shows id n) (hc : (t.node id).isCompiled = true) :
    n.isCompiled = true := by
  rcases h.snapshot with hsn | ⟨hsn, -⟩
  · rwa [Node.isCompiled, hsn]
  · rw [Node.isCompiled, hsn]
    rfl

theorem namesAreKeys_of_shows (ht : t.Grounded) (hs : s.Grounded)
    (h : ∀ id, t.Shows id (s.node id))
    (hmerged : ∀ id, s.mergedNames (s.node id) = t.mergedNames (t.node id)) (id : NodeId) :
    s.namesAreKeys (s.lineage id) = t.namesAreKeys (t.lineage id) := by
  induction id using ht.induction with
  | step id ih =>
    rw [namesAreKeys_lineage hs]
    rcases (h id).snapshot with hsn | ⟨hsn, hk⟩
    · rw [namesAreKeys_lineage ht, Node.isCompiled, Node.isCompiled, hsn, (h id).parent, hmerged]
      cases hp : (t.node id).parent with
      | none => rfl
      | some p => simp only [ih p hp]
    · rw [hk.2, Node.isCompiled, hsn]
      rfl

end Shows

/-- Nothing that is in effect changes where a node is replaced by one that differs in the
expressions that it keeps and in being compiled only. -/
theorem advanced_setNode (ht : t.Grounded) (hs : (t.setNode id n).Grounded) (hn : t.Shows id n) :
    t.Advanced (t.setNode id n) := by
  have hshows : ∀ other, t.Shows other ((t.setNode id n).node other) :=
    forall_node_setNode (motive := fun other ↦ t.Shows other) hn fun other ↦ .refl t other
  have hnames : ∀ other, (t.setNode id n).mergedNames ((t.setNode id n).node other) =
      t.mergedNames (t.node other) := by
    intro other
    rw [mergedNames, mergedNames, (hshows other).merged, configOf, configOf, (hshows other).router]
    rfl
  have hbare : ∀ {α : Type} (f : Node → α) (g : α → α), (∀ m : Node, f m.bare = g (f m)) →
      ∀ other, g (f ((t.setNode id n).node other)) = g (f (t.node other)) := by
    intro α f g hf other
    rw [← hf, ← hf, (hshows other).bare]
  exact
    { length := length_setNode t id n
      cells := rfl
      router := fun _ ↦ rfl
      owner := fun other ↦ (hshows other).router
      group := hbare Node.group? (fun group ↦ group) Node.group?_bare
      rule := hbare Node.rule? (Option.map Rule.bare ·) Node.rule?_bare
      slots := effectiveSlots_of_shows ht hs hshows rfl hnames
      patterns := effectivePatterns_of_shows ht hs hshows
      compiled := fun other ↦ isCompiled_of_shows (hshows other)
      keys := namesAreKeys_of_shows ht hs hshows hnames
      bare := fun other ↦ (hshows other).bare
      snapshot := by
        intro other hc
        rcases (hshows other).snapshot with hsnapshot | ⟨-, ho, -⟩
        · exact hsnapshot
        · rw [ho] at hc
          cases hc
      routers := rfl
      closed := fun _ hc ↦ hc }

/-- Nothing that is in effect depends on the log, or on which routers are closed. -/
theorem advanced_of_nodes (hnodes : s.nodes = t.nodes) (hcells : s.cells = t.cells)
    (hrouters : s.routers.length = t.routers.length)
    (hrouter : ∀ id, s.router id = { t.router id with compiled := (s.router id).compiled })
    (hclosed : ∀ id, (t.router id).compiled = true → (s.router id).compiled = true) :
    t.Advanced s := by
  have hnode : s.node = t.node := by
    funext id
    rw [node, node, hnodes]
  have hconfig : s.configOf = t.configOf := by
    funext n
    refine configOf_congr fun id _ ↦ ?_
    rw [hrouter]
  have hread := read_of_cells hcells
  have hmerged : s.mergedNames = t.mergedNames := by
    funext n
    rw [mergedNames, mergedNames, hconfig]
  have hlineage : s.lineage = t.lineage := by
    funext id
    have h : ∀ count id, s.lineageOf count id = t.lineageOf count id := by
      intro count
      induction count with
      | zero => exact fun _ ↦ rfl
      | succ count ih =>
        intro id
        rw [lineageOf, lineageOf, hnode]
        simp only [ih]
    rw [lineage, lineage, h, hnodes]
  have hinherit : s.inheritOptions = t.inheritOptions := by
    funext line
    induction line with
    | nil => rfl
    | cons n ancestors ih =>
      simp only [inheritOptions, ih, hmerged, combineSlots, hread]
  have hkeys : s.namesAreKeys = t.namesAreKeys := by
    funext line
    induction line with
    | nil => rfl
    | cons n ancestors ih => rw [namesAreKeys, namesAreKeys, ih, hmerged]
  exact
    { length := congrArg _ hnodes
      cells := hcells
      router := hrouter
      owner := fun _ ↦ by rw [hnode]
      group := fun _ ↦ by rw [hnode]
      rule := fun _ ↦ by rw [hnode]
      slots := fun _ ↦ by rw [effectiveSlots, effectiveSlots, hlineage, hinherit]
      patterns := fun _ ↦ by rw [effectivePatterns, effectivePatterns, hlineage]
      compiled := fun _ hc ↦ hnode ▸ hc
      keys := fun _ ↦ by rw [hlineage, hkeys]
      bare := fun _ ↦ by rw [hnode]
      snapshot := fun _ _ ↦ by rw [hnode]
      routers := hrouters
      closed := hclosed }

end Table

end UrlRouting

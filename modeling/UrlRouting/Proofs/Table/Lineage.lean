import UrlRouting.Table.Inheritance

/-!
Lines of ancestors. Where parents are groups that were declared before their members, a line ends
long before it is as long as the table, so that what is in effect at a node is determined by the
node and what is in effect at its parent: `effectiveSlots_eq` and `effectivePatterns_eq`.
-/

namespace UrlRouting.Table

/-- Parents are groups of the table, and a group was declared after its parent. -/
structure Grounded (t : Table) : Prop where
  parent_lt : ∀ {id p : NodeId}, (t.node id).parent = some p → p < t.nodes.length
  parent_group : ∀ {id p : NodeId}, (t.node id).parent = some p → (t.node p).rule? = none
  group_parent_lt : ∀ {id p : NodeId}, (t.node id).rule? = none →
    (t.node id).parent = some p → p < id

variable {t : Table} {id p : NodeId}

theorem node_of_length_le (h : t.nodes.length ≤ id) : t.node id = default := by
  simp [node, List.getElem?_eq_none h]

/-- A bound on the number of ancestors of a node. -/
def height (t : Table) (id : NodeId) : Nat :=
  if (t.node id).rule?.isSome then t.nodes.length else id

theorem height_parent (h : t.Grounded) (hp : (t.node id).parent = some p) : t.height p = p := by
  simp [height, h.parent_group hp]

theorem height_parent_lt (h : t.Grounded) (hp : (t.node id).parent = some p) :
    t.height p < t.height id := by
  rw [height_parent h hp, height]
  split
  · exact h.parent_lt hp
  next hr => exact h.group_parent_lt (by simpa using hr) hp

theorem lineageOf_congr (h : t.Grounded) {k l : Nat} (hk : t.height id < k) (hl : t.height id < l) :
    t.lineageOf k id = t.lineageOf l id := by
  induction k generalizing l id with
  | zero => omega
  | succ k ih =>
    cases l with
    | zero => omega
    | succ l =>
      rw [lineageOf, lineageOf]
      cases hp : (t.node id).parent with
      | none => rfl
      | some p =>
        have hlt := height_parent_lt h hp
        exact congrArg _ (ih (by omega) (by omega))

theorem height_le_of_parent (hp : (t.node id).parent = some p) :
    t.height id ≤ t.nodes.length := by
  rw [height]
  split
  · exact Nat.le_refl _
  · rcases Nat.le_total id t.nodes.length with hid | hid
    · exact hid
    · rw [node_of_length_le hid] at hp
      cases hp

theorem lineage_eq (h : t.Grounded) (id : NodeId) :
    t.lineage id = t.node id :: ((t.node id).parent.map t.lineage).getD [] := by
  rw [lineage, lineageOf]
  cases hp : (t.node id).parent with
  | none => rfl
  | some p =>
    have hlt := height_parent_lt h hp
    have hle := height_le_of_parent hp
    simp only [Option.map_some, Option.getD_some, lineage]
    exact congrArg _ (lineageOf_congr h (by omega) (by omega))

theorem lineage_ne_nil (t : Table) (id : NodeId) : t.lineage id ≠ [] := by
  simp [lineage, lineageOf]

/-- The options in effect at a node are the kept ones or else its own ones, laid over those in
effect at its parent. -/
theorem effectiveSlots_eq (h : t.Grounded) (id : NodeId) :
    t.effectiveSlots id =
      match (t.node id).snapshot, (t.node id).parent with
      | some snapshot, _ => snapshot.options
      | none, none => (t.node id).options
      | none, some p =>
        t.combineSlots (t.effectiveSlots p) (t.node id).options (t.mergedNames (t.node id)) := by
  rw [effectiveSlots, lineage_eq h, inheritOptions]
  cases (t.node id).snapshot with
  | some snapshot => rfl
  | none =>
    cases (t.node id).parent with
    | none => rfl
    | some p => simp [effectiveSlots, List.isEmpty_iff, lineage_ne_nil]

theorem effectivePatterns_eq (h : t.Grounded) (id : NodeId) :
    t.effectivePatterns id =
      match (t.node id).snapshot, (t.node id).parent with
      | some snapshot, _ => snapshot.patterns
      | none, none => (t.node id).patterns
      | none, some p => (t.effectivePatterns p).overlay (t.node id).patterns := by
  rw [effectivePatterns, lineage_eq h, inheritPatterns]
  cases (t.node id).snapshot with
  | some snapshot => rfl
  | none =>
    cases (t.node id).parent with
    | none => rfl
    | some p => simp [effectivePatterns, List.isEmpty_iff, lineage_ne_nil]

/-- The names of merged options are fit for keys at a node if it is compiled or has no parent, or
else if its own ones and those of its ancestors are. -/
theorem namesAreKeys_lineage (h : t.Grounded) (id : NodeId) :
    t.namesAreKeys (t.lineage id) =
      ((t.node id).isCompiled ||
        match (t.node id).parent with
        | none => true
        | some p =>
          (t.mergedNames (t.node id)).all Value.isKey && t.namesAreKeys (t.lineage p)) := by
  rw [lineage_eq h, namesAreKeys]
  cases (t.node id).parent with
  | none => simp
  | some p =>
    have hne : (t.lineage p).isEmpty = false := by simp [lineage_ne_nil]
    simp [hne]

/-- Nodes can be gone through from ancestors to members. -/
theorem Grounded.induction (h : t.Grounded) {motive : NodeId → Prop}
    (step : ∀ id, (∀ p, (t.node id).parent = some p → motive p) → motive id) (id : NodeId) :
    motive id := by
  induction hh : t.height id using Nat.strongRecOn generalizing id with
  | ind height ih =>
    subst hh
    exact step id fun p hp ↦ ih _ (height_parent_lt h hp) p rfl

end UrlRouting.Table

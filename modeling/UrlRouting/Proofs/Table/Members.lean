import UrlRouting.Table.Inheritance

/-!
What lies inside a node. Where members are declared after their groups, a walk down from a node ends
before it is as deep as the table is long, so that it comes to everything inside (`mem_subtree`). A
node is sealed if all of that is compiled; nothing can be declared inside it any more.
-/

namespace UrlRouting

def Node.members (n : Node) : List NodeId :=
  match n.body with
  | .rule _ => []
  | .group group => group.members

namespace Table

variable {t s : Table} {root id m : NodeId}

/-- The node is the given one, or a member of one that lies inside it. -/
inductive Within (t : Table) (root : NodeId) : NodeId → Prop where
  | self : Within t root root
  | member {id m : NodeId} (h : Within t root id) (hm : m ∈ (t.node id).members) :
    Within t root m

/-- Members are nodes of the table that come after their group. -/
def Nested (t : Table) : Prop :=
  ∀ {id m : NodeId}, m ∈ (t.node id).members → id < m ∧ m < t.nodes.length

/-- Everything that lies inside the node is compiled. -/
def Sealed (t : Table) (root : NodeId) : Prop :=
  ∀ id, t.Within root id → (t.node id).isCompiled = true

theorem members_of_length_le (h : t.nodes.length ≤ id) : (t.node id).members = [] := by
  rw [node, List.getElem?_eq_none h]
  rfl

theorem subtreeOf_succ (t : Table) (depth : Nat) (id : NodeId) : t.subtreeOf (depth + 1) id =
    id :: (t.node id).members.flatMap (t.subtreeOf depth) := by
  rw [subtreeOf, Node.members]
  cases (t.node id).body <;> rfl

theorem mem_subtreeOf_self (t : Table) (depth : Nat) (id : NodeId) :
    id ∈ t.subtreeOf depth id := by
  cases depth with
  | zero => exact List.mem_singleton.mpr rfl
  | succ depth =>
    rw [subtreeOf_succ]
    exact List.mem_cons_self

/-- Any depth that reaches past the end of the table will do. -/
theorem subtreeOf_congr (h : t.Nested) {k l : Nat} (hk : t.nodes.length ≤ id + k)
    (hl : t.nodes.length ≤ id + l) : t.subtreeOf k id = t.subtreeOf l id := by
  -- Members lie further on in the table, so that one level less reaches past its end from there.
  induction k generalizing l id with
  | zero =>
    cases l with
    | zero => rfl
    | succ l =>
      rw [Nat.add_zero] at hk
      rw [subtreeOf_succ, members_of_length_le hk, List.flatMap_nil, subtreeOf]
  | succ k ih =>
    cases l with
    | zero =>
      rw [Nat.add_zero] at hl
      rw [subtreeOf_succ, members_of_length_le hl, List.flatMap_nil, subtreeOf]
    | succ l =>
      rw [subtreeOf_succ, subtreeOf_succ, List.flatMap_def, List.flatMap_def]
      refine congrArg (fun lists ↦ id :: List.flatten lists) (List.map_congr_left fun m hm ↦ ?_)
      have hlt := Nat.succ_le_of_lt (h hm).1
      exact ih (by omega) (by omega)

theorem Within.head (hm : m ∈ (t.node root).members) (h : t.Within m id) : t.Within root id := by
  induction h with
  | self => exact .member .self hm
  | member _ hm' ih => exact .member ih hm'

theorem Within.trans (h : t.Within root m) (h' : t.Within m id) : t.Within root id := by
  induction h' with
  | self => exact h
  | member _ hm ih => exact .member ih hm

theorem within_of_mem_subtreeOf {depth : Nat} (h : id ∈ t.subtreeOf depth root) :
    t.Within root id := by
  induction depth generalizing root with
  | zero =>
    obtain rfl := List.mem_singleton.mp h
    exact .self
  | succ depth ih =>
    rw [subtreeOf_succ] at h
    rcases List.mem_cons.mp h with rfl | h
    · exact .self
    · obtain ⟨m, hm, h⟩ := List.mem_flatMap.mp h
      exact .head hm (ih h)

theorem mem_subtreeOf_of_member (h : t.Nested) {depth : Nat}
    (hdepth : t.nodes.length ≤ root + depth) (hid : id ∈ t.subtreeOf depth root)
    (hm : m ∈ (t.node id).members) :
    m ∈ t.subtreeOf depth root := by
  induction depth generalizing root with
  | zero =>
    obtain rfl := List.mem_singleton.mp hid
    rw [Nat.add_zero] at hdepth
    rw [members_of_length_le hdepth] at hm
    cases hm
  | succ depth ih =>
    rw [subtreeOf_succ] at hid ⊢
    refine List.mem_cons_of_mem _ (List.mem_flatMap.mpr ?_)
    rcases List.mem_cons.mp hid with rfl | hid
    · exact ⟨m, hm, t.mem_subtreeOf_self depth m⟩
    · obtain ⟨inner, hinner, hid⟩ := List.mem_flatMap.mp hid
      have hlt := Nat.succ_le_of_lt (h hinner).1
      exact ⟨inner, hinner, ih (by omega) hid⟩

theorem mem_subtree (h : t.Nested) : id ∈ t.subtree root ↔ t.Within root id := by
  refine ⟨within_of_mem_subtreeOf, fun hid ↦ ?_⟩
  induction hid with
  | self => exact t.mem_subtreeOf_self _ root
  | member _ hm ih => exact mem_subtreeOf_of_member h (Nat.le_add_left _ _) ih hm

theorem lt_of_mem_subtree (h : t.Nested) (hroot : root < t.nodes.length)
    (hid : id ∈ t.subtree root) : id < t.nodes.length := by
  cases (mem_subtree h).mp hid with
  | self => exact hroot
  | member _ hm => exact (h hm).2

theorem subtreeOf_eq_of_members (h : ∀ id, t.Within root id →
    (s.node id).members = (t.node id).members) (depth : Nat) :
    s.subtreeOf depth root = t.subtreeOf depth root := by
  induction depth generalizing root with
  | zero => rfl
  | succ depth ih =>
    rw [subtreeOf_succ, subtreeOf_succ, h root .self, List.flatMap_def, List.flatMap_def]
    refine congrArg (fun lists ↦ root :: List.flatten lists) (List.map_congr_left fun m hm ↦ ?_)
    exact ih fun id hid ↦ h id (hid.head hm)

/-! ### Sealed nodes -/

/-- Compiled nodes stay compiled and keep their members, so that what is sealed stays sealed. -/
theorem Sealed.mono (h : t.Sealed root) (hs : ∀ id, (t.node id).isCompiled = true →
    (s.node id).isCompiled = true ∧ (s.node id).members = (t.node id).members) :
    s.Sealed root := by
  have hwithin : ∀ id, s.Within root id → t.Within root id := by
    intro id hid
    induction hid with
    | self => exact .self
    | member _ hm ih => exact .member ih ((hs _ (h _ ih)).2 ▸ hm)
  exact fun id hid ↦ (hs id (h id (hwithin id hid))).1

theorem Sealed.subtree_eq (h : t.Sealed root) (ht : t.Nested)
    (hlen : t.nodes.length ≤ s.nodes.length) (hs : ∀ id, (t.node id).isCompiled = true →
      (s.node id).members = (t.node id).members) : s.subtree root = t.subtree root := by
  rw [subtree, subtreeOf_eq_of_members fun id hid ↦ hs id (h id hid)]
  exact subtreeOf_congr ht (by omega) (by omega)

end Table

end UrlRouting

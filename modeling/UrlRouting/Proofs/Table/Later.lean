import UrlRouting.Proofs.Table.Alike

/-!
What stays as it is while a table is worked on (`Later`). A compiled node stays what it is, and so
does a closed router. A cell keeps its value unless it is edited, and where a compiled node holds
it, it can be edited only as one of the options that directives edit in place.
-/

namespace UrlRouting

/-- The options that directives edit in place. -/
def Options.inPlace : List Text := ["var_rule", "model", "middleware"]

/-- Whether a node is a rule, and its rule string or the path of the group. -/
def Node.form (n : Node) : Bool × Text :=
  match n.body with
  | .rule r => (true, r.text)
  | .group g => (false, g.path)

namespace Table

/-- The second table comes later than the first. Of the cells there were, only some are edited on
the way. -/
structure Later (edited : List Nat) (t s : Table) : Prop where
  nodes : t.nodes.length ≤ s.nodes.length
  routers : t.routers.length ≤ s.routers.length
  cells : t.cells.length ≤ s.cells.length
  form : ∀ {id}, id < t.nodes.length → (s.node id).form = (t.node id).form
  bare : ∀ {id}, (t.node id).isCompiled = true → (s.node id).bare = (t.node id).bare
  snapshot : ∀ {id}, (t.node id).isCompiled = true → (s.node id).snapshot = (t.node id).snapshot
  config : ∀ {id}, id < t.routers.length → (s.router id).config = (t.router id).config
  closed : ∀ {id}, (t.router id).compiled = true → s.router id = t.router id
  unedited : ∀ {cell}, cell < t.cells.length → cell ∉ edited →
    s.read (.shared cell) = t.read (.shared cell)
  held : ∀ {id snapshot key cell}, (t.node id).snapshot = some snapshot →
    (key, Slot.shared cell) ∈ snapshot.options → (∀ name ∈ Options.inPlace, key ≠ .str name) →
    s.read (.shared cell) = t.read (.shared cell)

variable {edited edited' : List Nat} {t s u : Table} {label : Nat → Option Text} {id : NodeId}
  {n : Node}

theorem form_eq_of_bare {m : Node} (h : n.bare = m.bare) : n.form = m.form := by
  have hform : ∀ n : Node, n.bare.form = n.form := by
    intro n
    rw [Node.form, Node.form, Node.bare]
    cases n.body <;> rfl
  rw [← hform n, h, hform m]

theorem isCompiled_of_snapshot {snapshot : Snapshot} (h : n.snapshot = some snapshot) :
    n.isCompiled = true := by
  rw [Node.isCompiled, h, Option.isSome_some]

namespace Later

theorem refl (t : Table) : Later edited t t where
  nodes := Nat.le_refl _
  routers := Nat.le_refl _
  cells := Nat.le_refl _
  form _ := rfl
  bare _ := rfl
  snapshot _ := rfl
  config _ := rfl
  closed _ := rfl
  unedited _ _ := rfl
  held _ _ _ := rfl

theorem isCompiled (h : Later edited t s) (hc : (t.node id).isCompiled = true) :
    (s.node id).isCompiled = true := by
  rwa [Node.isCompiled, h.snapshot hc]

theorem trans (h : Later edited t s) (h' : Later edited s u) : Later edited t u where
  nodes := Nat.le_trans h.nodes h'.nodes
  routers := Nat.le_trans h.routers h'.routers
  cells := Nat.le_trans h.cells h'.cells
  form hid := (h'.form (Nat.lt_of_lt_of_le hid h.nodes)).trans (h.form hid)
  bare hc := (h'.bare (h.isCompiled hc)).trans (h.bare hc)
  snapshot hc := (h'.snapshot (h.isCompiled hc)).trans (h.snapshot hc)
  config hid := (h'.config (Nat.lt_of_lt_of_le hid h.routers)).trans (h.config hid)
  closed hc := (h'.closed ((h.closed hc).symm ▸ hc)).trans (h.closed hc)
  unedited hcell hmem :=
    (h'.unedited (Nat.lt_of_lt_of_le hcell h.cells) hmem).trans (h.unedited hcell hmem)
  held hs hmem hkey := by
    have hc := isCompiled_of_snapshot hs
    exact (h'.held ((h.snapshot hc).trans hs) hmem hkey).trans (h.held hs hmem hkey)

theorem mono (h : Later edited t s) (hsub : edited ⊆ edited') : Later edited' t s :=
  { h with unedited := fun hcell hmem ↦ h.unedited hcell fun hmem' ↦ hmem (hsub hmem') }

/-! ### Changes -/

theorem of_advanced (h : t.Advanced s) : Later edited t s := by
  have hread : ∀ slot, s.read slot = t.read slot := by
    rintro (value | cell)
    · rfl
    · simp only [read, h.cells]
  exact
    { nodes := Nat.le_of_eq h.length.symm
      routers := Nat.le_of_eq h.routers.symm
      cells := Nat.le_of_eq (congrArg List.length h.cells).symm
      form := fun _ ↦ form_eq_of_bare (h.bare _)
      bare := fun _ ↦ h.bare _
      snapshot := h.snapshot _
      config := fun _ ↦ h.config _
      closed := h.router_eq
      unedited := fun _ _ ↦ hread _
      held := fun _ _ _ ↦ hread _ }

/-- An open node may be replaced by one with the same rule string. -/
theorem setNode (ho : (t.node id).isCompiled = false) (hform : n.form = (t.node id).form) :
    Later edited t (t.setNode id n) := by
  have hnode : ∀ {other}, (t.node other).isCompiled = true →
      (t.setNode id n).node other = t.node other := by
    intro other hc
    refine node_setNode_of_ne ?_ n
    rintro rfl
    rw [ho] at hc
    cases hc
  exact
    { nodes := Nat.le_of_eq (length_setNode t id n).symm
      routers := Nat.le_refl _
      cells := Nat.le_refl _
      form := fun _ ↦ forall_node_setNode
        (motive := fun other n ↦ n.form = (t.node other).form) hform (fun _ ↦ rfl) _
      bare := fun hc ↦ congrArg Node.bare (hnode hc)
      snapshot := fun hc ↦ congrArg Node.snapshot (hnode hc)
      config := fun _ ↦ rfl
      closed := fun _ ↦ rfl
      unedited := fun _ _ ↦ rfl
      held := fun _ _ _ ↦ rfl }

theorem addNode (t : Table) (n : Node) : Later edited t { t with nodes := t.nodes ++ [n] } where
  nodes := by simp
  routers := Nat.le_refl _
  cells := Nat.le_refl _
  form hid := congrArg Node.form (node_append_of_lt hid n)
  bare hc := congrArg Node.bare (node_append_of_lt (lt_of_isCompiled hc) n)
  snapshot hc := congrArg Node.snapshot (node_append_of_lt (lt_of_isCompiled hc) n)
  config _ := rfl
  closed _ := rfl
  unedited _ _ := rfl
  held _ _ _ := rfl

theorem addRouter (t : Table) (r : Router) :
    Later edited t { t with routers := t.routers ++ [r] } where
  nodes := Nat.le_refl _
  routers := by simp
  cells := Nat.le_refl _
  form _ := rfl
  bare _ := rfl
  snapshot _ := rfl
  config hid := congrArg Router.config (router_append_of_lt hid r)
  closed hc := router_append_of_lt (lt_of_closed hc) r
  unedited _ _ := rfl
  held _ _ _ := rfl

/-- The rules of an open router that are valid on every domain may change. -/
theorem setRouter {id : RouterId} {r : Router} (ho : (t.router id).compiled = false)
    (hconfig : r.config = (t.router id).config) : Later edited t (t.setRouter id r) where
  nodes := Nat.le_refl _
  routers := by simp [Table.setRouter]
  cells := Nat.le_refl _
  form _ := rfl
  bare _ := rfl
  snapshot _ := rfl
  config _ := forall_router_setRouter
    (motive := fun other r ↦ r.config = (t.router other).config) hconfig (fun _ ↦ rfl) _
  closed := forall_router_setRouter
    (motive := fun other r ↦ (t.router other).compiled = true → r = t.router other)
    (fun hc ↦ by rw [ho] at hc; cases hc) (fun _ _ ↦ rfl) _
  unedited _ _ := rfl
  held _ _ _ := rfl

theorem addCells (hnodes : s.nodes = t.nodes) (hrouters : s.routers = t.routers)
    (hcells : t.cells.length ≤ s.cells.length)
    (hread : ∀ cell, cell < t.cells.length → s.read (.shared cell) = t.read (.shared cell))
    (h : t.SoundFor label) : Later edited t s := by
  have hnode : s.node = t.node := by
    funext id
    rw [node, node, hnodes]
  have hrouter : s.router = t.router := by
    funext id
    rw [router, router, hrouters]
  exact
    { nodes := Nat.le_of_eq (congrArg List.length hnodes).symm
      routers := Nat.le_of_eq (congrArg List.length hrouters).symm
      cells := hcells
      form := fun _ ↦ by rw [hnode]
      bare := fun _ ↦ by rw [hnode]
      snapshot := fun _ ↦ by rw [hnode]
      config := fun _ ↦ by rw [hrouter]
      closed := fun _ ↦ by rw [hrouter]
      unedited := fun hcell _ ↦ hread _ hcell
      held := fun hs hmem _ ↦ hread _ ((h.fits _).snapshot hs _ _ hmem).1 }

/-- A cell may be edited that is new or one of those that may, and holds an option that directives
edit in place. -/
theorem setCell (h : Later edited t s) (hs : s.SoundFor label) {cell : Nat} {name : Text}
    (hcell : cell < t.cells.length → cell ∈ edited) (hlabel : label cell = some name)
    (hname : name ∈ Options.inPlace) (value : Value) :
    Later edited t { s with cells := s.cells.set cell value } := by
  have hread : ∀ {other}, cell ≠ other →
      read { s with cells := s.cells.set cell value } (.shared other) =
        s.read (.shared other) := by
    intro other hne
    simp [read, hne]
  exact
    { nodes := h.nodes
      routers := h.routers
      cells := by simpa using h.cells
      form := h.form
      bare := h.bare
      snapshot := h.snapshot
      config := h.config
      closed := h.closed
      unedited := by
        intro other hother hmem
        refine (hread ?_).trans (h.unedited hother hmem)
        rintro rfl
        exact hmem (hcell hother)
      held := by
        -- The label of a cell that a compiled node holds is the name of its option.
        intro id snapshot key other hsnapshot hmem hkey
        have hheld := (h.snapshot (isCompiled_of_snapshot hsnapshot)).trans hsnapshot
        have hother := ((hs.fits id).snapshot hheld _ _ hmem).2
        refine (hread ?_).trans (h.held hsnapshot hmem hkey)
        rintro rfl
        exact hkey name hname (Value.text?_eq_some_iff.mp (hother.symm.trans hlabel)) }

end Later

/-- A sound table that comes later than another one. -/
structure Follows (start : Table) (edited : List Nat) (t : Table) : Prop where
  sound : t.Sound
  later : Later edited start t

end Table

end UrlRouting

import UrlRouting.Proofs.Table.Later
import UrlRouting.Proofs.Table.Routing

/-!
Actions that keep the invariant, and leave alone what is not to change (`Table.Follows`). An action
is followed from table to table (`Action.Ends`), through its end or up to its fault;
`Action.Maintains` says of it that a property of tables outlives it. While a node is open,
everything about it may change but the expressions that it keeps, which are none.
-/

namespace UrlRouting

variable {α β : Type} {start t s u : Table} {edited : List Nat} {label label' : Nat → Option Text}
  {id : NodeId} {n : Node}

namespace Action

variable {a : Action α} {f : α → Action β} {P P' : Table → Prop}

/-- Started from a table, an action ends with an answer and a table as wanted, or fails and leaves
a table as wanted. -/
def Ends (a : Action α) (t : Table) (Q : α → Table → Prop) (E : Table → Prop) : Prop :=
  match a.run t with
  | .ok x s => Q x s
  | .error _ s => E s

theorem ends_bind {Q : β → Table → Prop} {E : Table → Prop} :
    (a >>= f).Ends t Q E ↔ a.Ends t (fun x s ↦ (f x).Ends s Q E) E := by
  rw [Ends, Ends, EStateM.run_bind]
  cases a.run t <;> rfl

theorem Ends.bind {Q : β → Table → Prop} {E : Table → Prop} {R : α → Table → Prop}
    (h : a.Ends t R E) (hf : ∀ x s, R x s → (f x).Ends s Q E) : (a >>= f).Ends t Q E := by
  rw [ends_bind]
  rw [Ends] at h ⊢
  cases hr : a.run t with
  | ok x s =>
    rw [hr] at h
    exact hf x s h
  | error e s =>
    rw [hr] at h
    exact h

theorem Ends.get_bind {g : Table → Action β} {Q : β → Table → Prop} {E : Table → Prop}
    (h : (g t).Ends t Q E) : (get >>= g).Ends t Q E := ends_bind.mpr h

theorem Ends.node_bind {g : Node → Action β} {Q : β → Table → Prop} {E : Table → Prop}
    (h : (g (t.node id)).Ends t Q E) : (Action.node id >>= g).Ends t Q E := ends_bind.mpr h

theorem Ends.router_bind {id : RouterId} {g : Router → Action β} {Q : β → Table → Prop}
    {E : Table → Prop} (h : (g (t.router id)).Ends t Q E) :
    (Action.router id >>= g).Ends t Q E := ends_bind.mpr h

theorem ends_discard {Q : Unit → Table → Prop} {E : Table → Prop} :
    (discard a).Ends t Q E ↔ a.Ends t (fun _ s ↦ Q () s) E := by
  rw [Ends, Ends, run_discard]
  cases a.run t <;> rfl

theorem Ends.mono {Q R : α → Table → Prop} {E F : Table → Prop} (h : a.Ends t Q E)
    (hq : ∀ x s, Q x s → R x s) (he : ∀ s, E s → F s) : a.Ends t R F := by
  rw [Ends] at h ⊢
  cases hr : a.run t with
  | ok x s =>
    rw [hr] at h
    exact hq x s h
  | error e s =>
    rw [hr] at h
    exact he s h

theorem Ends.mono_error {Q : α → Table → Prop} {E F : Table → Prop} (h : a.Ends t Q E)
    (he : ∀ s, E s → F s) : a.Ends t Q F := h.mono (fun _ _ hq ↦ hq) he

/-- An action goes on from where one that does not fail has ended. -/
theorem Ends.bind_of_safe {R : α → Table → Prop} {Q : β → Table → Prop} {E : Table → Prop}
    (h : a.Ends t R fun _ ↦ False) (hf : ∀ x s, R x s → (f x).Ends s Q E) : (a >>= f).Ends t Q E :=
  (h.mono_error fun _ he ↦ he.elim).bind hf

theorem ends_ofExcept {Q : α → Table → Prop} {E : Table → Prop} {x : Except Fault α}
    (hq : ∀ y, Q y t) (he : E t) : (ofExcept x).Ends t Q E := by
  cases x with
  | ok y => exact hq y
  | error e => exact he

/-- What holds before an action holds after it, whether it ends or fails. -/
def Maintains (P : Table → Prop) (a : Action α) : Prop := ∀ t, P t → a.Ends t (fun _ ↦ P) P

namespace Maintains

theorem pure (x : α) : Maintains P (Pure.pure x) := fun _ h ↦ h

theorem throw (e : Fault) : Maintains P (MonadExcept.throw e : Action α) := fun _ h ↦ h

theorem ofExcept (x : Except Fault α) : Maintains P (Action.ofExcept x) :=
  fun _ h ↦ ends_ofExcept (fun _ ↦ h) h

theorem bind (h : Maintains P a) (hf : ∀ x, Maintains P (f x)) : Maintains P (a >>= f) :=
  fun t ht ↦ (h t ht).bind fun x s hs ↦ hf x s hs

theorem get_bind {f : Table → Action β} (h : ∀ t, Maintains P (f t)) : Maintains P (get >>= f) :=
  fun t ht ↦ ends_bind.mpr (h t t ht)

theorem node_bind {f : Node → Action β} (h : ∀ n, Maintains P (f n)) :
    Maintains P (Action.node id >>= f) := fun t ht ↦ ends_bind.mpr (h (t.node id) t ht)

theorem rule (id : NodeId) : Maintains P (Action.rule id) := by
  refine node_bind fun n ↦ ?_
  cases n.rule? with
  | none => exact throw _
  | some r => exact pure r

theorem group (id : NodeId) : Maintains P (Action.group id) := by
  refine node_bind fun n ↦ ?_
  cases n.group? with
  | none => exact throw _
  | some g => exact pure g

theorem effectiveSlots (id : NodeId) : Maintains P (Action.effectiveSlots id) := by
  refine get_bind fun t ↦ ?_
  split
  · exact pure _
  · exact throw _

theorem effectiveOptions (id : NodeId) : Maintains P (Action.effectiveOptions id) :=
  get_bind fun _ ↦ (effectiveSlots id).bind fun _ ↦ pure _

theorem compiledRule (id : NodeId) : Maintains P (Action.compiledRule id) :=
  get_bind fun _ ↦ node_bind fun _ ↦ (rule id).bind fun _ ↦ pure _

theorem ignoring (h : Maintains P a) : Maintains P (discard a) := h.bind fun _ ↦ pure ()

end Maintains

/-- The property of tables outlives every action that answers what a table determines. -/
def Steady (P : Table → Prop) : Prop :=
  ∀ {α : Type} {a : Action α} {x : Table → Except Fault α}, (∀ t, t.Sound → a.Answers t (x t)) →
    Maintains P a

theorem steady_of_advanced (hsound : ∀ t, P t → t.Sound)
    (h : ∀ t s, P t → s.Sound → t.Advanced s → P s) : Steady P := by
  intro α a x hanswers t ht
  have ha := hanswers t (hsound t ht)
  rw [Ends]
  cases hr : a.run t with
  | ok y s =>
    have hs := (ha.run_ok hr).2
    exact h t s ht hs.sound hs.advanced
  | error e s =>
    obtain ⟨-, hs, hadvanced⟩ := ha.run_error hr
    exact h t s ht hs hadvanced

theorem steady_follows : Steady (start.Follows edited) :=
  steady_of_advanced (fun _ ht ↦ ht.sound) fun _ _ ht hs hadvanced ↦
    ⟨hs, ht.later.trans (.of_advanced hadvanced)⟩

end Action

/-! ### Open nodes -/

namespace Table

/-- A table that follows another one, with its labels, in which a node is open. -/
structure OpenFor (start : Table) (edited : List Nat) (label : Nat → Option Text) (id : NodeId)
    (t : Table) : Prop where
  sound : t.SoundFor label
  later : Later edited start t
  isOpen : (t.node id).isCompiled = false

def Open (start : Table) (edited : List Nat) (id : NodeId) (t : Table) : Prop :=
  ∃ label, start.OpenFor edited label id t

theorem Open.follows (h : start.Open edited id t) : start.Follows edited t := by
  obtain ⟨label, h⟩ := h
  exact ⟨⟨label, h.sound⟩, h.later⟩

theorem SoundFor.setOpen (h : t.SoundFor label) (ho : (t.node id).isCompiled = false)
    (hn : n.rule?.map Rule.expressions = (t.node id).rule?.map Rule.expressions)
    (hsnapshot : n.snapshot = none) (hrouter : ∀ {r}, n.router = some r → r < t.routers.length)
    (hlt : ∀ {p}, n.parent = some p → p < t.nodes.length)
    (hgroup : ∀ {p}, n.parent = some p → (t.node p).rule? = none)
    (hid : ∀ {p}, n.rule? = none → n.parent = some p → p < id)
    (hmembers : ∀ {m}, m ∈ n.members → id < m ∧ m < t.nodes.length)
    (hown : Labelled label t.cells.length n.options) : (t.setNode id n).SoundFor label := by
  refine h.setNode ?_ (fun hnone ↦ ?_) fun hc ↦ ?_
  · exact
      { router_lt := hrouter
        parent_lt := hlt
        parent_group := hgroup
        group_parent_lt := hid
        member_lt := hmembers
        own := hown
        snapshot := by simp [hsnapshot]
        keeps := by
          intro r hr complete folds x hx
          rw [hr] at hn
          cases hr' : (t.node id).rule? with
          | none => simp [hr'] at hn
          | some r' =>
            rw [hr', Option.map_some, Option.map_some, Option.some.injEq] at hn
            have hc := ((h.fits id).keeps r' hr' complete folds x (hn ▸ hx)).1
            rw [ho] at hc
            cases hc }
  · rw [hnone] at hn
    simpa using hn
  · rw [ho] at hc
    cases hc

/-- The place of an open node, its kind, its rule string and its members stay as they are. -/
structure Reconfigured (m n : Node) : Prop where
  router : n.router = m.router
  parent : n.parent = m.parent
  snapshot : n.snapshot = m.snapshot
  members : n.members = m.members
  expressions : n.rule?.map Rule.expressions = m.rule?.map Rule.expressions
  form : n.form = m.form

theorem isCompiled_setOpen (ho : (t.node id).isCompiled = false)
    (hn : n.snapshot = (t.node id).snapshot) : ((t.setNode id n).node id).isCompiled = false := by
  rw [node_setNode]
  split
  · rwa [Node.isCompiled, hn]
  · exact ho

theorem OpenFor.reconfigure (h : start.OpenFor edited label id t)
    (hn : Reconfigured (t.node id) n) (hown : Labelled label t.cells.length n.options) :
    start.OpenFor edited label id (t.setNode id n) := by
  have hfits := h.sound.fits id
  refine ⟨h.sound.setOpen h.isOpen hn.expressions ?_ ?_ ?_ ?_ ?_ ?_ hown,
    h.later.trans (.setNode h.isOpen hn.form), isCompiled_setOpen h.isOpen hn.snapshot⟩
  · rw [hn.snapshot]
    simpa [Node.isCompiled] using h.isOpen
  · rw [hn.router]
    exact hfits.router_lt
  · rw [hn.parent]
    exact hfits.parent_lt
  · rw [hn.parent]
    exact hfits.parent_group
  · intro p hnone hp
    rw [hn.parent] at hp
    have hexpr := hn.expressions
    rw [hnone] at hexpr
    exact hfits.group_parent_lt (by simpa using hexpr.symm) hp
  · rw [hn.members]
    exact hfits.member_lt

end Table

/-! ### Cells -/

namespace Table

/-- Cells have been added, and nothing else has changed. -/
structure Grown (label label' : Nat → Option Text) (t s : Table) : Prop where
  sound : s.SoundFor label'
  nodes : s.nodes = t.nodes
  routers : s.routers = t.routers
  cells : t.cells.length ≤ s.cells.length
  read : ∀ cell, cell < t.cells.length → s.read (.shared cell) = t.read (.shared cell)
  labels : ∀ cell, cell < t.cells.length → label' cell = label cell

namespace Grown

variable {label'' : Nat → Option Text}

theorem refl (h : t.SoundFor label) : Grown label label t t where
  sound := h
  nodes := rfl
  routers := rfl
  cells := Nat.le_refl _
  read _ _ := rfl
  labels _ _ := rfl

theorem trans (h : Grown label label' t s) (h' : Grown label' label'' s u) :
    Grown label label'' t u where
  sound := h'.sound
  nodes := h'.nodes.trans h.nodes
  routers := h'.routers.trans h.routers
  cells := Nat.le_trans h.cells h'.cells
  read cell hlt := (h'.read cell (Nat.lt_of_lt_of_le hlt h.cells)).trans (h.read cell hlt)
  labels cell hlt := (h'.labels cell (Nat.lt_of_lt_of_le hlt h.cells)).trans (h.labels cell hlt)

theorem node_eq (h : Grown label label' t s) (id : NodeId) : s.node id = t.node id := by
  rw [node, node, h.nodes]

theorem later (h : Grown label label' t s) (ht : t.SoundFor label) : Later edited t s :=
  .addCells h.nodes h.routers h.cells h.read ht

theorem openFor (h : Grown label label' t s) (ht : start.OpenFor edited label id t) :
    start.OpenFor edited label' id s where
  sound := h.sound
  later := ht.later.trans (h.later ht.sound)
  isOpen := by
    rw [h.node_eq]
    exact ht.isOpen

end Grown

end Table

/-- A slot may stand for an option of a name. -/
def Slot.Suits (label : Nat → Option Text) (count : Nat) (name : Option Text) (slot : Slot) :
    Prop :=
  ∀ cell, slot = .shared cell → cell < count ∧ label cell = name

namespace Action

open Table

/-- A list or a map that is kept is in a new cell, which can be labelled. -/
theorem keep_ends (h : t.SoundFor label) (value : Value) (name : Option Text) :
    (keep value).Ends t (fun slot s ↦ (∃ label', Grown label label' t s ∧
      slot.Suits label' s.cells.length name) ∧
      ∀ cell, slot = .shared cell → t.cells.length ≤ cell) fun _ ↦ False := by
  have hcell : ∀ value : Value, (∃ label', Grown label label' t
      { t with cells := t.cells ++ [value] } ∧
      Slot.Suits label' (t.cells ++ [value]).length name (.shared t.cells.length)) ∧
      ∀ cell, Slot.shared t.cells.length = .shared cell → t.cells.length ≤ cell := by
    intro value
    refine ⟨⟨_, ⟨h.addCell value name, rfl, rfl, by simp, ?_, ?_⟩, ?_⟩, ?_⟩
    · intro cell hlt
      simp [Table.read, List.getElem?_append_left hlt]
    · intro cell hlt
      simp [Nat.ne_of_lt hlt]
    · intro cell hc
      cases hc
      simp
    · intro cell hc
      cases hc
      exact Nat.le_refl _
  cases value with
  | list items => exact hcell _
  | map entries => exact hcell _
  | _ => refine ⟨⟨label, .refl h, fun cell hc ↦ ?_⟩, fun cell hc ↦ ?_⟩ <;> cases hc

theorem keepAll_ends (h : t.SoundFor label) (m : Mapping) :
    (keepAll m).Ends t (fun slots s ↦ ∃ label', Grown label label' t s ∧
      Labelled label' s.cells.length slots) fun _ ↦ False := by
  induction m generalizing t label with
  | nil => exact ⟨label, .refl h, .nil⟩
  | cons entry rest ih =>
    obtain ⟨key, value⟩ := entry
    refine (keep_ends h value key.text?).bind fun slot s hs ↦ ?_
    obtain ⟨⟨label', hgrown, hslot⟩, -⟩ := hs
    refine (ih hgrown.sound).bind fun slots u hu ↦ ?_
    obtain ⟨label'', hgrown', hslots⟩ := hu
    refine ⟨label'', hgrown.trans hgrown', ?_⟩
    intro key' cell hmem
    rcases List.mem_cons.mp hmem with heq | hmem
    · obtain ⟨rfl, rfl⟩ := Prod.mk.inj heq
      obtain ⟨hlt, hl⟩ := hslot cell rfl
      exact ⟨Nat.lt_of_lt_of_le hlt hgrown'.cells, (hgrown'.labels cell hlt).trans hl⟩
    · exact hslots key' cell hmem

end Action

end UrlRouting

import UrlRouting.Proofs.Table.Upkeep
import UrlRouting.Table.Directive

/-!
Configuration keeps the invariant. Every directive but one first makes sure that its node is open,
and what it changes then is checked change by change: options are laid over own ones or bound under
their names, and only options that no expression depends on are edited in place.
-/

namespace UrlRouting

/-- The option that a directive edits in place, if it finds one: bindings and entries are added to
it, where other directives replace what an option is bound to. -/
def Directive.edited? : Directive → Option Text
  | .validation (.map _) _ => none
  | .validation _ _ => some "var_rule"
  | .model (.map _) _ _ => none
  | .model _ _ _ => some "model"
  | .middleware (.list _) [] => none
  | .middleware _ _ => some "middleware"
  | .crossOrigin _ => some "middleware"
  | _ => none

namespace Table

/-- The cell of an own option of a node. -/
def ownCell? (t : Table) (id : NodeId) (name : Text) : Option Nat :=
  match (t.node id).options.get? (.str name) with
  | some (.shared cell) => some cell
  | _ => none

/-- The cell that a directive edits, which takes an open node. -/
def cellEdited? (t : Table) (d : Directive) (id : NodeId) : Option Nat :=
  if (t.node id).isCompiled then none else d.edited?.bind (t.ownCell? id)

end Table

namespace Action

open Table

variable {α : Type} {start t s : Table} {edited : List Nat} {label : Nat → Option Text}
  {id : NodeId} {slot : Slot} {P : Table → Prop}

theorem Maintains.failWith (fault : Option Fault) : Maintains P (failWith fault) := by
  cases fault with
  | none => exact .pure ()
  | some fault => exact .throw fault

theorem ensureOpen_ends (h : start.Follows edited t) (id : NodeId) :
    (ensureOpen id).Ends t (fun _ s ↦ s = t ∧ start.Open edited id t) (start.Follows edited) := by
  rw [ensureOpen, ends_bind]
  change Ends (if (t.node id).isCompiled then _ else _) t _ _
  cases hc : (t.node id).isCompiled with
  | true =>
    rw [if_pos rfl, ends_bind]
    exact ends_ofExcept (fun _ ↦ h) h
  | false =>
    obtain ⟨⟨label, hsound⟩, hlater⟩ := h
    exact ⟨rfl, label, hsound, hlater, hc⟩

theorem ends_of_open {a : Action α} (ht : start.Follows edited t)
    (h : start.Open edited id t → a.Ends t (fun _ ↦ start.Open edited id) (start.Open edited id)) :
    (ensureOpen id >>= fun _ ↦ a).Ends t (fun _ ↦ start.Follows edited) (start.Follows edited) := by
  refine (ensureOpen_ends ht id).bind ?_
  rintro _ s ⟨rfl, hs⟩
  exact (h hs).mono (fun _ _ hu ↦ hu.follows) fun _ hu ↦ hu.follows

theorem maintains_of_open {a : Action α} (h : Maintains (start.Open edited id) a) :
    Maintains (start.Follows edited) (ensureOpen id >>= fun _ ↦ a) :=
  fun t ht ↦ ends_of_open ht (h t)

/-! ### Own options -/

theorem maintains_modifyNode {f : Node → Node} (hf : ∀ n, Reconfigured n (f n))
    (ho : ∀ n, (f n).options = n.options) :
    Maintains (start.Open edited id) (modifyNode id f) := by
  rintro t ⟨label, h⟩
  refine ⟨label, h.reconfigure (hf _) ?_⟩
  rw [ho]
  exact (h.sound.fits id).own

theorem maintains_modifyRule {f : Rule → Rule} (hf : ∀ r, (f r).expressions = r.expressions)
    (htext : ∀ r, (f r).text = r.text) : Maintains (start.Open edited id) (modifyRule id f) := by
  refine maintains_modifyNode (fun n ↦ ?_) fun n ↦ ?_
  · cases hb : n.body with
    | rule r =>
      exact ⟨rfl, rfl, rfl, by simp [Node.members, hb], by simp [Node.rule?, hb, hf],
        by simp [Node.form, hb, htext]⟩
    | group g => exact ⟨rfl, rfl, rfl, rfl, rfl, rfl⟩
  · cases n.body <;> rfl

theorem modifyOptions_ends (h : start.OpenFor edited label id t)
    (f : Entries Slot → Entries Slot)
    (hf : Labelled label t.cells.length (f (t.node id).options)) :
    (modifyNode id fun n ↦ { n with options := f n.options }).Ends t
      (fun _ s ↦ start.OpenFor edited label id s ∧ s.cells = t.cells) (start.Open edited id) :=
  ⟨h.reconfigure ⟨rfl, rfl, rfl, rfl, rfl, rfl⟩ hf, rfl⟩

theorem maintains_overlay (m : Mapping) : Maintains (start.Open edited id) (do
    let slots ← keepAll m
    modifyNode id fun n ↦ { n with options := n.options.overlay slots }) := by
  rintro t ⟨label, h⟩
  refine (keepAll_ends h.sound m).bind_of_safe ?_
  rintro slots s ⟨label', hgrown, hslots⟩
  have hs := hgrown.openFor h
  have hown := (hs.sound.fits id).own.overlay hslots
  exact (modifyOptions_ends hs (·.overlay slots) hown).mono (fun _ _ hu ↦ ⟨_, hu.1⟩) fun _ hu ↦ hu

theorem putSlot_ends (h : start.OpenFor edited label id t) {name : Value}
    (hslot : slot.Suits label t.cells.length name.text?) : (putSlot id name slot).Ends t
      (fun _ s ↦ start.OpenFor edited label id s ∧ s.cells = t.cells) (start.Open edited id) :=
  modifyOptions_ends h (·.set name slot) ((h.sound.fits id).own.set hslot)

theorem maintains_putFixed (name value : Value) :
    Maintains (start.Open edited id) (putSlot id name (.fixed value)) := by
  rintro t ⟨label, h⟩
  have hfixed : Slot.Suits label t.cells.length name.text? (.fixed value) := by
    intro cell hc
    cases hc
  exact (putSlot_ends h hfixed).mono (fun _ _ hu ↦ ⟨_, hu.1⟩) fun _ hu ↦ hu

theorem maintains_putOption (name value : Value) :
    Maintains (start.Open edited id) (putOption id name value) := by
  rintro t ⟨label, h⟩
  refine (keep_ends h.sound value name.text?).bind_of_safe ?_
  rintro slot s ⟨⟨label', hgrown, hslot⟩, -⟩
  exact (putSlot_ends (hgrown.openFor h) hslot).mono (fun _ _ hu ↦ ⟨_, hu.1⟩) fun _ hu ↦ hu

theorem maintains_setOption (name value : Value) :
    Maintains (start.Follows edited) (setOption id name value) := by
  refine maintains_of_open ?_
  split
  · exact maintains_putOption name value
  · exact .throw _

/-! ### Editing in place -/

/-- The slot of an option of an open node that may be edited: no expression depends on the option,
and its cell is new or one of those that may be edited. -/
def Editable (start : Table) (edited : List Nat) (id : NodeId) (slot : Slot) (t : Table) : Prop :=
  ∃ label, start.OpenFor edited label id t ∧
    (∃ name ∈ Options.inPlace, slot.Suits label t.cells.length (some name)) ∧
    ∀ cell, slot = .shared cell → cell < start.cells.length → cell ∈ edited

theorem slotOf_ends (h : start.Open edited id t) {name : Text} (hname : name ∈ Options.inPlace)
    (hedited : ∀ cell, t.ownCell? id name = some cell → cell < start.cells.length → cell ∈ edited)
    (initial : Value) : (slotOf id (.str name) initial).Ends t
      (fun slot s ↦ Editable start edited id slot s) (start.Open edited id) := by
  obtain ⟨label, h⟩ := h
  rw [slotOf]
  refine .node_bind ?_
  cases hg : (t.node id).options.get? (.str name) with
  | some slot =>
    refine ⟨label, h, ⟨name, hname, fun cell hc ↦ ?_⟩, fun cell hc ↦ ?_⟩
    · subst hc
      exact (h.sound.fits id).own.get? hg
    · subst hc
      exact hedited cell (by rw [ownCell?, hg])
  | none =>
    refine (keep_ends h.sound initial (some name)).bind_of_safe ?_
    rintro slot s ⟨⟨label', hgrown, hslot⟩, hnew⟩
    have hput : (putSlot id (.str name) slot).Ends s _ _ := putSlot_ends (hgrown.openFor h) hslot
    refine hput.bind ?_
    rintro _ u ⟨hu, hcells⟩
    refine ⟨label', hu, ⟨name, hname, hcells ▸ hslot⟩, fun cell hc hlt ↦ ?_⟩
    have hle := Nat.le_trans h.later.cells (hnew cell hc)
    exact absurd hlt (Nat.not_lt_of_le hle)

theorem edit_ends (h : Editable start edited id slot t) (f : Value → Except Fault Value) :
    (edit slot f).Ends t (fun _ ↦ start.Open edited id) (start.Open edited id) := by
  obtain ⟨label, h, ⟨name, hname, hslot⟩, hedited⟩ := h
  have hopen : start.Open edited id t := ⟨label, h⟩
  rw [edit, ends_bind]
  change Ends (ofExcept (f (t.read slot)) >>= _) t _ _
  rw [ends_bind]
  refine ends_ofExcept (fun value ↦ ?_) hopen
  cases slot with
  | fixed _ => exact hopen
  | shared cell =>
    obtain ⟨-, hlabel⟩ := hslot cell rfl
    have hexpression : ∀ name ∈ Options.inPlace, name ∉ expressionOptions := by decide
    exact ⟨label, h.sound.setCell hlabel (hexpression name hname) value,
      h.later.setCell h.sound (hedited cell rfl) hlabel hname value, h.isOpen⟩

/-- A directive that edits an option does so to the cell that it is said to edit. -/
theorem inPlace_ends (h : start.Open edited id t) {d : Directive} {name : Text}
    (hname : name ∈ Options.inPlace) (hd : d.edited? = some name)
    (hedited : ∀ cell, t.cellEdited? d id = some cell → cell < start.cells.length → cell ∈ edited)
    (initial : Value) {g : Slot → Action Unit} (hg : ∀ slot, ∃ f, g slot = edit slot f) :
    (slotOf id (.str name) initial >>= g).Ends t (fun _ ↦ start.Open edited id)
      (start.Open edited id) := by
  have hcell : ∀ cell, t.ownCell? id name = some cell → cell < start.cells.length →
      cell ∈ edited := by
    intro cell hcell
    obtain ⟨label, h⟩ := h
    refine hedited cell ?_
    rw [cellEdited?, h.isOpen, hd]
    exact hcell
  refine (slotOf_ends h hname hcell initial).bind fun slot s hs ↦ ?_
  obtain ⟨f, hf⟩ := hg slot
  rw [hf]
  exact edit_ends hs f

/-! ### Directives -/

theorem maintains_overlay_bind (m : Mapping) {a : Action α}
    (h : Maintains (start.Open edited id) a) : Maintains (start.Open edited id) (do
      let slots ← keepAll m
      modifyNode id fun n ↦ { n with options := n.options.overlay slots }
      a) := by
  have hoverlay : Maintains (start.Open edited id) (do
      let slots ← keepAll m
      modifyNode id fun n ↦ { n with options := n.options.overlay slots }) := maintains_overlay m
  have hbind := hoverlay.bind fun _ ↦ h
  rwa [bind_assoc] at hbind

theorem maintains_layOptions (id : NodeId) (given : Value) (more : Mapping) :
    Maintains (start.Follows edited) (layOptions id given more) :=
  maintains_of_open (maintains_overlay_bind _
    ((Maintains.failWith _).bind fun _ ↦ maintains_overlay more))

theorem maintains_layPatterns (id : NodeId) (given : Value) (more : Mapping) :
    Maintains (start.Follows edited) (layPatterns id given more) := by
  have hlay : ∀ entries : Mapping, Maintains (start.Open edited id)
      (modifyNode id fun n ↦ { n with patterns := n.patterns.overlay entries }) :=
    fun entries ↦ maintains_modifyNode (fun _ ↦ ⟨rfl, rfl, rfl, rfl, rfl, rfl⟩) fun _ ↦ rfl
  exact maintains_of_open ((hlay _).bind fun _ ↦ (Maintains.failWith _).bind fun _ ↦ hlay more)

theorem maintains_layAliases (id : NodeId) (given : Value) (more : Mapping) :
    Maintains (start.Follows edited) (layAliases id given more) := by
  have hlay : ∀ entries : Mapping, Maintains (start.Open edited id)
      (modifyRule id fun r ↦ { r with aliases := r.aliases.overlay entries }) :=
    fun entries ↦ maintains_modifyRule (fun _ ↦ rfl) fun _ ↦ rfl
  refine (Maintains.rule id).ignoring.bind fun _ ↦ maintains_of_open ?_
  exact (hlay _).bind fun _ ↦ (Maintains.failWith _).bind fun _ ↦ hlay more

theorem maintains_setMapping (id : NodeId) (name given : Value) :
    Maintains (start.Follows edited) (setMapping id name given) :=
  maintains_of_open ((Maintains.ofExcept _).bind fun _ ↦ maintains_putOption _ _)

theorem setValidation_ends (ht : start.Follows edited t) {name rule : Value}
    (hedited : ∀ cell, t.cellEdited? (.validation name rule) id = some cell →
      cell < start.cells.length → cell ∈ edited) :
    (setValidation id name rule).Ends t (fun _ ↦ start.Follows edited) (start.Follows edited) := by
  refine ends_of_open ht fun h ↦ ?_
  split
  next => exact maintains_putOption _ _ t h
  next hname =>
    refine inPlace_ends h (by decide) ?_ hedited _ fun slot ↦ ⟨_, rfl⟩
    cases name <;> first | rfl | exact absurd rfl (hname _)

theorem setModel_ends (ht : start.Follows edited t) {subject target required : Value}
    (hedited : ∀ cell, t.cellEdited? (.model subject target required) id = some cell →
      cell < start.cells.length → cell ∈ edited) :
    (setModel id subject target required).Ends t (fun _ ↦ start.Follows edited)
      (start.Follows edited) := by
  refine ends_of_open ht fun h ↦ ?_
  split
  next => exact maintains_putOption _ _ t h
  next hsubject =>
    refine inPlace_ends h (by decide) ?_ hedited _ fun slot ↦ ?_
    · cases subject <;> first | rfl | exact absurd rfl (hsubject _)
    · split
      · exact ⟨_, rfl⟩
      · split
        · exact ⟨_, rfl⟩
        · exact ⟨_, rfl⟩

theorem addMiddleware_ends (ht : start.Follows edited t) {given : Value} {parameters : List Value}
    (hedited : ∀ cell, t.cellEdited? (.middleware given parameters) id = some cell →
      cell < start.cells.length → cell ∈ edited) :
    (addMiddleware id given parameters).Ends t (fun _ ↦ start.Follows edited)
      (start.Follows edited) := by
  refine ends_of_open ht fun h ↦ ?_
  split
  next => exact maintains_putOption _ _ t h
  next hgiven =>
    refine inPlace_ends h (by decide) ?_ hedited _ fun slot ↦ ⟨_, rfl⟩
    rw [Directive.edited?.eq_def]
    split <;> simp_all

theorem maintains_erase (name : Value) : Maintains (start.Open edited id)
    (modifyNode id fun n ↦ { n with options := n.options.erase name }) := by
  rintro t ⟨label, h⟩
  exact (modifyOptions_ends h (·.erase name) ((h.sound.fits id).own.erase name)).mono
    (fun _ _ hu ↦ ⟨_, hu.1⟩) fun _ hu ↦ hu

theorem maintains_setMethod (id : NodeId) (given : Value) :
    Maintains (start.Follows edited) (setMethod id given) := by
  refine (Maintains.rule id).ignoring.bind fun _ ↦ maintains_of_open ?_
  extract_lets method
  clear_value method
  have hmodify : Maintains (start.Open edited id)
      (modifyRule id fun r ↦ { r with method := method }) :=
    maintains_modifyRule (fun _ ↦ rfl) fun _ ↦ rfl
  refine hmodify.bind fun _ ↦ ?_
  split
  · exact maintains_erase _
  · exact maintains_putFixed _ _
  · exact .throw _

theorem maintains_addEverywhere (id : RouterId) (rule : NodeId) :
    Maintains (start.Follows edited) (addEverywhere id rule) := by
  intro t ht
  rw [addEverywhere, ensureRouterOpen, ends_bind, ends_bind]
  change Ends (if (t.router id).compiled then _ else _) t _ _
  cases hc : (t.router id).compiled with
  | true => exact ht
  | false =>
    obtain ⟨⟨label, h⟩, hlater⟩ := ht
    have hmark : ∀ r : Router, ∃ everywhere, (if r.everywhere.contains rule then r
        else { r with everywhere := r.everywhere ++ [rule] }) = { r with everywhere } := by
      intro r
      split
      · exact ⟨r.everywhere, rfl⟩
      · exact ⟨_, rfl⟩
    obtain ⟨everywhere, hr⟩ := hmark (t.router id)
    change start.Follows edited (t.setRouter id (if _ then _ else _))
    rw [hr]
    refine ⟨⟨label, h.setRouter rfl rfl fun hclosed ↦ ?_⟩, hlater.trans (.setRouter hc rfl)⟩
    exact absurd (hc.symm.trans hclosed) nofun

theorem maintains_makeEverywhere (id : NodeId) :
    Maintains (start.Follows edited) (makeEverywhere id) := by
  refine (Maintains.rule id).bind fun r ↦ .node_bind fun n ↦ ?_
  cases n.router with
  | none => exact (Maintains.ofExcept _).bind fun _ ↦ .throw _
  | some router => exact maintains_addEverywhere router id

/-- No directive breaks the invariant or changes what is to stay, not even one that fails
half-way. -/
theorem apply_ends (ht : start.Follows edited t) (d : Directive) (id : NodeId)
    (hedited : ∀ cell, t.cellEdited? d id = some cell → cell < start.cells.length →
      cell ∈ edited) :
    (d.apply id).Ends t (fun _ ↦ start.Follows edited) (start.Follows edited) := by
  cases d with
  | options given more => exact maintains_layOptions id given more t ht
  | option key value => exact maintains_setOption key value t ht
  | patterns given more => exact maintains_layPatterns id given more t ht
  | aliases given more => exact maintains_layAliases id given more t ht
  | validation parameter rule => exact setValidation_ends ht hedited
  | defaults given => exact (Maintains.ofExcept _).bind (fun _ ↦ maintains_setOption _ _) t ht
  | filter given => exact maintains_setMapping id _ given t ht
  | view given => exact (Maintains.ofExcept _).bind (fun _ ↦ maintains_setOption _ _) t ht
  | append given => exact maintains_setMapping id _ _ t ht
  | model subject target required => exact setModel_ends ht hedited
  | validator v scene messages batch =>
    exact (Maintains.ofExcept _).bind (fun _ ↦ maintains_setOption _ _) t ht
  | middleware given parameters => exact addMiddleware_ends ht hedited
  | crossOrigin headers =>
    exact ends_bind.mpr (ends_ofExcept (fun _ ↦ addMiddleware_ends ht hedited) ht)
  | withoutMiddleware given =>
    exact (Maintains.ofExcept _).bind (fun _ ↦ maintains_setOption _ _) t ht
  | merging names =>
    refine maintains_of_open ?_ t ht
    exact maintains_modifyNode (fun _ ↦ ⟨rfl, rfl, rfl, rfl, rfl, rfl⟩) fun _ ↦ rfl
  | domain given =>
    refine maintains_of_open (.bind ?_ fun _ ↦ maintains_putOption _ given) t ht
    exact maintains_modifyNode (fun _ ↦ ⟨rfl, rfl, rfl, rfl, rfl, rfl⟩) fun _ ↦ rfl
  | name given =>
    refine (Maintains.rule id).ignoring.bind (fun _ ↦ maintains_of_open ?_) t ht
    exact maintains_modifyRule (fun _ ↦ rfl) fun _ ↦ rfl
  | method given => exact maintains_setMethod id given t ht
  | everywhere => exact maintains_makeEverywhere id t ht

end Action

end UrlRouting

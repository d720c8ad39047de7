import UrlRouting.Proofs.Table.Reachable

/-!
What working on one node leaves alone. Directives, declarations and moves are given a node, and
every other node that there was is afterwards what it was before, in all its parts:
`Operation.after_sameBut`.
-/

namespace UrlRouting

variable {α : Type} {t s u : Table} {id k : NodeId} {n : Node}

namespace Table

/-- Every node that there was is as before, except for one; further ones may have been added. -/
structure SameBut (t : Table) (id : NodeId) (s : Table) : Prop where
  nodes : t.nodes.length ≤ s.nodes.length
  node : ∀ other, other < t.nodes.length → other ≠ id → s.node other = t.node other

namespace SameBut

theorem refl (t : Table) (id : NodeId) : t.SameBut id t := ⟨Nat.le_refl _, fun _ _ _ ↦ rfl⟩

theorem of_nodes (h : t.SameBut id s) (hn : u.nodes = s.nodes) : t.SameBut id u := by
  refine ⟨hn ▸ h.nodes, fun other hlt hne ↦ ?_⟩
  rw [Table.node, hn]
  exact h.node other hlt hne

theorem setNode (h : t.SameBut id s) (hk : k = id ∨ t.nodes.length ≤ k) (n : Node) :
    t.SameBut id (s.setNode k n) := by
  refine ⟨length_setNode s k n ▸ h.nodes, fun other hlt hne ↦ ?_⟩
  have hother : k ≠ other := by
    rintro rfl
    exact hk.elim hne (Nat.not_le_of_lt hlt)
  rw [node_setNode_of_ne hother]
  exact h.node other hlt hne

theorem addNode (h : t.SameBut id s) (n : Node) :
    t.SameBut id { s with nodes := s.nodes ++ [n] } := by
  refine ⟨?_, fun other hlt hne ↦ ?_⟩
  · rw [List.length_append]
    exact Nat.le_add_right_of_le h.nodes
  · rw [node_append_of_lt (Nat.lt_of_lt_of_le hlt h.nodes)]
    exact h.node other hlt hne

end SameBut

end Table

namespace Action

open Table

/-! ### Single changes -/

theorem Maintains.ensureOpen {P : Table → Prop} (id : NodeId) :
    Maintains P (Action.ensureOpen id) := by
  refine .node_bind fun n ↦ ?_
  split
  · exact (Maintains.ofExcept _).bind fun _ ↦ .throw _
  · exact .pure _

theorem Maintains.ensureRouterOpen {P : Table → Prop} (id : RouterId) :
    Maintains P (Action.ensureRouterOpen id) := by
  intro s hs
  refine .router_bind ?_
  split <;> exact hs

theorem sameBut_modifyNode (hk : k = id ∨ t.nodes.length ≤ k) (f : Node → Node) :
    Maintains (t.SameBut id) (modifyNode k f) := fun _ hs ↦ hs.setNode hk _

/-! ### Cells -/

section Cells

variable {P : Table → Prop} (hnodes : ∀ s u, P s → u.nodes = s.nodes → P u)

include hnodes

theorem Maintains.keep (value : Value) : Maintains P (Action.keep value) := by
  intro s hs
  cases value with
  | list items => exact hnodes s _ hs rfl
  | map entries => exact hnodes s _ hs rfl
  | _ => exact hs

theorem keepAll_ends_textKeys (hs : P s) (m : Mapping) :
    (keepAll m).Ends s (fun slots u ↦ P u ∧ slots.textKeys = m.textKeys) P := by
  induction m generalizing s with
  | nil => exact ⟨hs, rfl⟩
  | cons entry rest ih =>
    refine (Maintains.keep hnodes entry.2 s hs).bind fun slot u hu ↦ ?_
    refine (ih hu).bind fun slots v hv ↦ ⟨hv.1, ?_⟩
    rw [Entries.textKeys_cons, Entries.textKeys_cons, hv.2]

theorem Maintains.edit (slot : Slot) (f : Value → Except Fault Value) :
    Maintains P (Action.edit slot f) := by
  refine .get_bind fun s ↦ (Maintains.ofExcept _).bind fun value ↦ ?_
  cases slot with
  | fixed value => exact .pure _
  | shared cell => exact fun s hs ↦ hnodes s _ hs rfl

end Cells

end Action

/-! ### Directives -/

namespace Directive

/-- The options that the directive lays down, binds, edits or erases. -/
def names : Directive → List Text
  | options given more => Entries.textKeys given.orEmpty.entries.1 ++ Entries.textKeys more
  | option key _ => key.text?.toList
  | validation _ _ => ["var_rule"]
  | defaults _ => ["default"]
  | filter _ => ["filter"]
  | view _ => ["view"]
  | append _ => ["append"]
  | model _ _ _ => ["model"]
  | validator _ _ _ _ => ["validate"]
  | middleware _ _ | crossOrigin _ => ["middleware"]
  | withoutMiddleware _ => ["without_middleware"]
  | domain _ => ["domain"]
  | method _ => ["method"]
  | patterns _ _ | aliases _ _ | merging _ | name _ | everywhere => []

/-- What one step of a directive makes of its node: the node stays where it is, and its other
options stay as they are. -/
structure Reworks (d : Directive) (n m : Node) : Prop where
  parent : m.parent = n.parent
  snapshot : m.snapshot = n.snapshot
  domain : m.domain = n.domain ∨ d = .domain m.domain
  bindings : ∀ name, name ∉ d.names → m.options.bindings name = n.options.bindings name

/-- The steps that a directive is made of keep a property of tables. -/
structure Keeps (d : Directive) (id : NodeId) (P : Table → Prop) : Prop where
  nodes : ∀ s u, P s → u.nodes = s.nodes → P u
  node : ∀ s m, P s → d.Reworks (s.node id) m → P (s.setNode id m)

namespace Keeps

open UrlRouting.Action

variable {d : Directive} {P : Table → Prop}

theorem modifyNode (h : d.Keeps id P) {f : Node → Node} (hf : ∀ n, d.Reworks n (f n)) :
    Maintains P (modifyNode id f) := fun s hs ↦ h.node s _ hs (hf _)

theorem modifyRule (h : d.Keeps id P) (f : Rule → Rule) : Maintains P (modifyRule id f) := by
  refine h.modifyNode fun n ↦ ?_
  split <;> exact ⟨rfl, rfl, .inl rfl, fun _ _ ↦ rfl⟩

theorem putSlot (h : d.Keeps id P) {name : Value} (hname : ∀ t ∈ name.text?, t ∈ d.names)
    (slot : Slot) : Maintains P (putSlot id name slot) :=
  h.modifyNode fun _ ↦ ⟨rfl, rfl, .inl rfl, fun t ht ↦
    Entries.bindings_set_of_ne (fun he ↦ ht (hname t (Value.text?_eq_some_iff.mpr he))) _ _⟩

theorem putOption (h : d.Keeps id P) {name : Value} (hname : ∀ t ∈ name.text?, t ∈ d.names)
    (value : Value) : Maintains P (putOption id name value) :=
  (Maintains.keep h.nodes value).bind fun slot ↦ h.putSlot hname slot

theorem setOption (h : d.Keeps id P) {name : Value} (hname : ∀ t ∈ name.text?, t ∈ d.names)
    (value : Value) : Maintains P (setOption id name value) := by
  refine (Maintains.ensureOpen id).bind fun _ ↦ ?_
  split
  · exact h.putOption hname value
  · exact .throw _

theorem edit_slotOf (h : d.Keeps id P) {name : Value} (hname : ∀ t ∈ name.text?, t ∈ d.names)
    (initial : Value) {f : Slot → Action Unit} (hf : ∀ slot, Maintains P (f slot)) :
    Maintains P (slotOf id name initial >>= f) := by
  refine Maintains.bind (.node_bind fun n ↦ ?_) hf
  split
  · exact .pure _
  · exact (Maintains.keep h.nodes initial).bind fun slot ↦
      (h.putSlot hname slot).bind fun _ ↦ .pure _

theorem overlay (h : d.Keeps id P) {m : Mapping} (hm : ∀ t ∈ m.textKeys, t ∈ d.names)
    {a : Action Unit} (ha : Maintains P a) : Maintains P (do
      let slots ← keepAll m
      Action.modifyNode id fun n ↦ { n with options := n.options.overlay slots }
      a) := by
  intro s hs
  refine (keepAll_ends_textKeys h.nodes hs m).bind fun slots u hu ↦ ?_
  have hlay (n : Node) : d.Reworks n { n with options := n.options.overlay slots } :=
    ⟨rfl, rfl, .inl rfl, fun t ht ↦
      Entries.bindings_overlay_of_not_mem (fun hmem ↦ ht (hm t (hu.2 ▸ hmem))) _⟩
  exact ((h.modifyNode hlay).bind fun _ ↦ ha) u hu.1

/-- A directive does nothing that is not one of its steps. -/
theorem apply (h : d.Keeps id P) : Maintains P (d.apply id) := by
  have hopen {a : Action Unit} (ha : Maintains P a) :
      Maintains P (ensureOpen id >>= fun _ ↦ a) := (Maintains.ensureOpen id).bind fun _ ↦ ha
  have hrule {a : Action Unit} (ha : Maintains P a) :
      Maintains P (discard (rule id) >>= fun _ ↦ a) := (Maintains.rule id).ignoring.bind fun _ ↦ ha
  have hcopy {β : Type} {x : Except Fault β} {f : β → Action Unit}
      (hf : ∀ y, Maintains P (f y)) : Maintains P (Action.ofExcept x >>= f) :=
    (Maintains.ofExcept x).bind hf
  have hedit (slot : Slot) (f : Value → Except Fault Value) : Maintains P (edit slot f) :=
    .edit h.nodes slot f
  have hname {name : Text} (hd : d.names = [name]) :
      ∀ other ∈ (Value.str name).text?, other ∈ d.names := by
    rintro _ ⟨⟩
    rw [hd]
    exact List.mem_singleton_self name
  have hmiddleware (hd : d.names = ["middleware".toList]) (given : Value)
      (parameters : List Value) : Maintains P (addMiddleware id given parameters) := by
    refine hopen ?_
    split
    · exact h.putOption (hname hd) _
    · exact h.edit_slotOf (hname hd) _ fun slot ↦ hedit slot _
  cases d with
  | options given more =>
    refine hopen (h.overlay (fun _ hmem ↦ List.mem_append_left _ hmem) ?_)
    refine (Maintains.failWith _).bind fun _ ↦ ?_
    exact h.overlay (a := pure ()) (fun _ hmem ↦ List.mem_append_right _ hmem) (.pure ())
  | option key value => exact h.setOption (fun _ ht ↦ Option.mem_toList.mpr ht) value
  | patterns given more =>
    have hlay (entries : Mapping) : Maintains P
        (Action.modifyNode id fun n ↦ { n with patterns := n.patterns.overlay entries }) :=
      h.modifyNode fun n ↦ ⟨rfl, rfl, .inl rfl, fun _ _ ↦ rfl⟩
    exact hopen ((hlay _).bind fun _ ↦ (Maintains.failWith _).bind fun _ ↦ hlay _)
  | aliases given more =>
    exact hrule (hopen ((h.modifyRule _).bind fun _ ↦
      (Maintains.failWith _).bind fun _ ↦ h.modifyRule _))
  | validation parameter rule =>
    refine hopen ?_
    split
    · exact h.putOption (hname rfl) _
    · exact h.edit_slotOf (hname rfl) _ fun slot ↦ hedit slot _
  | defaults given => exact hcopy fun _ ↦ h.setOption (hname rfl) _
  | filter given => exact hopen (hcopy fun _ ↦ h.putOption (hname rfl) _)
  | view given => exact hcopy fun _ ↦ h.setOption (hname rfl) _
  | append given => exact hopen (hcopy fun _ ↦ h.putOption (hname rfl) _)
  | model subject target required =>
    refine hopen ?_
    split
    · exact h.putOption (hname rfl) _
    · refine h.edit_slotOf (hname rfl) _ fun slot ↦ ?_
      split
      · exact hedit slot _
      · split <;> exact hedit slot _
  | validator v scene messages batch => exact hcopy fun _ ↦ h.setOption (hname rfl) _
  | middleware given parameters => exact hmiddleware rfl given parameters
  | crossOrigin headers => exact hcopy fun _ ↦ hmiddleware rfl _ _
  | withoutMiddleware given => exact hcopy fun _ ↦ h.setOption (hname rfl) _
  | merging names => exact hopen (h.modifyNode fun n ↦ ⟨rfl, rfl, .inl rfl, fun _ _ ↦ rfl⟩)
  | domain given =>
    refine hopen (Maintains.bind ?_ fun _ ↦ h.putOption (hname rfl) _)
    exact h.modifyNode fun n ↦ ⟨rfl, rfl, .inr rfl, fun _ _ ↦ rfl⟩
  | name given => exact hrule (hopen (h.modifyRule _))
  | method given =>
    refine hrule (hopen ((h.modifyRule _).bind fun _ ↦ ?_))
    split
    · refine h.modifyNode fun n ↦ ⟨rfl, rfl, .inl rfl, fun name hne ↦ ?_⟩
      refine Entries.bindings_erase_of_ne (fun he ↦ hne ?_) _
      exact hname rfl name (Value.text?_eq_some_iff.mpr he)
    · exact h.putSlot (hname rfl) _
    · exact .throw _
  | everywhere =>
    refine (Maintains.rule id).bind fun r ↦ .node_bind fun n ↦ ?_
    cases n.router with
    | none => exact (Maintains.ofExcept _).bind fun _ ↦ .throw _
    | some router =>
      exact (Maintains.ensureRouterOpen router).bind fun _ ↦ fun s hs ↦ h.nodes s _ hs rfl

end Keeps

end Directive

namespace Action

open Table

/-- No directive changes another node than its own. -/
theorem sameBut_apply (d : Directive) (id : NodeId) : Maintains (t.SameBut id) (d.apply id) :=
  Directive.Keeps.apply
    { nodes := fun _ _ hs hn ↦ hs.of_nodes hn
      node := fun _ m hs _ ↦ hs.setNode (.inl rfl) m }

/-! ### Declarations -/

theorem sameBut_addNode (hs : t.SameBut id s) (n : Node) : (addNode n).Ends s
    (fun new u ↦ t.SameBut id u ∧ t.nodes.length ≤ new) (t.SameBut id) :=
  ⟨hs.addNode n, hs.nodes⟩

theorem Maintains.pathOf {P : Table → Prop} (parent : Option NodeId) :
    Maintains P (Action.pathOf parent) := by
  cases parent with
  | none => exact .pure _
  | some p => exact (Maintains.group p).bind fun _ ↦ .pure _

theorem sameBut_newRule (hs : t.SameBut id s) (router : Option RouterId) (parent : Option NodeId)
    (d : Declared) : (newRule router parent d).Ends s
      (fun new u ↦ t.SameBut id u ∧ t.nodes.length ≤ new) (t.SameBut id) := by
  refine (Maintains.pathOf parent s hs).bind fun path u hu ↦ ?_
  exact (keepAll_ends_textKeys (fun _ _ hs ↦ hs.of_nodes) hu _).bind fun slots v hv ↦
    sameBut_addNode hv.1 _

theorem sameBut_newGroup (hs : t.SameBut id s) (router : Option RouterId) (parent : Option NodeId)
    (d : DeclaredGroup) : (newGroup router parent d).Ends s
      (fun new u ↦ t.SameBut id u ∧ t.nodes.length ≤ new) (t.SameBut id) := by
  refine (Maintains.pathOf parent s hs).bind fun path u hu ↦ ?_
  exact (keepAll_ends_textKeys (fun _ _ hs ↦ hs.of_nodes) hu _).bind fun slots v hv ↦
    sameBut_addNode hv.1 _

/-- A node that is worked on is given a new member. -/
theorem sameBut_declared (hs : t.SameBut id s) (hk : k = id ∨ t.nodes.length ≤ k)
    {f : Option RouterId → Action NodeId} (hf : ∀ router u, t.SameBut id u →
      (f router).Ends u (fun new v ↦ t.SameBut id v ∧ t.nodes.length ≤ new) (t.SameBut id)) :
    Ends (do
      discard (group k)
      ensureOpen k
      let member ← f (← node k).router
      addMember k member
      return member) s (fun new u ↦ t.SameBut id u ∧ t.nodes.length ≤ new) (t.SameBut id) := by
  refine ((Maintains.group k).ignoring s hs).bind fun _ u hu ↦ ?_
  refine (Maintains.ensureOpen k u hu).bind fun _ v hv ↦ .node_bind ?_
  refine (hf _ v hv).bind fun new w hw ↦ ?_
  exact (sameBut_modifyNode hk _ w hw.1).bind fun _ x hx ↦ ⟨hx, hw.2⟩

theorem sameBut_declareRule (hs : t.SameBut id s) (hk : k = id ∨ t.nodes.length ≤ k)
    (d : Declared) : (declareRule k d).Ends s
      (fun new u ↦ t.SameBut id u ∧ t.nodes.length ≤ new) (t.SameBut id) :=
  sameBut_declared (f := fun router ↦ newRule router (some k) d) hs hk
    fun _ _ hu ↦ sameBut_newRule hu _ _ d

theorem sameBut_declareGroup (hs : t.SameBut id s) (hk : k = id ∨ t.nodes.length ≤ k)
    (d : DeclaredGroup) : (declareGroup k d).Ends s
      (fun new u ↦ t.SameBut id u ∧ t.nodes.length ≤ new) (t.SameBut id) :=
  sameBut_declared (f := fun router ↦ newGroup router (some k) d) hs hk
    fun _ _ hu ↦ sameBut_newGroup hu _ _ d

theorem sameBut_declareRules (hk : t.nodes.length ≤ k) (ds : List Declared) :
    Maintains (t.SameBut id) (declareRules k ds) := by
  induction ds with
  | nil => exact .pure _
  | cons d rest ih =>
    refine Maintains.bind (fun s hs ↦ ?_) fun _ ↦ ih
    have hfirst := sameBut_declareRule hs (.inr hk) d
    exact ends_discard.mpr (hfirst.mono (fun _ _ hu ↦ hu.1) fun _ hu ↦ hu)

end Action

/-! ### Operations -/

namespace Operation

open UrlRouting.Action

/-- The operation is a call that builds on a node: a directive by its name, a declaration in it, or
a move. -/
def builds (op : Operation) (t : Table) (id : NodeId) : Bool :=
  match op with
  | call node word _ => node == id && (Directive.reader? (t.isRule id) word).isSome
  | bind node _ _ | declareRule node _ | declareGroup node _ _ => node == id
  | _ => false

theorem run_sameBut {op : Operation} (h : op.builds t id = true) :
    op.run.Ends t (fun _ ↦ t.SameBut id) (t.SameBut id) := by
  have ht := Table.SameBut.refl t id
  cases op with
  | call node word args =>
    obtain ⟨hnode, hreader⟩ := Bool.and_eq_true_iff.mp h
    obtain rfl := beq_iff_eq.mp hnode
    obtain ⟨reader, hreader⟩ := Option.isSome_iff_exists.mp hreader
    refine (?_ : (Action.call node word args).Ends t (fun _ ↦ t.SameBut node) (t.SameBut node)).bind
      fun _ _ hs ↦ hs
    refine ends_bind.mpr ?_
    change Ends (_ : Action CallAnswer) t _ _
    rw [hreader]
    exact (Maintains.ofExcept _).bind (fun d ↦ (sameBut_apply d node).bind fun _ ↦ .pure _) t ht
  | bind node router parent =>
    obtain rfl := beq_iff_eq.mp h
    have hbind : Maintains (t.SameBut node) (Action.bind node router parent) :=
      (Maintains.rule node).ignoring.bind fun _ ↦ (Maintains.ensureOpen node).bind fun _ ↦
        sameBut_modifyNode (.inl rfl) _
    exact (hbind t ht).bind fun _ _ hs ↦ hs
  | declareRule node d =>
    obtain rfl := beq_iff_eq.mp h
    exact (sameBut_declareRule ht (.inl rfl) d).bind fun _ _ hs ↦ hs.1
  | declareGroup node d rules =>
    obtain rfl := beq_iff_eq.mp h
    refine (sameBut_declareGroup ht (.inl rfl) d).bind fun inner s hs ↦ ?_
    exact (sameBut_declareRules hs.2 rules s hs.1).bind fun _ _ hu ↦ hu
  | _ => cases h

/-- Building on a node leaves all other nodes as they are, whether it ends or fails. -/
theorem after_sameBut {op : Operation} (h : op.builds t id = true) : t.SameBut id (op.after t) :=
  after_of_ends (run_sameBut h)

end Operation

end UrlRouting

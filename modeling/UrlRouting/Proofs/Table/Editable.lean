import UrlRouting.Proofs.Table.GivingDomains

/-!
Own options for models. A directive edits such an option in its cell, and so could not change a map
that is in no cell. No session reaches a table with such an option (`Table.Reachable.editsModels`).
-/

namespace UrlRouting

variable {α : Type} {t s u : Table} {id : NodeId} {d : Directive} {n : Node} {op : Operation}

/-- What the slot holds can be edited, if it is a map. -/
def Slot.IsEditable (slot : Slot) : Prop := ∀ entries, slot ≠ .fixed (.map entries)

namespace Entries

variable {m m' top : Entries Slot} {slot : Slot}

/-- The models among the options can be edited, if they are a map. -/
def EditsModels (m : Entries Slot) : Prop := ∀ slot ∈ m.bindings "model", slot.IsEditable

namespace EditsModels

theorem nil : EditsModels [] := nofun

theorem congr (h : m.EditsModels)
    (hm : m'.bindings "model" = m.bindings "model") : m'.EditsModels := by
  rwa [EditsModels, hm]

theorem set (h : m.EditsModels) (key : Value) (hslot : slot.IsEditable) :
    (m.set key slot).EditsModels := by
  by_cases hkey : key = .str "model".toList
  · subst hkey
    intro other hother
    rw [bindings_set_self, List.mem_cons] at hother
    rcases hother with rfl | hother
    · exact hslot
    · exact h other (List.mem_of_mem_tail hother)
  · exact h.congr (bindings_set_of_ne hkey m slot)

theorem overlay (h : m.EditsModels) (htop : ∀ entry ∈ top, entry.2.IsEditable) :
    (m.overlay top).EditsModels := by
  induction top generalizing m with
  | nil => exact h
  | cons entry rest ih =>
    obtain ⟨hentry, hrest⟩ := List.forall_mem_cons.mp htop
    exact ih (h.set entry.1 hentry) hrest

theorem of_forall (h : ∀ entry ∈ m, entry.2.IsEditable) : m.EditsModels := by
  intro slot hslot
  obtain ⟨entry, hentry, rfl⟩ := List.mem_map.mp hslot
  exact h entry (List.mem_of_mem_filter hentry)

end EditsModels

end Entries

namespace Table

/-- Every node can edit its models, if they are a map. -/
def EditsModels (t : Table) : Prop := ∀ id, (t.node id).options.EditsModels

theorem editsModels_empty : empty.EditsModels := fun _ ↦ .nil

namespace EditsModels

theorem of_nodes (h : s.EditsModels) (hn : u.nodes = s.nodes) : u.EditsModels := by
  intro id
  rw [node, hn]
  exact h id

theorem setNode (h : s.EditsModels) (hn : n.options.EditsModels) :
    (s.setNode id n).EditsModels :=
  forall_node_setNode (motive := fun _ n ↦ n.options.EditsModels) hn h

theorem addNode (h : s.EditsModels) (hn : n.options.EditsModels) :
    EditsModels { s with nodes := s.nodes ++ [n] } :=
  forall_node_append (motive := fun _ n ↦ n.options.EditsModels) hn h

end EditsModels

end Table

namespace Action

open Table

/-! ### Directives -/

theorem keep_ends_editable (hs : s.EditsModels) (value : Value) : (keep value).Ends s
    (fun slot u ↦ u.EditsModels ∧ slot.IsEditable) EditsModels := by
  cases value with
  | list items => exact ⟨hs.of_nodes rfl, nofun⟩
  | map entries => exact ⟨hs.of_nodes rfl, nofun⟩
  | _ => exact ⟨hs, nofun⟩

theorem keepAll_ends_editable (hs : s.EditsModels) (m : Mapping) : (keepAll m).Ends s
    (fun slots u ↦ u.EditsModels ∧ ∀ entry ∈ slots, entry.2.IsEditable) EditsModels := by
  induction m generalizing s with
  | nil => exact ⟨hs, nofun⟩
  | cons entry rest ih =>
    refine (keep_ends_editable hs entry.2).bind fun slot u hu ↦ ?_
    exact (ih hu.1).bind fun slots v hv ↦ ⟨hv.1, List.forall_mem_cons.mpr ⟨hu.2, hv.2⟩⟩

theorem editsModels_putOption (id : NodeId) (name value : Value) :
    Maintains EditsModels (putOption id name value) := fun _ hs ↦
  (keep_ends_editable hs value).bind fun _ _ hu ↦ hu.1.setNode ((hu.1 id).set name hu.2)

theorem editsModels_slotOf (id : NodeId) (name initial : Value) :
    Maintains EditsModels (slotOf id name initial) := by
  intro s hs
  refine .node_bind ?_
  split
  · exact hs
  · exact (keep_ends_editable hs initial).bind fun _ u hu ↦ hu.1.setNode ((hu.1 id).set name hu.2)

theorem editsModels_layAll (id : NodeId) (m : Mapping) {a : Action Unit}
    (ha : Maintains EditsModels a) : Maintains EditsModels (do
      let slots ← keepAll m
      modifyNode id fun n ↦ { n with options := n.options.overlay slots }
      a) := fun _ hs ↦
  (keepAll_ends_editable hs m).bind fun _ _ hu ↦ ha _ (hu.1.setNode ((hu.1 id).overlay hu.2))

/-- What binds models keeps them first; all other directives leave them alone. -/
theorem editsModels_apply (d : Directive) (id : NodeId) : Maintains EditsModels (d.apply id) := by
  by_cases hd : "model".toList ∈ d.names
  · cases d with
    | options given more =>
      refine (Maintains.ensureOpen id).bind fun _ ↦ editsModels_layAll id _ ?_
      exact (Maintains.failWith _).bind fun _ ↦ editsModels_layAll id _ (a := pure ()) (.pure ())
    | option key value =>
      refine (Maintains.ensureOpen id).bind fun _ ↦ ?_
      split
      · exact editsModels_putOption id key value
      · exact .throw _
    | model subject target required =>
      refine (Maintains.ensureOpen id).bind fun _ ↦ ?_
      have hedit (slot : Slot) (f : Value → Except Fault Value) :
          Maintains EditsModels (edit slot f) := .edit (fun _ _ hs hn ↦ hs.of_nodes hn) slot f
      split
      · exact editsModels_putOption id _ _
      · refine (editsModels_slotOf id _ _).bind fun slot ↦ ?_
        split
        · exact hedit slot _
        · split <;> exact hedit slot _
    | _ => exact absurd hd (by rw [Directive.names]; decide)
  · exact Directive.Keeps.apply ⟨fun _ _ hs hn ↦ hs.of_nodes hn,
      fun s m hs hm ↦ hs.setNode ((hs id).congr (hm.bindings _ hd))⟩

/-! ### Declarations -/

theorem editsModels_add (options : Mapping) {f : Entries Slot → Node}
    (hf : ∀ slots, (f slots).options.bindings "model" = slots.bindings "model") :
    Maintains EditsModels (keepAll options >>= fun slots ↦ addNode (f slots)) := fun _ hs ↦
  (keepAll_ends_editable hs options).bind fun slots _ hu ↦
    hu.1.addNode ((Entries.EditsModels.of_forall hu.2).congr (hf slots))

theorem editsModels_newRule (router : Option RouterId) (parent : Option NodeId) (d : Declared) :
    Maintains EditsModels (newRule router parent d) :=
  (Maintains.pathOf parent).bind fun _ ↦
    editsModels_add _ fun _ ↦ bindings_declaredOptions (by decide) (by decide) _ _

theorem editsModels_newGroup (router : Option RouterId) (parent : Option NodeId)
    (d : DeclaredGroup) : Maintains EditsModels (newGroup router parent d) :=
  (Maintains.pathOf parent).bind fun _ ↦ editsModels_add _ fun _ ↦ rfl

theorem editsModels_declared {id : NodeId} {f : Option RouterId → Action NodeId}
    (hf : ∀ router, Maintains EditsModels (f router)) : Maintains EditsModels (do
      discard (group id)
      ensureOpen id
      let member ← f (← node id).router
      addMember id member
      return member) := by
  refine (Maintains.group id).ignoring.bind fun _ ↦ (Maintains.ensureOpen id).bind fun _ ↦ ?_
  refine .node_bind fun n ↦ (hf n.router).bind fun member ↦ Maintains.bind ?_ fun _ ↦ .pure member
  refine fun s hs ↦ hs.setNode ((hs id).congr ?_)
  dsimp only
  split <;> rfl

theorem editsModels_declareRule (id : NodeId) (d : Declared) :
    Maintains EditsModels (declareRule id d) :=
  editsModels_declared (f := fun router ↦ newRule router (some id) d)
    fun router ↦ editsModels_newRule router _ d

theorem editsModels_declareGroup (id : NodeId) (d : DeclaredGroup) :
    Maintains EditsModels (declareGroup id d) :=
  editsModels_declared (f := fun router ↦ newGroup router (some id) d)
    fun router ↦ editsModels_newGroup router _ d

theorem editsModels_declareRules (id : NodeId) (ds : List Declared) :
    Maintains EditsModels (declareRules id ds) := by
  induction ds with
  | nil => exact .pure _
  | cons d rest ih => exact (editsModels_declareRule id d).ignoring.bind fun _ ↦ ih

theorem editsModels_onRouter (id : RouterId) {f : NodeId → Action α}
    (hf : ∀ root, Maintains EditsModels (f root)) :
    Maintains EditsModels (do ensureRouterOpen id; f (← Action.router id).root) :=
  (Maintains.ensureRouterOpen id).bind fun _ _ hs ↦ .router_bind (hf _ _ hs)

/-- A rule that is restored from a map has kept its options. -/
theorem readState_ends_editable (hs : s.EditsModels) (m : Mapping) : (readState m).Ends s
    (fun state u ↦ u.EditsModels ∧ state.options.EditsModels) EditsModels := by
  refine (maintains_member _ m _ s hs).bind fun options u hu ↦ ?_
  refine (maintains_member _ m _ u hu).bind fun patterns u hu ↦ ?_
  refine (Maintains.ofExcept _ u hu).bind fun options u hu ↦ ?_
  refine (keepAll_ends_editable hu options).bind fun slots u hu ↦ ?_
  have hslots := Entries.EditsModels.of_forall hu.2
  refine (Maintains.ofExcept _ u hu.1).bind fun patterns u hu ↦ ?_
  refine (maintains_member _ m _ u hu).bind fun name u hu ↦ ?_
  refine (maintains_member _ m _ u hu).bind fun text u hu ↦ ?_
  refine (maintains_member _ m _ u hu).bind fun target u hu ↦ ?_
  refine (maintains_member _ m _ u hu).bind fun method u hu ↦ ?_
  cases text with
  | str text => exact ⟨hu, hslots⟩
  | _ => exact hu

end Action

/-! ### Operations -/

namespace Operation

open UrlRouting.Action

theorem run_editsModels (ht : t.EditsModels) (hasks : op.asks t = false) :
    op.run.Ends t (fun _ ↦ Table.EditsModels) Table.EditsModels := by
  have hnode {a : Action NodeId} (ha : Maintains Table.EditsModels a) :
      Ends (do return Outcome.node (← a)) t (fun _ ↦ Table.EditsModels) Table.EditsModels :=
    (ha.bind fun _ ↦ .pure _) t ht
  have hrules {a : Action NodeId} (ha : Maintains Table.EditsModels a) (rules : List Declared) :
      Ends (do
        let inner ← a
        declareRules inner rules
        return Outcome.node inner) t (fun _ ↦ Table.EditsModels) Table.EditsModels :=
    (ha.bind fun inner ↦ (editsModels_declareRules inner rules).bind fun _ ↦ .pure _) t ht
  cases op with
  | addRouter settings =>
    refine ends_bind.mpr ((Maintains.ofExcept _ t ht).bind fun config s hs ↦ .get_bind ?_)
    exact (editsModels_newGroup _ _ _ s hs).bind fun root u hu ↦ hu.of_nodes rfl
  | newRule router parent d => exact hnode (editsModels_newRule router parent d)
  | newGroup router parent d => exact hnode (editsModels_newGroup router parent d)
  | declareRule group d => exact hnode (editsModels_declareRule group d)
  | declareGroup group d rules => exact hrules (editsModels_declareGroup group d) rules
  | routeOn router d =>
    exact hnode (editsModels_onRouter router fun root ↦ editsModels_declareRule root d)
  | groupOn router d rules =>
    exact hrules (editsModels_onRouter router fun root ↦ editsModels_declareGroup root d) rules
  | call node word args =>
    have hreader : (Directive.reader? (t.isRule node) word).isSome = true := by
      rwa [asks, Option.isNone_eq_false_iff] at hasks
    obtain ⟨reader, hreader⟩ := Option.isSome_iff_exists.mp hreader
    refine ends_bind.mpr (.get_bind ?_)
    rw [hreader]
    refine ((Maintains.ofExcept _).bind fun d ↦ ?_) t ht
    exact (editsModels_apply d node).bind fun _ ↦ .pure _
  | addEverywhere router rule =>
    exact ((Maintains.ensureRouterOpen router).bind fun _ _ hs ↦ hs.of_nodes rfl).bind
      (fun _ ↦ .pure _) t ht
  | bind rule router parent =>
    refine Maintains.bind ?_ (fun _ ↦ .pure _) t ht
    exact (Maintains.rule rule).ignoring.bind fun _ ↦ (Maintains.ensureOpen rule).bind fun _ s hs ↦
      hs.setNode (hs rule)
  | copy rule =>
    refine ((stateOf_ends t rule).mono (fun _ _ hs ↦ hs) fun s hs ↦ hs ▸ ht).bind ?_
    rintro state _ ⟨rfl, hoptions⟩
    exact ht.addNode (hoptions ▸ ht rule)
  | restore state =>
    exact (readState_ends_editable ht state).bind fun _ _ hu ↦ hu.1.addNode hu.2
  | _ => cases hasks

end Operation

namespace Table

theorem EditsModels.after (h : t.EditsModels) (ht : t.Sound) (op : Operation) :
    (op.after t).EditsModels := by
  cases hasks : op.asks t with
  | true =>
    have hahead : t.Ahead (op.after t) :=
      Operation.after_of_ends (op.run_asking steady_ahead hasks ⟨ht, .refl t⟩)
    intro id
    have hoptions : ((op.after t).node id).options = (t.node id).options :=
      (congrArg Node.options (hahead.advanced.bare id) :)
    exact hoptions ▸ h id
  | false => exact Operation.after_of_ends (Operation.run_editsModels h hasks)

theorem EditsModels.afterAll {ops : List Operation} (h : t.EditsModels) (ht : t.Sound)
    (hops : t.admits ops = true) : (t.afterAll ops).EditsModels := by
  induction ops generalizing t with
  | nil => exact h
  | cons op rest ih =>
    obtain ⟨hop, hrest⟩ := Bool.and_eq_true_iff.mp hops
    exact ih (h.after ht op) (op.follows_after ht hop).sound hrest

theorem Reachable.editsModels (h : t.Reachable) : t.EditsModels := by
  obtain ⟨ops, hops, rfl⟩ := h
  exact editsModels_empty.afterAll sound_empty hops

end Table

end UrlRouting

import UrlRouting.Proofs.Options.Binders
import UrlRouting.Proofs.Table.Editable
import UrlRouting.Proofs.Table.Failing

/-!
Binding models at a node. The own models of an open node are a map in a cell, which each binding
edits (`Action.run_call_binding`), so that a row of bindings makes of them what it makes of a map
(`models?_afterAll_bindings`). Binders are numbered by the size of the map, and may take the place
of others where the map came with numbers of its own (`binders_of_reachable`).
-/

namespace UrlRouting

open Options

variable {t s : Table} {id : NodeId} {m m' : Mapping}

namespace Table

/-- The own models of a node, if they are a map. Where none are bound, they are an empty one. -/
def models? (t : Table) (id : NodeId) : Option Mapping :=
  match Entries.named? (t.ownOptions id) "model" with
  | none => some []
  | some (.map m) => some m
  | some _ => none

theorem models?_eq (t : Table) (id : NodeId) : t.models? id =
    match ((t.node id).options.get? "model").map t.read with
    | none => some []
    | some (.map m) => some m
    | some _ => none := by
  rw [models?, Entries.named?, ownOptions, get?_readAll]

/-- The own models of a node are a map that is kept in a cell. -/
structure HoldsModels (t : Table) (id : NodeId) (m : Mapping) (cell : Nat) : Prop where
  slot : (t.node id).options.get? "model" = some (.shared cell)
  cell_lt : cell < t.cells.length
  reads : t.read (.shared cell) = .map m

end Table

namespace Action

open Table

/-- Models that are not bound yet are bound to an empty map first. -/
theorem slotOf_ends_models (ht : t.Sound) (hedits : t.EditsModels) (hid : id < t.nodes.length)
    (hm : t.models? id = some m) : (slotOf id "model" (.map [])).Ends t (fun slot s ↦
      ∃ cell, slot = .shared cell ∧ s.HoldsModels id m cell ∧
        (s.node id).snapshot = (t.node id).snapshot) fun _ ↦ False := by
  obtain ⟨label, ht⟩ := ht
  rw [models?_eq] at hm
  refine .node_bind ?_
  cases hslot : (t.node id).options.get? "model" with
  | none =>
    rw [hslot] at hm
    obtain rfl : [] = m := Option.some.inj hm
    let bound : Node :=
      { t.node id with options := (t.node id).options.set "model" (.shared t.cells.length) }
    let s : Table := { t with cells := t.cells ++ [.map []] }
    have hbound : (s.setNode id bound).node id = bound := node_setNode_self hid bound
    refine ⟨t.cells.length, rfl, ⟨?_, ?_, ?_⟩, ?_⟩
    · exact (congrArg (fun n : Node ↦ n.options.get? "model") hbound).trans
        (Entries.get?_set_self _ _ _)
    · exact (List.length_append ..).symm ▸ Nat.lt_succ_self _
    · change s.read (.shared t.cells.length) = .map []
      simp [s, Table.read]
    · exact (congrArg Node.snapshot hbound :)
  | some slot =>
    rw [hslot, Option.map_some] at hm
    have hread : t.read slot = .map m := by
      cases hvalue : t.read slot with
      | map entries =>
        rw [hvalue] at hm
        rw [Option.some.inj hm]
      | _ =>
        rw [hvalue] at hm
        cases hm
    cases slot with
    | fixed value =>
      have hmem : Slot.fixed value ∈ (t.node id).options.bindings "model" :=
        List.mem_of_mem_head? (Entries.head?_bindings _ _ ▸ hslot)
      exact absurd (congrArg Slot.fixed hread) (hedits id _ hmem m)
    | shared cell => exact ⟨cell, rfl, ⟨hslot, ((ht.fits id).own.get? hslot).1, hread⟩, rfl⟩

theorem edit_ends_models {cell : Nat} (h : t.HoldsModels id m cell)
    {f : Value → Except Fault Value} (hf : f (.map m) = .ok (.map m')) :
    (edit (.shared cell) f).Ends t (fun _ s ↦ s.models? id = some m' ∧
      (s.node id).snapshot = (t.node id).snapshot) fun _ ↦ False := by
  refine .get_bind ?_
  rw [h.reads, hf]
  let s : Table := { t with cells := t.cells.set cell (.map m') }
  have hread : s.read (.shared cell) = .map m' := by simp [s, Table.read, h.cell_lt]
  have hslot : ((s.node id).options.get? "model").map s.read = some (.map m') :=
    h.slot ▸ congrArg some hread
  refine ⟨?_, rfl⟩
  change s.models? id = some m'
  rw [models?_eq, hslot]

end Action

/-! ### Bindings -/

namespace Options.Binding

def arguments : Binding → Arguments
  | binder value _ => ⟨[value], []⟩
  | parameter name model required => ⟨[.str name, model, required], []⟩

/-- The call that binds it at a node. -/
def call (b : Binding) (id : NodeId) : Operation := .call id "model" b.arguments

def directive : Binding → Directive
  | binder value _ => .model value .null (.bool true)
  | parameter name model required => .model (.str name) model required

/-- The edit of models that binds it. -/
def edit : Binding → Value → Except Fault Value
  | binder value _ => withBinder value
  | parameter name model required =>
    if model.isNull then withItem "id" (.tuple [.str name, .bool true])
    else withItem (.str name) (.tuple [model, required])

variable (b : Binding)

theorem edit_map (m : Mapping) : b.edit (.map m) = .ok (.map (b.extend m)) := by
  cases b with
  | binder value callable => rfl
  | parameter name model required =>
    rw [edit, extend]
    split <;> rfl

theorem readModel_arguments : Directive.readModel b.arguments = .ok b.directive := by
  cases b <;> rfl

theorem apply_directive (id : NodeId) : b.directive.apply id = (do
    Action.ensureOpen id
    Action.edit (← Action.slotOf id "model" (.map [])) b.edit) := by
  cases b with
  | binder value callable =>
    change Action.setModel id value .null (.bool true) = _
    rw [Action.setModel]
    · simp only [callable, if_true]
      rfl
    · rintro entries rfl
      cases callable
  | parameter name model required =>
    change Action.setModel id (.str name) model required = _
    rw [Action.setModel, edit]
    · cases model.isNull <;> rfl
    · intro entries h
      cases h

end Options.Binding

namespace Action

/-- An action that cannot fail ends. -/
theorem Ends.exists_run {α : Type} {a : Action α} {Q : α → Table → Prop}
    (h : a.Ends t Q fun _ ↦ False) : ∃ x s, a.run t = .ok x s ∧ Q x s := by
  rw [Ends] at h
  cases hrun : a.run t with
  | ok x s =>
    rw [hrun] at h
    exact ⟨x, s, rfl, h⟩
  | error e s =>
    rw [hrun] at h
    exact h.elim

theorem apply_binding_ends_models (ht : t.Reachable) (hid : t.hasNode id = true)
    (hopen : (t.node id).isCompiled = false) (hm : t.models? id = some m) (b : Binding) :
    (b.directive.apply id).Ends t (fun _ s ↦ s.models? id = some (b.extend m) ∧
      (s.node id).snapshot = (t.node id).snapshot) fun _ ↦ False := by
  rw [b.apply_directive]
  refine ends_open hopen ?_
  refine (slotOf_ends_models ht.sound ht.editsModels (of_decide_eq_true hid) hm).bind_of_safe ?_
  rintro _ s ⟨cell, rfl, hcell, hsnapshot⟩
  exact (edit_ends_models hcell (b.edit_map m)).mono
    (fun _ _ hs ↦ ⟨hs.1, hs.2.trans hsnapshot⟩) fun _ h ↦ h

/-- Whatever is bound at an open node, its models are afterwards what the binding makes of them. -/
theorem run_call_binding (ht : t.Reachable) (hid : t.hasNode id = true)
    (hopen : (t.node id).isCompiled = false) (hm : t.models? id = some m) (b : Binding) :
    ∃ s, (b.call id).run.run t = .ok (.call .itself) s ∧ s.models? id = some (b.extend m) ∧
      (s.node id).isCompiled = false := by
  obtain ⟨_, s, hrun, hs, hsnapshot⟩ :=
    (apply_binding_ends_models ht hid hopen hm b).exists_run
  have hreader : Directive.reader? (t.isRule id) "model".toList = some Directive.readModel := by
    cases t.isRule id <;> rfl
  have hcall := call_of_reader hreader b.readModel_arguments
  rw [bind_of_ok hrun] at hcall
  refine ⟨s, ?_, hs, ?_⟩
  · rw [Options.Binding.call, Operation.run, bind_of_ok hcall]
    rfl
  · rw [Node.isCompiled, hsnapshot]
    exact hopen

end Action

theorem models?_afterAll_bindings (ht : t.Reachable) (hid : t.hasNode id = true)
    (hopen : (t.node id).isCompiled = false) (hm : t.models? id = some m)
    (bindings : List Binding) :
    (t.afterAll (bindings.map (·.call id))).models? id = some (extendAll m bindings) := by
  induction bindings generalizing t m with
  | nil => exact hm
  | cons b rest ih =>
    obtain ⟨s, hrun, hs, hopen'⟩ := Action.run_call_binding ht hid hopen hm b
    have hafter : (b.call id).after t = s := Operation.after_of_run hrun
    have hop : (b.call id).isFor t = true := hid
    have hnodes := ((b.call id).follows_after ht.sound hop).later.nodes
    have hlt : id < t.nodes.length := of_decide_eq_true hid
    have hreachable := ht.after hop
    rw [hafter] at hnodes hreachable
    change (((b.call id).after t).afterAll (rest.map (·.call id))).models? id = _
    rw [hafter]
    exact ih hreachable (decide_eq_true (Nat.lt_of_lt_of_le hlt hnodes)) hopen' hs

/-- A binder is bound to the size of the own models of a node. It comes behind all others just if
that is no key yet, and otherwise takes the place of what the key was bound to. No binder is ever
lost to one that is bound later just if no number from the size on is a key. -/
theorem binders_of_reachable (ht : t.Reachable) (hid : t.hasNode id = true)
    (hopen : (t.node id).isCompiled = false) (hm : t.models? id = some m) :
    (∀ value : Value, value.isCallable = true → ∃ s m',
      (Operation.call id "model" ⟨[value], []⟩).run.run t = .ok (.call .itself) s ∧
      s.models? id = some m' ∧ m' = Entries.set m (.int m.length) value ∧
      ((∃ key, m' = m ++ [(key, value)]) ↔ m.contains (.int m.length) = false) ∧
      (m.contains (.int m.length) = true → m'.keys = m.keys)) ∧
    (HasRoom m ↔ ∀ bindings : List Binding, ∃ m',
      (t.afterAll (bindings.map (·.call id))).models? id = some m' ∧
      Appends m m' (bindings.filterMap Binding.binder?)) := by
  refine ⟨fun value hvalue ↦ ?_, ?_⟩
  · obtain ⟨s, hrun, hs, -⟩ :=
      Action.run_call_binding ht hid hopen hm (.binder value hvalue)
    exact ⟨s, _, hrun, hs, rfl, exists_set_eq_append_iff m _ value,
      fun hbound ↦ Entries.keys_set_of_contains hbound value⟩
  · rw [hasRoom_iff]
    refine forall_congr' fun bindings ↦ ?_
    rw [models?_afterAll_bindings ht hid hopen hm]
    constructor
    · exact fun h ↦ ⟨_, rfl, h⟩
    · rintro ⟨_, ⟨⟩, h⟩
      exact h

/-- A rule that is given models. -/
def Operation.givingModels (given : Mapping) : List Operation :=
  [.addRouter [], .routeOn 0 { rule := "p", target := "x" }, .call 1 "model" ⟨[.map given], []⟩]

/-- Where the given models are bound to strings, all binders are kept. -/
theorem binders_slugRule : ∃ (t : Table) (m : Mapping),
    t = Table.empty.afterAll (Operation.givingModels [("slug", .tuple ["Post", .bool true])]) ∧
    t.Reachable ∧ t.hasNode 1 = true ∧ (t.node 1).isCompiled = false ∧ t.models? 1 = some m ∧
    ∀ bindings : List Binding, ∃ m',
      (t.afterAll (bindings.map (·.call 1))).models? 1 = some m' ∧
      Appends m m' (bindings.filterMap Binding.binder?) := by
  let given : Mapping := [("slug", .tuple ["Post", .bool true])]
  let t := Table.empty.afterAll (Operation.givingModels given)
  have ht : t.Reachable := ⟨_, rfl, rfl⟩
  have hid : t.hasNode 1 = true := rfl
  have hopen : (t.node 1).isCompiled = false := rfl
  have hm : t.models? 1 = some given := rfl
  have hroom : HasRoom given := .of_hasTextKeys (by decide)
  exact ⟨t, given, rfl, ht, hid, hopen, hm, (binders_of_reachable ht hid hopen hm).2.mp hroom⟩

/-- Among models that are bound to the number one alone, the next binder takes the place of the
first. -/
theorem not_forall_binder_added : ¬∀ (t : Table) (id : NodeId) (m : Mapping) (value : Value),
    t.Reachable → t.hasNode id = true → (t.node id).isCompiled = false →
    t.models? id = some m → value.isCallable = true → ∃ s m',
      (Operation.call id "model" ⟨[value], []⟩).run.run t = .ok (.call .itself) s ∧
      s.models? id = some m' ∧ ∃ key, m'.Perm ((key, value) :: m) := by
  intro h
  let given : Mapping := [(.int 1, .function "f")]
  let t := Table.empty.afterAll (Operation.givingModels given)
  obtain ⟨s, m', hrun, hm', key, hperm⟩ :=
    h t 1 given (.function "g") ⟨_, rfl, rfl⟩ rfl rfl rfl rfl
  have hafter := Operation.after_of_run hrun
  have hmodels : ((Operation.call 1 "model" ⟨[.function "g"], []⟩).after t).models? 1 =
      some [(.int 1, .function "g")] := rfl
  rw [hafter, hm', Option.some.injEq] at hmodels
  rw [hmodels] at hperm
  have hlength : 1 = 2 := hperm.length_eq
  exact absurd hlength (by decide)

end UrlRouting

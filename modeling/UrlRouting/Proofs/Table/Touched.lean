import UrlRouting.Proofs.Table.Upkeep

/-!
What compiling and asking leave alone. An action that is given some nodes compiles no others,
whether it ends or fails (`Table.Touched`). A walk goes through what lies inside its node, which
stays where it is, and a router goes on to the rules that are valid on every domain.
-/

namespace UrlRouting

open Http

variable {t s : Table} {touched : NodeId → Prop} {closed : RouterId → Prop} {id root : NodeId}
  {n : Node}

namespace Table

/-- Some nodes may have been compiled, and some routers closed. The others are as before, and so is
what lies where. -/
structure Touched (touched : NodeId → Prop) (closed : RouterId → Prop) (t s : Table) : Prop where
  members : ∀ id, (s.node id).members = (t.node id).members
  node : ∀ id, ¬touched id → (s.node id).isCompiled = (t.node id).isCompiled
  root : ∀ id, (s.router id).root = (t.router id).root
  everywhere : ∀ id, (s.router id).everywhere = (t.router id).everywhere
  router : ∀ id, ¬closed id → (s.router id).compiled = (t.router id).compiled

namespace Touched

theorem refl (t : Table) : t.Touched touched closed t where
  members _ := rfl
  node _ _ := rfl
  root _ := rfl
  everywhere _ := rfl
  router _ _ := rfl

theorem setNode (h : t.Touched touched closed s) (hid : touched id)
    (hn : n.members = (s.node id).members) : t.Touched touched closed (s.setNode id n) where
  members := forall_node_setNode (motive := fun other n ↦ n.members = (t.node other).members)
    (hn.trans (h.members id)) h.members
  node := forall_node_setNode
    (motive := fun other n ↦ ¬touched other → n.isCompiled = (t.node other).isCompiled)
    (fun hnot ↦ absurd hid hnot) h.node
  root := h.root
  everywhere := h.everywhere
  router := h.router

theorem close (h : t.Touched touched closed s) {id : RouterId} (hid : closed id) :
    t.Touched touched closed (s.setRouter id { s.router id with compiled := true }) where
  members := h.members
  node := h.node
  root := forall_router_setRouter (motive := fun other r ↦ r.root = (t.router other).root)
    (h.root id) h.root
  everywhere := forall_router_setRouter
    (motive := fun other r ↦ r.everywhere = (t.router other).everywhere) (h.everywhere id)
    h.everywhere
  router := forall_router_setRouter
    (motive := fun other r ↦ ¬closed other → r.compiled = (t.router other).compiled)
    (fun hnot ↦ absurd hid hnot) h.router

theorem within (h : t.Touched touched closed s) (hid : s.Within root id) : t.Within root id := by
  induction hid with
  | self => exact .self
  | member _ hm ih => exact .member ih (h.members _ ▸ hm)

theorem within_of_mem_subtree (h : t.Touched touched closed s) (hid : id ∈ s.subtree root) :
    t.Within root id :=
  h.within (within_of_mem_subtreeOf hid)

end Touched

end Table

namespace Action

open Table

/-! ### Rules -/

theorem touches_modifyNode (hid : touched id) {f : Node → Node}
    (hf : ∀ n, (f n).members = n.members) :
    Maintains (t.Touched touched closed) (modifyNode id f) :=
  fun _ hs ↦ hs.setNode hid (hf _)

theorem touches_log (entry : Text) : Maintains (t.Touched touched closed) (log entry) :=
  fun _ hs ↦ ⟨hs.members, hs.node, hs.root, hs.everywhere, hs.router⟩

theorem touches_freeze (hid : touched id) : Maintains (t.Touched touched closed) (freeze id) :=
  (Maintains.effectiveSlots id).bind fun _ ↦ .get_bind fun _ ↦ touches_modifyNode hid fun _ ↦ rfl

theorem touches_expression (hid : touched id) (c : CompiledRule) (complete : Bool) :
    Maintains (t.Touched touched closed) (expression id c complete) := by
  refine (Maintains.rule id).bind fun r ↦ ?_
  split
  · exact .pure _
  · refine (Maintains.ofExcept _).bind fun text ↦ (Maintains.ofExcept _).bind fun x ↦ ?_
    refine (touches_log _).bind fun _ ↦ (touches_modifyNode hid fun n ↦ ?_).bind fun _ ↦ .pure x
    cases hb : n.body <;> simp only [Node.members, hb]

theorem touches_compileRule (hid : touched id) :
    Maintains (t.Touched touched closed) (compileRule id) := by
  refine (Maintains.rule id).ignoring.bind fun _ ↦ .node_bind fun n ↦ ?_
  split
  · exact .pure _
  · exact (touches_freeze hid).bind fun _ ↦ (Maintains.compiledRule id).bind fun c ↦
      (touches_expression hid c _).ignoring

theorem touches_capture (hid : touched id) (c : CompiledRule) (url : Text) (complete : Bool) :
    Maintains (t.Touched touched closed) (capture id c url complete) := by
  rw [capture]
  split
  · exact .pure _
  · exact (touches_expression hid c complete).bind fun _ ↦ .pure _

theorem touches_matchPath (hid : touched id) (url : Text) (asked : Bool) :
    Maintains (t.Touched touched closed) (matchPath id url asked) :=
  (touches_compileRule hid).bind fun _ ↦ (Maintains.compiledRule id).bind fun c ↦
    touches_capture hid c _ _

theorem touches_checkRule (hid : touched id) (request : Request) (url : Text)
    (asked anyDomain : Bool) :
    Maintains (t.Touched touched closed) (checkRule id request url asked anyDomain) := by
  refine (touches_compileRule hid).bind fun _ ↦ (Maintains.compiledRule id).bind fun c ↦ ?_
  refine (Maintains.ofExcept _).bind fun rejection ↦ ?_
  split
  · exact (touches_log _).bind fun _ ↦ .pure _
  · refine (touches_capture hid _ _ _).bind fun captures ↦ ?_
    split
    · exact .pure _
    · exact (Maintains.ofExcept _).bind fun _ ↦ .pure _

/-! ### Walks -/

theorem touches_firstDecision {decide : NodeId → Action (Option Dispatch)} {ids : List NodeId}
    (h : ∀ id ∈ ids, Maintains (t.Touched touched closed) (decide id)) :
    Maintains (t.Touched touched closed) (firstDecision decide ids) := by
  induction ids with
  | nil => exact .pure _
  | cons id rest ih =>
    refine (h id List.mem_cons_self).bind fun d ↦ ?_
    split
    · exact .pure _
    · exact ih fun other hmem ↦ h other (List.mem_cons_of_mem _ hmem)

theorem touches_checkWithin (request : Request) (url : Text) (asked : Bool) (depth : Nat)
    (hid : ∀ other, t.Within id other → touched other) :
    Maintains (t.Touched touched closed) (checkWithin request url asked depth id) := by
  induction depth generalizing id with
  | zero => exact .pure _
  | succ depth ih =>
    intro s hs
    refine .node_bind ?_
    cases hb : (s.node id).body with
    | rule r => exact touches_checkRule (hid id .self) request url asked false s hs
    | group g =>
      refine touches_firstDecision (fun m hm ↦ ih fun other hother ↦ ?_) s hs
      refine hid other (.head ?_ hother)
      rw [← hs.members, Node.members, hb]
      exact hm

theorem touches_check (request : Request) (url : Text) (asked : Bool)
    (hid : ∀ other, t.Within id other → touched other) :
    Maintains (t.Touched touched closed) (check id request url asked) :=
  .get_bind fun _ ↦ touches_checkWithin request url asked _ hid

theorem touches_firstAnywhere (request : Request) (url : Text) {ids : List NodeId}
    (hids : ∀ id ∈ ids, touched id) :
    Maintains (t.Touched touched closed) (firstAnywhere request url ids) := by
  induction ids with
  | nil => exact .pure _
  | cons id rest ih =>
    refine .node_bind fun n ↦ ?_
    cases n.rule? with
    | none => exact .throw _
    | some r =>
      refine (touches_checkRule (hids id List.mem_cons_self) request url false true).bind fun d ↦ ?_
      split
      · exact (touches_log _).bind fun _ ↦ .pure _
      · exact ih fun other hmem ↦ hids other (List.mem_cons_of_mem _ hmem)

theorem touches_allowedMethods (url : Text) {ids : List NodeId} (hids : ∀ id ∈ ids, touched id) :
    Maintains (t.Touched touched closed) (allowedMethods url ids) := by
  induction ids with
  | nil => exact .pure _
  | cons id rest ih =>
    have hrest := ih fun other hmem ↦ hids other (List.mem_cons_of_mem _ hmem)
    refine (touches_matchPath (hids id List.mem_cons_self) url false).bind fun captures ↦ ?_
    split
    · exact hrest
    · refine (Maintains.effectiveOptions id).bind fun options ↦ ?_
      split
      · exact .pure _
      · refine hrest.bind fun more ↦ ?_
        split <;> exact .pure _

/-! ### Nodes and routers -/

theorem touches_compileNode (hid : touched id) :
    Maintains (t.Touched touched closed) (compileNode id) := by
  refine .node_bind fun n ↦ ?_
  split
  · exact touches_compileRule hid
  · split
    · exact .pure _
    · exact touches_freeze hid

theorem touches_compileNodes {ids : List NodeId} (hids : ∀ id ∈ ids, touched id) :
    Maintains (t.Touched touched closed) (compileNodes ids) := by
  induction ids with
  | nil => exact .pure _
  | cons id rest ih =>
    exact (touches_compileNode (hids id List.mem_cons_self)).bind fun _ ↦
      ih fun other hmem ↦ hids other (List.mem_cons_of_mem _ hmem)

theorem touches_compile (hid : ∀ other, t.Within id other → touched other) :
    Maintains (t.Touched touched closed) (compile id) :=
  fun s hs ↦ ends_bind.mpr
    (touches_compileNodes (fun other hmem ↦ hid other (hs.within_of_mem_subtree hmem)) s hs)

theorem touches_compileRouter {id : RouterId} (hclosed : closed id)
    (hid : ∀ other, t.Within (t.router id).root other → touched other) :
    Maintains (t.Touched touched closed) (compileRouter id) := by
  intro s hs
  refine .router_bind ?_
  rw [hs.root]
  refine (touches_compile hid s hs).bind fun _ u hu ↦ ?_
  exact Ends.bind (R := fun _ ↦ t.Touched touched closed) (hu.close hclosed) fun _ v hv ↦
    ends_bind.mpr (touches_log _ v hv)

theorem routed_touches (h : t.Touched touched closed s) {id : RouterId} (request : Request)
    (url : Text) (hid : ∀ other, t.Within (t.router id).root other → touched other)
    (heverywhere : ∀ other ∈ (t.router id).everywhere, touched other) :
    Ends (do
      match ← check (s.router id).root request url false with
      | some d => return d
      | none =>
        match ← firstAnywhere request url (s.router id).everywhere with
        | some d => return d
        | none =>
          let allowed ← allowedMethods url ((← get).routes id)
          throw (.refusal request (allowed.getD []))) s (fun _ ↦ t.Touched touched closed)
      (t.Touched touched closed) := by
  rw [h.root, h.everywhere]
  refine (touches_check request url false hid s h).bind fun d u hu ↦ ?_
  cases d with
  | some d => exact hu
  | none =>
    refine (touches_firstAnywhere request url heverywhere u hu).bind fun d v hv ↦ ?_
    cases d with
    | some d => exact hv
    | none =>
      have hroutes : ∀ other ∈ v.routes id, touched other := by
        intro other hmem
        have hwithin := hv.within_of_mem_subtree (List.mem_filter.mp hmem).1
        rw [hv.root] at hwithin
        exact hid other hwithin
      exact ends_bind.mpr ((touches_allowedMethods url hroutes v hv).bind fun _ _ hw ↦ hw)

theorem touches_route {id : RouterId} (request : Request) (hclosed : closed id)
    (hid : ∀ other, t.Within (t.router id).root other → touched other)
    (heverywhere : ∀ other ∈ (t.router id).everywhere, touched other) :
    Maintains (t.Touched touched closed) (route id request) := by
  intro s hs
  refine .router_bind ?_
  cases (s.router id).compiled with
  | true => exact .router_bind (routed_touches hs _ _ hid heverywhere)
  | false =>
    exact (touches_compileRouter hclosed hid s hs).bind fun _ u hu ↦
      .router_bind (routed_touches hu _ _ hid heverywhere)

end Action

end UrlRouting

import UrlRouting.Proofs.Table.Frozen

/-!
What closing a router fixes. Its rules are then those that lie inside it, all of them compiled, and
whatever is done afterwards, they come to the same decisions. Rules that are valid on every domain
need not lie inside the router, and are compiled no sooner than they are asked; where they are
compiled, the router answers as before: `route_of_closed`.
-/

namespace UrlRouting

open Http

/-- Both outcomes are the same fault, or both are answers that are related. -/
inductive Corresponds {α : Type} (R : α → α → Prop) : Except Fault α → Except Fault α → Prop where
  | error (e : Fault) : Corresponds R (.error e) (.error e)
  | ok {a b : α} (h : R a b) : Corresponds R (.ok a) (.ok b)

namespace Corresponds

variable {α β : Type} {R : α → α → Prop} {S : β → β → Prop} {x y : Except Fault α}

theorem refl (h : ∀ a, R a a) (x : Except Fault α) : Corresponds R x x := by
  cases x with
  | error e => exact .error e
  | ok a => exact .ok (h a)

theorem eq (h : Corresponds Eq x y) : x = y := by
  cases h with
  | error e => rfl
  | ok h => rw [h]

theorem bind {f g : α → Except Fault β} (h : Corresponds R x y)
    (hf : ∀ a b, x = .ok a → R a b → Corresponds S (f a) (g b)) :
    Corresponds S (x >>= f) (y >>= g) := by
  cases h with
  | error e => exact .error e
  | ok h => exact hf _ _ rfl h

end Corresponds

/-- The second decision is the first one with other values of options that directives edit in
place. -/
structure Dispatch.Resembles (d d' : Dispatch) : Prop where
  options : d.options.SameApart Options.inPlace d'.options
  eq : d' = { d with options := d'.options }

variable {t s : Table} {edited : List Nat} {id : NodeId} {rid : RouterId} {request : Request}
  {url : Text} {asked anyDomain : Bool} {R : Dispatch → Dispatch → Prop}

namespace Table

theorem firstOf_corresponds {decide decide' : NodeId → Except Fault (Option Dispatch)}
    {ids : List NodeId}
    (h : ∀ id ∈ ids, Corresponds (Option.Rel R) (decide id) (decide' id)) :
    Corresponds (Option.Rel R) (firstOf decide ids) (firstOf decide' ids) := by
  induction ids with
  | nil => exact .ok .none
  | cons id rest ih =>
    refine (h id List.mem_cons_self).bind fun a b _ hab ↦ ?_
    cases hab with
    | some hab => exact .ok (.some hab)
    | none => exact ih fun other hmem ↦ h other (List.mem_cons_of_mem _ hmem)

namespace Follows

variable {ids : List NodeId}

/-- A decision of a compiled rule carries the options of the rule. -/
theorem decisionAt_resembles (h : t.Follows edited s) (ht : t.Sound)
    (hc : (t.node id).isCompiled = true) : Corresponds (Option.Rel Dispatch.Resembles)
      (t.decisionAt id request url asked anyDomain)
      (s.decisionAt id request url asked anyDomain) := by
  have hsame : t.Follows [] t := ⟨ht, .refl t⟩
  have hown : t.decisionAt id request url asked anyDomain = _ := hsame.decisionAt_eq ht hc
  rw [h.decisionAt_eq ht hc]
  rcases hd : t.decisionAt id request url asked anyDomain with e | _ | d
  · exact .error e
  · exact .ok .none
  · rw [hd] at hown
    have hoptions : d.options = (t.effectiveOptions id).on anyDomain :=
      congrArg Dispatch.options (Option.some.inj (Except.ok.inj hown))
    refine .ok (.some ⟨?_, rfl⟩)
    rw [hoptions]
    cases anyDomain with
    | false => exact h.sameApart ht hc
    | true => exact (h.sameApart ht hc).erase _

theorem decisionAt_eq_of_unheld (h : t.Follows edited s) (ht : t.Sound)
    (hc : (t.node id).isCompiled = true) (hcells : ∀ cell ∈ edited, cell ∉ t.heldCells id) :
    s.decisionAt id request url asked anyDomain = t.decisionAt id request url asked anyDomain := by
  have hsame : t.Follows [] t := ⟨ht, .refl t⟩
  rw [h.decisionAt_eq ht hc, h.effectiveOptions_eq_of_unheld ht hc hcells]
  exact (hsame.decisionAt_eq ht hc).symm

theorem anywhereAt_corresponds (h : t.Follows edited s) (hc : (t.node id).isCompiled = true)
    (hd : Corresponds (Option.Rel R) (t.decisionAt id request url false true)
      (s.decisionAt id request url false true)) :
    Corresponds (Option.Rel R) (t.anywhereAt id request url) (s.anywhereAt id request url) := by
  rw [anywhereAt, anywhereAt, h.isRule_eq hc]
  split
  · exact hd
  · exact .error _

theorem allowedOf_eq (h : t.Follows edited s) (ht : t.Sound)
    (hids : ∀ id ∈ ids, (t.node id).isCompiled = true) :
    s.allowedOf url ids = t.allowedOf url ids := by
  induction ids with
  | nil => rfl
  | cons id rest ih =>
    have hc := hids id List.mem_cons_self
    rw [allowedOf, allowedOf, h.capturesAt_eq ht hc,
      (h.sameApart ht hc).named_eq "method" (by decide),
      ih fun other hmem ↦ hids other (List.mem_cons_of_mem _ hmem)]

/-! ### Closed routers -/

theorem subtree_eq (h : t.Follows edited s) (ht : t.Sound)
    (hclosed : (t.router rid).compiled = true) :
    s.subtree (t.router rid).root = t.subtree (t.router rid).root := by
  refine (ht.closed hclosed).subtree_eq ht.nested h.later.nodes fun id hc ↦ ?_
  rw [← Node.members_bare, h.later.bare hc, Node.members_bare]

theorem routes_eq (h : t.Follows edited s) (ht : t.Sound)
    (hclosed : (t.router rid).compiled = true) : s.routes rid = t.routes rid := by
  rw [routes, routes, rulesIn, rulesIn, h.later.closed hclosed, h.subtree_eq ht hclosed]
  refine List.filter_congr fun id hid ↦ h.isRule_eq ?_
  exact ht.closed hclosed id ((mem_subtree ht.nested).mp hid)

theorem isCompiled_of_mem_routes (ht : t.Sound) (hclosed : (t.router rid).compiled = true)
    (hid : id ∈ t.routes rid) : (t.node id).isCompiled = true :=
  ht.closed hclosed id ((mem_subtree ht.nested).mp (List.mem_filter.mp hid).1)

/-- A closed router answers alike if its rules decide alike, and those that are valid on every
domain do so too, unless a decision is made before they are asked. -/
theorem routing_corresponds (h : t.Follows edited s) (ht : t.Sound)
    (hclosed : (t.router rid).compiled = true)
    (hroutes : ∀ id ∈ t.routes rid, Corresponds (Option.Rel R)
      (t.decisionAt id (t.completed rid request) (t.urlOf rid request) false false)
      (s.decisionAt id (t.completed rid request) (t.urlOf rid request) false false))
    (heverywhere : t.firstDecisionOf (t.completed rid request) (t.urlOf rid request) false
        (t.routes rid) = .ok none → ∀ id ∈ (t.router rid).everywhere, Corresponds (Option.Rel R)
      (t.anywhereAt id (t.completed rid request) (t.urlOf rid request))
      (s.anywhereAt id (t.completed rid request) (t.urlOf rid request))) :
    Corresponds R (t.routing rid request) (s.routing rid request) := by
  have hrouter := h.later.closed hclosed
  have hready : ∀ {u : Table}, (u.router rid).compiled = true →
      u.routing rid request = u.routed rid request := by
    intro u hu
    rw [routing, readying, if_pos hu]
    rfl
  have hcompleted : s.completed rid request = t.completed rid request := by
    rw [completed, completed, hrouter]
  have hurl : s.urlOf rid request = t.urlOf rid request := by rw [urlOf, urlOf, hrouter]
  rw [hready hclosed, hready (hrouter.symm ▸ hclosed), routed, routed, hcompleted, hurl, answering,
    answering, h.routes_eq ht hclosed, hrouter]
  refine (firstOf_corresponds hroutes).bind fun a b ha hab ↦ ?_
  cases hab with
  | some hab => exact .ok hab
  | none =>
    refine (firstOf_corresponds (heverywhere ha)).bind fun a b _ hab ↦ ?_
    cases hab with
    | some hab => exact .ok hab
    | none =>
      -- What is left is a refusal, with the methods that compiled rules list.
      rw [h.allowedOf_eq ht fun id ↦ isCompiled_of_mem_routes ht hclosed]
      refine (Corresponds.refl (R := Eq) (fun _ ↦ rfl) _).bind fun a b _ hab ↦ ?_
      subst hab
      exact .error _

end Follows

end Table

/-- A closed router keeps its settings, its rules, and which rules are valid on every domain,
whatever is done. It answers every request as before, up to the options of the decision that
directives edit in place, if the rules that are valid on every domain are compiled, or if it does
not come to them; and wholly as before if moreover no cell is edited that one of its rules holds. -/
theorem route_of_closed {ops : List Operation} (ht : t.Reachable)
    (hclosed : (t.router rid).compiled = true) (hops : t.admits ops = true) :
    (t.afterAll ops).router rid = t.router rid ∧
    (t.afterAll ops).routes rid = t.routes rid ∧
    ∀ request,
      ((∀ id ∈ (t.router rid).everywhere, (t.node id).isCompiled = true) ∨
          (Action.check (t.router rid).root (t.completed rid request) (t.urlOf rid request)
            false).outcome t ≠ .ok none →
        Corresponds Dispatch.Resembles ((Action.route rid request).outcome t)
          ((Action.route rid request).outcome (t.afterAll ops))) ∧
      ((∀ id ∈ (t.router rid).everywhere, (t.node id).isCompiled = true) →
        (∀ cell ∈ t.cellsEdited ops, ∀ id ∈ t.routes rid ++ (t.router rid).everywhere,
          cell ∉ t.heldCells id) →
        (Action.route rid request).outcome (t.afterAll ops) =
          (Action.route rid request).outcome t) := by
  have h := Table.follows_afterAll ops ht.sound hops
  have hroutes : ∀ id ∈ t.routes rid, (t.node id).isCompiled = true :=
    fun id ↦ Table.Follows.isCompiled_of_mem_routes ht.sound hclosed
  refine ⟨h.later.closed hclosed, h.routes_eq ht.sound hclosed, fun request ↦ ?_⟩
  rw [(Action.route_answers h.sound _ _).outcome_eq, (Action.route_answers ht.sound _ _).outcome_eq,
    (Action.check_answers ht.sound _ _ _ _).outcome_eq]
  refine ⟨fun hdecided ↦ ?_, fun heverywhere hcells ↦ ?_⟩
  · refine h.routing_corresponds ht.sound hclosed
      (fun id hid ↦ h.decisionAt_resembles ht.sound (hroutes id hid)) fun hnone id hid ↦ ?_
    rcases hdecided with hall | hmade
    · exact h.anywhereAt_corresponds (hall id hid) (h.decisionAt_resembles ht.sound (hall id hid))
    · exact absurd hnone hmade
  · have heq : ∀ id ∈ t.routes rid ++ (t.router rid).everywhere, (t.node id).isCompiled = true →
        ∀ request url asked anyDomain, Corresponds (Option.Rel Eq)
          (t.decisionAt id request url asked anyDomain)
          ((t.afterAll ops).decisionAt id request url asked anyDomain) := by
      intro id hid hc request url asked anyDomain
      rw [h.decisionAt_eq_of_unheld ht.sound hc fun cell hcell ↦ hcells cell hcell id hid]
      refine .refl (fun d ↦ ?_) _
      cases d with
      | none => exact .none
      | some d => exact .some rfl
    refine (h.routing_corresponds ht.sound hclosed (fun id hid ↦ ?_) fun _ id hid ↦ ?_).eq.symm
    · exact heq id (List.mem_append_left _ hid) (hroutes id hid) _ _ _ _
    · exact h.anywhereAt_corresponds (heverywhere id hid)
        (heq id (List.mem_append_right _ hid) (heverywhere id hid) _ _ _ _)

/-- A closed router with a rule that is valid on every domain and has been asked for its path. -/
def Table.closedRouter : Table := empty.afterAll
  [.addRouter [], .routeOn 0 { rule := "a", target := "x" },
    .newRule (some 0) none { rule := "p", target := "y" }, .addEverywhere 0 2,
    .matchPath 2 [] false, .compileRouter 0]

theorem reachable_closedRouter : Table.closedRouter.Reachable :=
  ⟨_, by decide, rfl⟩

/-- Neither a further rule nor an option of one of its rules is accepted. -/
theorem route_closedRouter : ∃ ops : List Operation, ops.length = 3 ∧
    Table.closedRouter.Reachable ∧ (Table.closedRouter.router 0).compiled = true ∧
    Table.closedRouter.admits ops = true ∧
    (∀ id ∈ (Table.closedRouter.router 0).everywhere,
      (Table.closedRouter.node id).isCompiled = true) ∧
    (∀ cell ∈ Table.closedRouter.cellsEdited ops,
      ∀ id ∈ Table.closedRouter.routes 0 ++ (Table.closedRouter.router 0).everywhere,
        cell ∉ Table.closedRouter.heldCells id) ∧
    ∀ request, (Action.route 0 request).outcome (Table.closedRouter.afterAll ops) =
      (Action.route 0 request).outcome Table.closedRouter := by
  have hclosed : (Table.closedRouter.router 0).compiled = true := by decide
  have hops : Table.closedRouter.admits [.routeOn 0 { rule := "b", target := "z" },
      .call 2 "set_method" ⟨["post"], []⟩, .call 1 "middleware" ⟨["log"], []⟩] = true := by
    decide
  have heverywhere : ∀ id ∈ (Table.closedRouter.router 0).everywhere,
      (Table.closedRouter.node id).isCompiled = true := by decide
  have hcells : ∀ cell ∈ Table.closedRouter.cellsEdited [.routeOn 0 { rule := "b", target := "z" },
      .call 2 "set_method" ⟨["post"], []⟩, .call 1 "middleware" ⟨["log"], []⟩],
      ∀ id ∈ Table.closedRouter.routes 0 ++ (Table.closedRouter.router 0).everywhere,
        cell ∉ Table.closedRouter.heldCells id := by decide
  obtain ⟨-, -, hroute⟩ := route_of_closed reachable_closedRouter hclosed hops
  exact ⟨_, rfl, reachable_closedRouter, hclosed, hops, heverywhere, hcells,
    fun request ↦ (hroute request).2 heverywhere hcells⟩

/-- A closed router with a rule that is valid on every domain and not compiled. -/
def Table.ajarRouter : Table := empty.afterAll
  [.addRouter [], .newRule (some 0) none { rule := "p", target := "x" }, .addEverywhere 0 1,
    .compileRouter 0]

theorem reachable_ajarRouter : Table.ajarRouter.Reachable :=
  ⟨_, by decide, rfl⟩

/-- A rule that is valid on every domain can be configured after its router is closed. -/
theorem not_forall_route_of_closed : ¬∀ (t : Table) (ops : List Operation) (rid : RouterId)
    (request : Request), t.Reachable → (t.router rid).compiled = true → t.admits ops = true →
    (Action.route rid request).outcome (t.afterAll ops) =
      (Action.route rid request).outcome t := by
  intro h
  have hsame := h Table.ajarRouter [.call 1 "set_method" ⟨["post"], []⟩] 0 (.bare "GET" "/p")
    reachable_ajarRouter (by decide) (by decide)
  have hmade := congrArg (fun outcome ↦ outcome.toOption.isSome) hsame
  exact absurd hmade (by decide)

end UrlRouting

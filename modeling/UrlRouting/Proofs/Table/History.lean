import Mathlib.Data.List.Find
import UrlRouting.Proofs.Table.Closed

/-!
Questions to a closed router. Answering one may keep an expression, which is the one that would be
made anew, and changes nothing else that an answer depends on. So every question is answered as if
it were the first: `outcome_afterAsking`.
-/

namespace UrlRouting

open Http

/-- What can be asked of a router and of the nodes inside it. -/
inductive Question where
  | route (request : Request)
  /-- Asks a rule or group for its decision. Only a rule can be asked on any domain. -/
  | check (node : NodeId) (request : Request) (url : Text) (complete anyDomain : Bool)
  | matchPath (rule : NodeId) (url : Text) (complete : Bool)
  | urlOf (request : Request)
  | find (name : Value)
  | routes

inductive Reply where
  | decision (dispatch : Option Dispatch)
  | captures (captures : Option Captures)
  | url (url : Text)
  | found (rule : Option NodeId)
  | rules (ids : List NodeId)

namespace Question

/-- The question is put to the router or to a node inside it. -/
def IsWithin (q : Question) (t : Table) (rid : RouterId) : Prop :=
  match q with
  | check node _ _ _ _ => node ∈ t.subtree (t.router rid).root
  | matchPath rule _ _ => rule ∈ t.routes rid
  | _ => True

def ask (rid : RouterId) : Question → Action Reply
  | route request => do return .decision (some (← Action.route rid request))
  | check node request url complete anyDomain => do
    if (← get).isRule node then
      return .decision (← Action.checkRule node request url complete anyDomain)
    else return .decision (← Action.check node request url complete)
  | matchPath rule url complete => do return .captures (← Action.matchPath rule url complete)
  | urlOf request => do return .url ((← Action.router rid).config.urlOf request)
  | find name => do return .found ((← get).find? rid name)
  | routes => do return .rules ((← get).routes rid)

def after (rid : RouterId) (t : Table) (q : Question) : Table :=
  match (q.ask rid).run t with
  | .ok _ t => t
  | .error _ t => t

end Question

/-- The table that questions leave behind, put to a router one after the other. -/
def Table.afterAsking (t : Table) (rid : RouterId) (qs : List Question) : Table :=
  qs.foldl (Question.after rid) t

variable {t s u : Table} {id : NodeId} {rid : RouterId} {request : Request} {url : Text}
  {asked anyDomain : Bool}

namespace Table

/-- What a table determines as the answer to a question. -/
def reply (t : Table) (rid : RouterId) : Question → Except Fault Reply
  | .route request => (t.routing rid request).map fun d ↦ .decision (some d)
  | .check node request url complete anyDomain =>
    (if t.isRule node then t.decisionAt node request url complete anyDomain
      else t.firstDecisionOf request url complete (t.rulesIn node)).map .decision
  | .matchPath rule url complete => (t.capturesAt rule url complete).map .captures
  | .urlOf request => .ok (.url (t.urlOf rid request))
  | .find name => .ok (.found (t.find? rid name))
  | .routes => .ok (.rules (t.routes rid))

end Table

namespace Action

theorem Answers.map {α β : Type} {a : Action α} {x : Except Fault α} (h : a.Answers t x)
    (f : α → β) : Answers (do return f (← a)) t (x.map f) := by
  have hbind := h.bind (g := fun y ↦ .ok (f y)) fun y s _ hs ↦ .pure hs.sound (f y)
  cases x with
  | error e => exact hbind
  | ok y => exact hbind

theorem ask_answers (h : t.Sound) (rid : RouterId) (q : Question) :
    (q.ask rid).Answers t (t.reply rid q) := by
  cases q with
  | route request => exact (route_answers h rid request).map fun d ↦ Reply.decision (some d)
  | check node request url complete anyDomain =>
    refine .get_bind ?_
    rw [Table.reply]
    split
    · exact (checkRule_answers h node request url complete anyDomain).map
        Reply.decision
    · exact (check_answers h node request url complete).map Reply.decision
  | matchPath rule url complete => exact (matchPath_answers h rule url complete).map Reply.captures
  | urlOf request => exact .router_bind (.pure h _)
  | find name => exact .get_bind (.pure h _)
  | routes => exact .get_bind (.pure h _)

end Action

namespace Table

/-! ### What a question leaves behind -/

theorem follows_asking (h : t.Sound) (rid : RouterId) (q : Question) :
    t.Follows [] (q.after rid t) := by
  have hanswers := Action.ask_answers h rid q
  rw [Question.after]
  cases hr : (q.ask rid).run t with
  | ok y s =>
    obtain ⟨-, hs⟩ := hanswers.run_ok hr
    exact ⟨hs.sound, .of_advanced hs.advanced⟩
  | error e s =>
    obtain ⟨-, hs, hadvanced⟩ := hanswers.run_error hr
    exact ⟨hs, .of_advanced hadvanced⟩

theorem follows_afterAsking (h : t.Sound) (rid : RouterId) (qs : List Question) :
    t.Follows [] (t.afterAsking rid qs) := by
  induction qs generalizing t with
  | nil => exact ⟨h, .refl t⟩
  | cons q rest ih =>
    have hfirst := follows_asking h rid q
    have hrest := ih hfirst.sound
    exact ⟨hrest.sound, hfirst.later.trans hrest.later⟩

/-! ### Answers of closed routers -/

namespace Follows

theorem decisionAt_same (h : t.Follows [] s) (ht : t.Sound)
    (hc : (t.node id).isCompiled = true) :
    s.decisionAt id request url asked anyDomain = t.decisionAt id request url asked anyDomain :=
  h.decisionAt_eq_of_unheld ht hc nofun

theorem rulesIn_eq (h : t.Follows [] s) (ht : t.Sound) (hid : t.Sealed id) :
    s.rulesIn id = t.rulesIn id := by
  have hsubtree : s.subtree id = t.subtree id := by
    refine hid.subtree_eq ht.nested h.later.nodes fun other hc ↦ ?_
    rw [← Node.members_bare, h.later.bare hc, Node.members_bare]
  rw [rulesIn, rulesIn, hsubtree]
  exact List.filter_congr fun other hmem ↦
    h.isRule_eq (hid other ((mem_subtree ht.nested).mp hmem))

theorem firstDecisionOf_same (h : t.Follows [] s) (ht : t.Sound) {ids : List NodeId}
    (hids : ∀ id ∈ ids, (t.node id).isCompiled = true) :
    s.firstDecisionOf request url asked ids = t.firstDecisionOf request url asked ids := by
  rw [firstDecisionOf, firstDecisionOf]
  induction ids with
  | nil => rfl
  | cons id rest ih =>
    rw [firstOf, firstOf, h.decisionAt_same ht (hids id List.mem_cons_self),
      ih fun other hmem ↦ hids other (List.mem_cons_of_mem _ hmem)]

theorem routing_same (h : t.Follows [] s) (ht : t.Sound)
    (hclosed : (t.router rid).compiled = true)
    (heverywhere : ∀ id ∈ (t.router rid).everywhere, (t.node id).isCompiled = true) :
    s.routing rid request = t.routing rid request := by
  have hsame : ∀ {id}, (t.node id).isCompiled = true → ∀ anyDomain, Corresponds (Option.Rel Eq)
      (t.decisionAt id (t.completed rid request) (t.urlOf rid request) false anyDomain)
      (s.decisionAt id (t.completed rid request) (t.urlOf rid request) false anyDomain) := by
    intro id hc anyDomain
    rw [h.decisionAt_same ht hc]
    refine .refl (fun d ↦ ?_) _
    cases d with
    | none => exact .none
    | some d => exact .some rfl
  have hroutes : Corresponds Eq (t.routing rid request) (s.routing rid request) :=
    h.routing_corresponds ht hclosed
      (fun id hid ↦ hsame (isCompiled_of_mem_routes ht hclosed hid) false)
      fun _ id hid ↦ h.anywhereAt_corresponds (heverywhere id hid) (hsame (heverywhere id hid) true)
  exact hroutes.eq.symm

theorem find?_eq (h : t.Follows [] s) (ht : t.Sound) (hclosed : (t.router rid).compiled = true)
    (name : Value) : s.find? rid name = t.find? rid name := by
  rw [find?, find?, h.routes_eq ht hclosed]
  refine List.find?_congr fun id hid ↦ ?_
  have hbare := congrArg Node.rule? (h.later.bare (isCompiled_of_mem_routes ht hclosed hid))
  have hrule := congrArg (Option.any fun r ↦ (Rule.nameText r).same name) hbare
  rw [Node.rule?_bare, Node.rule?_bare, Option.any_map, Option.any_map] at hrule
  exact hrule

/-- A router that is closed with all that it asks gives the answers that it would have given. -/
theorem reply_eq (h : t.Follows [] s) (ht : t.Sound) (hclosed : (t.router rid).compiled = true)
    (heverywhere : ∀ id ∈ (t.router rid).everywhere, id ∈ t.routes rid) {q : Question}
    (hq : q.IsWithin t rid) : s.reply rid q = t.reply rid q := by
  have hrouter := h.later.closed hclosed
  cases q with
  | route request =>
    rw [reply, reply, h.routing_same ht hclosed fun id hid ↦
      isCompiled_of_mem_routes ht hclosed (heverywhere id hid)]
  | check node request url complete anyDomain =>
    have hwithin := (mem_subtree ht.nested).mp hq
    have hsealed : t.Sealed node := fun other hother ↦
      ht.closed hclosed other (hwithin.trans hother)
    have hc := hsealed node .self
    have hids : ∀ id ∈ t.rulesIn node, (t.node id).isCompiled = true := fun id hid ↦
      hsealed id ((mem_subtree ht.nested).mp (List.mem_filter.mp hid).1)
    rw [reply, reply, h.isRule_eq hc, h.decisionAt_same ht hc, h.rulesIn_eq ht hsealed,
      h.firstDecisionOf_same ht hids]
  | matchPath rule url complete =>
    rw [reply, reply, h.capturesAt_eq ht (isCompiled_of_mem_routes ht hclosed hq)]
  | urlOf request => rw [reply, reply, urlOf, urlOf, hrouter]
  | find name => rw [reply, reply, h.find?_eq ht hclosed]
  | routes => rw [reply, reply, h.routes_eq ht hclosed]

end Follows

/-- The expressions that rules keep are those that would be made anew. -/
theorem Sound.keeps (h : t.Sound) (id : NodeId) : t.Keeps (t.node id) := by
  obtain ⟨label, h⟩ := h
  exact (h.fits id).keeps

end Table

theorem Action.same_of_compileRouter (ht : t.Sound)
    (hrun : (compileRouter rid).run t = .ok () s) : t.Same s :=
  ((compileRouter_answers ht rid).run_ok hrun).2

theorem Action.closed_of_compileRouter (hrid : t.hasRouter rid = true) (ht : t.Sound)
    (hrun : (compileRouter rid).run t = .ok () s) : (s.router rid).compiled = true := by
  have hrouter : (router rid).run t = .ok (t.router rid) t := rfl
  rw [compileRouter, EStateM.run_bind, hrouter] at hrun
  dsimp only at hrun
  rw [EStateM.run_bind] at hrun
  cases hr : (compile (t.router rid).root).run t with
  | error e u =>
    rw [hr] at hrun
    cases hrun
  | ok x u =>
    rw [hr] at hrun
    have hlength := ((compile_answers ht _).run_ok hr).2.advanced.routers
    have hlt : rid < u.routers.length := by
      rw [hlength]
      exact of_decide_eq_true hrid
    have hclose : s.router rid =
        (u.setRouter rid { u.router rid with compiled := true }).router rid := by
      cases hrun
      rfl
    rw [hclose, Table.router_setRouter, if_pos ⟨rfl, hlt⟩]

/-- A router with a rule inside a group that is valid on every domain. -/
def Table.blogRouter : Table := empty.afterAll
  [.addRouter [],
    .groupOn 0 { rule := "blog" }
      [{ rule := "<slug>", target := "blog/show", patterns := [("slug", "alpha")] }],
    .addEverywhere 0 2]

theorem reachable_blogRouter : Table.blogRouter.Reachable :=
  ⟨_, by decide +kernel, rfl⟩

end UrlRouting

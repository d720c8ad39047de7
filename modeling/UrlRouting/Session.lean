import UrlRouting.Call.Answer
import UrlRouting.Table.State

/-!
Everything that can be done to a table, as one type of operations, and the tables that operations
lead to. An operation that fails leaves behind what it had done before the fault.
-/

namespace UrlRouting

open Http

inductive Operation where
  | addRouter (settings : Mapping)
  /-- Makes a rule that is no member of its parent. -/
  | newRule (router : Option RouterId) (parent : Option NodeId) (rule : Declared)
  /-- Makes a group that is no member of its parent. -/
  | newGroup (router : Option RouterId) (parent : Option NodeId) (group : DeclaredGroup)
  | declareRule (group : NodeId) (rule : Declared)
  | declareGroup (group : NodeId) (inner : DeclaredGroup) (rules : List Declared)
  | routeOn (router : RouterId) (rule : Declared)
  | groupOn (router : RouterId) (group : DeclaredGroup) (rules : List Declared)
  | call (node : NodeId) (name : Text) (args : Arguments)
  | callRouter (router : RouterId) (name : Text) (args : Arguments)
  | addEverywhere (router : RouterId) (rule : NodeId)
  | bind (rule : NodeId) (router : Option RouterId) (parent : Option NodeId)
  | copy (rule : NodeId)
  | restore (state : Mapping)
  | compile (node : NodeId)
  | compileRouter (router : RouterId)
  /-- Asks a rule or group for its decision. Only a rule can be asked on any domain. -/
  | check (node : NodeId) (request : Request) (url : Text) (complete anyDomain : Bool)
  | matchPath (rule : NodeId) (url : Text) (complete : Bool)
  | route (router : RouterId) (request : Request)

inductive Outcome where
  | done
  | router (id : RouterId)
  | node (id : NodeId)
  | call (answer : CallAnswer)
  | captures (captures : Option Captures)
  | decision (dispatch : Option Dispatch)

namespace Action

def declareRules (id : NodeId) : List Declared → Action Unit
  | [] => return ()
  | d :: rest => do
    discard (declareRule id d)
    declareRules id rest

end Action

namespace Operation

def run : Operation → Action Outcome
  | addRouter settings => return .router (← Action.addRouter settings)
  | newRule router parent d => return .node (← Action.newRule router parent d)
  | newGroup router parent d => return .node (← Action.newGroup router parent d)
  | declareRule group d => return .node (← Action.declareRule group d)
  | declareGroup group d rules => do
    let inner ← Action.declareGroup group d
    Action.declareRules inner rules
    return .node inner
  | routeOn router d => return .node (← Action.routeOn router d)
  | groupOn router d rules => do
    let inner ← Action.groupOn router d
    Action.declareRules inner rules
    return .node inner
  | call node name args => return .call (← Action.call node name args)
  | callRouter router name args => return .call (← Action.callRouter router name args)
  | addEverywhere router rule => do
    Action.addEverywhere router rule
    return .done
  | bind rule router parent => do
    Action.bind rule router parent
    return .node rule
  | copy rule => do return .node (← Action.restore (← Action.stateOf rule))
  | restore state => do return .node (← Action.restore (← Action.readState state))
  | compile node => do
    Action.compile node
    return .done
  | compileRouter router => do
    Action.compileRouter router
    return .done
  | check node request url complete anyDomain => do
    if (← get).isRule node then
      return .decision (← Action.checkRule node request url complete anyDomain)
    else return .decision (← Action.check node request url complete)
  | matchPath rule url complete => return .captures (← Action.matchPath rule url complete)
  | route router request => return .decision (some (← Action.route router request))

def after (op : Operation) (t : Table) : Table :=
  match op.run t with
  | .ok _ t => t
  | .error _ t => t

end Operation

namespace Table

def hasNode (t : Table) (id : NodeId) : Bool := id < t.nodes.length

def hasGroup (t : Table) (id : NodeId) : Bool := t.hasNode id && !t.isRule id

def hasRouter (t : Table) (id : RouterId) : Bool := id < t.routers.length

end Table

def Operation.isFor (op : Operation) (t : Table) : Bool :=
  match op with
  | addRouter _ | restore _ => true
  | newRule router parent _ | newGroup router parent _ =>
    router.all t.hasRouter && parent.all t.hasNode
  | declareRule node _ | declareGroup node _ _ | call node _ _ | copy node | compile node
  | check node _ _ _ _ | matchPath node _ _ => t.hasNode node
  | routeOn router _ | groupOn router _ _ | callRouter router _ _ | compileRouter router
  | route router _ => t.hasRouter router
  | addEverywhere router rule => t.hasRouter router && t.hasNode rule
  | bind rule router parent =>
    t.hasNode rule && router.all t.hasRouter && parent.all t.hasGroup

namespace Table

def afterAll (t : Table) (ops : List Operation) : Table := ops.foldl (fun t op ↦ op.after t) t

def admits (t : Table) : List Operation → Bool
  | [] => true
  | op :: rest => op.isFor t && (op.after t).admits rest

def Reachable (t : Table) : Prop := ∃ ops, empty.admits ops = true ∧ t = empty.afterAll ops

end Table

end UrlRouting

import UrlRouting.Config
import UrlRouting.Regex.Match

/-!
The table of all rules, groups and routers. They refer to each other by number, since a rule knows
its group and its router, a group its members, and a router its outermost group.

An option that is a list or a map can be edited in place, and several nodes can hold the same one:
a compiled rule keeps what it inherited, and a restored rule shares what its model holds. Such an
option is kept in a cell of the table; everything else is kept by value.
-/

namespace UrlRouting

abbrev NodeId := Nat

abbrev RouterId := Nat

/-- What an option is bound to: a value, or the value in a cell. -/
inductive Slot where
  | fixed (value : Value)
  | shared (cell : Nat)

/-- The options and patterns that were in effect when a node was compiled. -/
structure Snapshot where
  options : Entries Slot
  patterns : Mapping

structure Rule where
  name : Value
  text : Text
  target : Value
  /-- The methods that the rule was declared for; a star stands for all. -/
  method : Value
  /-- The names that patterns may go by. -/
  aliases : Mapping
  /-- The expressions made so far, by whether they match completely and whether they ignore
  case. -/
  expressions : List ((Bool × Bool) × Regex)

structure Group where
  /-- The rule string that its members begin with. -/
  path : Text
  members : List NodeId

inductive Body where
  | rule (rule : Rule)
  | group (group : Group)

structure Node where
  router : Option RouterId
  parent : Option NodeId
  domain : Value
  options : Entries Slot
  patterns : Mapping
  /-- Options that are merged with inherited ones here, beyond those of the router. -/
  merged : List Value
  snapshot : Option Snapshot
  body : Body

instance : Inhabited Node := ⟨⟨none, none, .null, [], [], [], none, .group ⟨[], []⟩⟩⟩

structure Router where
  config : Config
  root : NodeId
  compiled : Bool
  /-- The rules that are tried on every domain after all others. -/
  everywhere : List NodeId
deriving Inhabited

/-- All nodes, routers and cells by number, and the log, latest entry first. -/
structure Table where
  nodes : List Node
  routers : List Router
  cells : List Value
  log : List Text

/-- Something that is done to a table. What was done before a fault stays done. -/
abbrev Action := EStateM Fault Table

namespace Node

def isCompiled (n : Node) : Bool := n.snapshot.isSome

def rule? (n : Node) : Option Rule :=
  match n.body with
  | .rule rule => some rule
  | .group _ => none

def group? (n : Node) : Option Group :=
  match n.body with
  | .rule _ => none
  | .group group => some group

end Node

namespace Rule

def nameText (r : Rule) : Value := if r.name.isTruthy then r.name else .str []

/-- The methods in small letters, which they have to be a text for. -/
def methodText (r : Rule) : Except Fault Text :=
  match r.method with
  | .str t => .ok (Text.lower t)
  | _ => .error .missingAttribute

def shownWith (r : Rule) (methods : Text) : Text :=
  "Rule(".toList ++ Text.quoted r.text ++ " -> ".toList ++
    (match r.target.name? with
      | some name => Text.quoted name
      | none => r.target.shown) ++
    " [".toList ++ methods ++ "])".toList

def shown (r : Rule) : Except Fault Text := r.methodText.map r.shownWith

end Rule

def Group.shown (g : Group) : Text :=
  "RuleGroup(".toList ++ Text.quoted g.path ++ ", ".toList ++ Text.ofNat g.members.length ++
    " children)".toList

def Node.shown (n : Node) : Except Fault Text :=
  match n.body with
  | .rule rule => rule.shown
  | .group group => .ok group.shown

namespace Table

def empty : Table := ⟨[], [], [], []⟩

instance : Inhabited Table := ⟨empty⟩

def node (t : Table) (id : NodeId) : Node := t.nodes[id]?.getD default

def router (t : Table) (id : RouterId) : Router := t.routers[id]?.getD default

def read (t : Table) : Slot → Value
  | .fixed value => value
  | .shared cell => t.cells[cell]?.getD .null

def readAll (t : Table) (options : Entries Slot) : Mapping :=
  options.map fun (name, slot) ↦ (name, t.read slot)

/-- The settings that a node works under: those of its router, or else the default ones. -/
def configOf (t : Table) (n : Node) : Config :=
  match n.router with
  | some id => (t.router id).config
  | none => default

def setNode (t : Table) (id : NodeId) (n : Node) : Table := { t with nodes := t.nodes.set id n }

def setRouter (t : Table) (id : RouterId) (r : Router) : Table :=
  { t with routers := t.routers.set id r }

theorem node_setNode_self {t : Table} {id : NodeId} (h : id < t.nodes.length) (n : Node) :
    (t.setNode id n).node id = n := by
  simp [setNode, node, h]

theorem node_setNode_of_ne {t : Table} {id other : NodeId} (h : id ≠ other) (n : Node) :
    (t.setNode id n).node other = t.node other := by
  simp [setNode, node, h]

@[simp] theorem router_setNode (t : Table) (id : NodeId) (n : Node) (r : RouterId) :
    (t.setNode id n).router r = t.router r := rfl

@[simp] theorem read_setNode (t : Table) (id : NodeId) (n : Node) (slot : Slot) :
    (t.setNode id n).read slot = t.read slot := by
  cases slot <;> rfl

end Table

namespace Action

def node (id : NodeId) : Action Node := return (← get).node id

def router (id : RouterId) : Action Router := return (← get).router id

def modifyNode (id : NodeId) (f : Node → Node) : Action Unit :=
  modify fun t ↦ t.setNode id (f (t.node id))

def modifyRouter (id : RouterId) (f : Router → Router) : Action Unit :=
  modify fun t ↦ t.setRouter id (f (t.router id))

def addNode (n : Node) : Action NodeId :=
  modifyGet fun t ↦ (t.nodes.length, { t with nodes := t.nodes ++ [n] })

def log (entry : Text) : Action Unit := modify fun t ↦ { t with log := entry :: t.log }

def ofExcept {α : Type} : Except Fault α → Action α
  | .ok a => pure a
  | .error fault => throw fault

def rule (id : NodeId) : Action Rule := do
  match (← node id).rule? with
  | some rule => return rule
  | none => throw .missingAttribute

def group (id : NodeId) : Action Group := do
  match (← node id).group? with
  | some group => return group
  | none => throw .missingAttribute

def modifyRule (id : NodeId) (f : Rule → Rule) : Action Unit :=
  modifyNode id fun n ↦
    match n.body with
    | .rule rule => { n with body := .rule (f rule) }
    | .group _ => n

/-- Keeps a value: a list or map in a new cell, anything else as it is. -/
def keep (value : Value) : Action Slot :=
  match value with
  | .list _ | .map _ =>
    modifyGet fun t ↦ (.shared t.cells.length, { t with cells := t.cells ++ [value] })
  | value => return .fixed value

def keepAll : Mapping → Action (Entries Slot)
  | [] => return []
  | (name, value) :: rest => do return (name, ← keep value) :: (← keepAll rest)

def ensureOpen (id : NodeId) : Action Unit := do
  let n ← node id
  if n.isCompiled then throw (.frozen (← ofExcept n.shown))

def ensureRouterOpen (id : RouterId) : Action Unit := do
  if (← router id).compiled then throw .closed

end Action

end UrlRouting

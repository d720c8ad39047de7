import UrlRouting.Options.Merge
import UrlRouting.Table.Basic

/-!
What a node inherits. A node comes after its parent, which comes after its own parent, and so on;
each lays its options and patterns over those of the nodes before it. A compiled node stands on its
own: it contributes what was in effect when it was compiled.
-/

namespace UrlRouting

namespace Table

/-- At most `count` nodes of the line that leads from a node to its outermost ancestor. -/
def lineageOf (t : Table) : Nat → NodeId → List Node
  | 0, _ => []
  | count + 1, id =>
    let n := t.node id
    n ::
      match n.parent with
      | some parent => lineageOf t count parent
      | none => []

/-- The node and its ancestors, nearest first. No line is longer than the table. -/
def lineage (t : Table) (id : NodeId) : List Node := t.lineageOf (t.nodes.length + 1) id

def mergedNames (t : Table) (n : Node) : List Value := (t.configOf n).merged ++ n.merged

def combineSlots (t : Table) (inherited own : Entries Slot) (merged : List Value) :
    Entries Slot :=
  merged.foldl (fun m name ↦
    match inherited.get? name, own.get? name with
    | some base, some top =>
      match Options.merged? (t.read base) (t.read top) with
      | some value => m.set name (.fixed value)
      | none => m.set name top
    | _, _ => m) (inherited.overlay own)

def inheritOptions (t : Table) : List Node → Entries Slot
  | [] => []
  | n :: ancestors =>
    match n.snapshot with
    | some snapshot => snapshot.options
    | none =>
      if ancestors.isEmpty then n.options
      else t.combineSlots (inheritOptions t ancestors) n.options (t.mergedNames n)

def inheritPatterns : List Node → Mapping
  | [] => []
  | n :: ancestors =>
    match n.snapshot with
    | some snapshot => snapshot.patterns
    | none =>
      if ancestors.isEmpty then n.patterns
      else (inheritPatterns ancestors).overlay n.patterns

/-- The names of merged options are fit for keys wherever options are combined along a line. -/
def namesAreKeys (t : Table) : List Node → Bool
  | [] => true
  | n :: ancestors =>
    n.isCompiled || ancestors.isEmpty ||
      ((t.mergedNames n).all Value.isKey && namesAreKeys t ancestors)

def effectiveSlots (t : Table) (id : NodeId) : Entries Slot := t.inheritOptions (t.lineage id)

def effectiveOptions (t : Table) (id : NodeId) : Mapping := t.readAll (t.effectiveSlots id)

def effectivePatterns (t : Table) (id : NodeId) : Mapping := inheritPatterns (t.lineage id)

/-- The own domain of a node, or else that of its nearest ancestor that has one. -/
def domain (t : Table) (id : NodeId) : Value :=
  (((t.lineage id).map Node.domain).find? Value.isTruthy).getD (.str [])

/-! ### Members -/

/-- A node and everything declared inside it, up to a depth, in the order of declaration. -/
def subtreeOf (t : Table) : Nat → NodeId → List NodeId
  | 0, id => [id]
  | depth + 1, id =>
    id ::
      match (t.node id).body with
      | .rule _ => []
      | .group group => group.members.flatMap (subtreeOf t depth)

def subtree (t : Table) (id : NodeId) : List NodeId := t.subtreeOf t.nodes.length id

def isRule (t : Table) (id : NodeId) : Bool := (t.node id).rule?.isSome

def rulesIn (t : Table) (id : NodeId) : List NodeId := (t.subtree id).filter t.isRule

def routes (t : Table) (id : RouterId) : List NodeId := t.rulesIn (t.router id).root

def find? (t : Table) (id : RouterId) (name : Value) : Option NodeId :=
  (t.routes id).find? fun rule ↦
    (t.node rule).rule?.any fun r ↦ r.nameText.same name

end Table

namespace Action

/-- The options in effect at a node. Options to be merged need names that are fit for keys. -/
def effectiveSlots (id : NodeId) : Action (Entries Slot) := do
  let t ← get
  if t.namesAreKeys (t.lineage id) then return t.effectiveSlots id else throw .wrongType

def effectiveOptions (id : NodeId) : Action Mapping := do
  return (← get).readAll (← effectiveSlots id)

end Action

end UrlRouting

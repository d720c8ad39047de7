import UrlRouting.Call.Arguments
import UrlRouting.Options.Edit
import UrlRouting.Table.Declaration
import UrlRouting.Value.Reading

/-!
Configuration of rules and groups. A directive is one step of it; a compiled node refuses every
directive. Maps and lists that a directive is given are copied. A directive with an unfit value can
fail after it has changed something: what it changed before stays changed.
-/

namespace UrlRouting

inductive Directive where
  | options (given : Value) (more : Mapping)
  | option (key value : Value)
  | patterns (given : Value) (more : Mapping)
  | aliases (given : Value) (more : Mapping)
  | validation (parameter rule : Value)
  | defaults (given : Value)
  | filter (given : Value)
  | view (given : Value)
  | append (given : Value)
  | model (subject target required : Value)
  | validator (validator scene messages batch : Value)
  | middleware (given : Value) (parameters : List Value)
  | crossOrigin (headers : Value)
  | withoutMiddleware (given : Value)
  | merging (names : List Value)
  | domain (given : Value)
  | name (given : Value)
  | method (given : Value)
  | everywhere

namespace Action

/-! ### Own options -/

def putSlot (id : NodeId) (name : Value) (slot : Slot) : Action Unit :=
  modifyNode id fun n ↦ { n with options := n.options.set name slot }

def putOption (id : NodeId) (name value : Value) : Action Unit := do
  putSlot id name (← keep value)

def setOption (id : NodeId) (name value : Value) : Action Unit := do
  ensureOpen id
  if name.isKey then putOption id name value else throw .wrongType

def failWith : Option Fault → Action Unit
  | none => return ()
  | some fault => throw fault

/-- The slot of an option, which is bound to a value first if it is unbound. -/
def slotOf (id : NodeId) (name initial : Value) : Action Slot := do
  match (← node id).options.get? name with
  | some slot => return slot
  | none =>
    let slot ← keep initial
    putSlot id name slot
    return slot

/-- Changes the value of a slot in place. A value that is in no cell cannot be changed. -/
def edit (slot : Slot) (f : Value → Except Fault Value) : Action Unit := do
  let value ← ofExcept (f ((← get).read slot))
  match slot with
  | .fixed _ => return ()
  | .shared cell => modify fun t ↦ { t with cells := t.cells.set cell value }

/-! ### Single directives -/

def layOptions (id : NodeId) (given : Value) (more : Mapping) : Action Unit := do
  ensureOpen id
  let (entries, fault) := given.orEmpty.entries
  let slots ← keepAll entries
  modifyNode id fun n ↦ { n with options := n.options.overlay slots }
  failWith fault
  let slots ← keepAll more
  modifyNode id fun n ↦ { n with options := n.options.overlay slots }

def layPatterns (id : NodeId) (given : Value) (more : Mapping) : Action Unit := do
  ensureOpen id
  let (entries, fault) := given.orEmpty.entries
  modifyNode id fun n ↦ { n with patterns := n.patterns.overlay entries }
  failWith fault
  modifyNode id fun n ↦ { n with patterns := n.patterns.overlay more }

/-- Lays the entries of a value, then named ones, over the names that patterns may go by. -/
def layAliases (id : NodeId) (given : Value) (more : Mapping) : Action Unit := do
  discard (rule id)
  ensureOpen id
  let (entries, fault) := given.orEmpty.entries
  modifyRule id fun r ↦ { r with aliases := r.aliases.overlay entries }
  failWith fault
  modifyRule id fun r ↦ { r with aliases := r.aliases.overlay more }

def setMapping (id : NodeId) (name given : Value) : Action Unit := do
  ensureOpen id
  putOption id name (.map (← ofExcept given.toMapping))

def setValidation (id : NodeId) (name rule : Value) : Action Unit := do
  ensureOpen id
  match name with
  | .map _ => putOption id "var_rule" name
  | _ => edit (← slotOf id "var_rule" (.map [])) (Options.withItem name rule)

def setModel (id : NodeId) (subject target required : Value) : Action Unit := do
  ensureOpen id
  match subject with
  | .map _ => putOption id "model" subject
  | _ =>
    let slot ← slotOf id "model" (.map [])
    if subject.isCallable then edit slot (Options.withBinder subject)
    else if target.isNull then
      edit slot (Options.withItem "id" (.tuple [subject, .bool true]))
    else edit slot (Options.withItem subject (.tuple [target, required]))

/-- Adds entries of middleware; a list without parameters takes the place of all entries. -/
def addMiddleware (id : NodeId) (given : Value) (parameters : List Value) : Action Unit := do
  ensureOpen id
  match given, parameters with
  | .list _, [] => putOption id "middleware" given
  | _, _ =>
    let entries :=
      match given with
      | .list items | .tuple items => items
      | only => [only]
    edit (← slotOf id "middleware" (.list []))
      (Options.withEntries (entries.map fun entry ↦ .tuple [entry, .tuple parameters]))

def withNames (known names : List Value) : List Value :=
  names.foldl (fun known name ↦
    if known.any fun other ↦ other.same name then known else known ++ [name]) known

def setMethod (id : NodeId) (given : Value) : Action Unit := do
  discard (rule id)
  ensureOpen id
  let method := if given.isTruthy then given else "*"
  modifyRule id fun r ↦ { r with method := method }
  match method with
  | .str ['*'] => modifyNode id fun n ↦ { n with options := n.options.erase "method" }
  | .str t => putSlot id "method" (.fixed (.str (Text.lower t)))
  | _ => throw .missingAttribute

def makeEverywhere (id : NodeId) : Action Unit := do
  let r ← rule id
  match (← node id).router with
  | some router => addEverywhere router id
  | none => throw (.detached (← ofExcept r.shown))

end Action

def Directive.crossOriginEntry : Value := "allow_cross_domain"

def Directive.apply (d : Directive) (id : NodeId) : Action Unit :=
  match d with
  | options given more => Action.layOptions id given more
  | option key value => Action.setOption id key value
  | patterns given more => Action.layPatterns id given more
  | aliases given more => Action.layAliases id given more
  | validation parameter rule => Action.setValidation id parameter rule
  | defaults given => do
    Action.setOption id "default" (.map (← Action.ofExcept given.toMapping))
  | filter given => Action.setMapping id "filter" given
  | view given => do
    Action.setOption id "view" (.map (← Action.ofExcept given.orEmpty.toMapping))
  | append given => Action.setMapping id "append" given.orEmpty
  | model subject target required => Action.setModel id subject target required
  | validator v scene messages batch => do
    let messages ← Action.ofExcept messages.orEmpty.toMapping
    Action.setOption id "validate" (.tuple [v, scene, .map messages, batch])
  | middleware given parameters => Action.addMiddleware id given parameters
  | crossOrigin headers => do
    let headers ← Action.ofExcept headers.orEmpty.toMapping
    Action.addMiddleware id crossOriginEntry [.map headers]
  | withoutMiddleware given => do
    let items ← Action.ofExcept
      (if given.isTruthy then given.toItems else .ok [])
    Action.setOption id "without_middleware" (.list items)
  | merging names => do
    Action.ensureOpen id
    Action.modifyNode id fun n ↦ { n with merged := Action.withNames n.merged names }
  | domain given => do
    Action.ensureOpen id
    Action.modifyNode id fun n ↦ { n with domain := given }
    Action.putOption id "domain" given
  | name given => do
    discard (Action.rule id)
    Action.ensureOpen id
    Action.modifyRule id fun r ↦ { r with name := given }
  | method given => Action.setMethod id given
  | everywhere => Action.makeEverywhere id

end UrlRouting

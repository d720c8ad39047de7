import UrlRouting.Call.Named
import UrlRouting.Table.Matching

/-!
Calls by name on rules, groups and routers. A directive answers with the node itself, any other
call with a value.
-/

namespace UrlRouting

inductive CallAnswer where
  | itself
  | value (v : Value)
  | shown (t : Text)

abbrev Callee := Arguments → Action CallAnswer

namespace Callee

def plain (answer : Action CallAnswer) : Callee := fun args ↦ do
  discard (Action.ofExcept (args.bind []))
  answer

def named (answer : Value → Action CallAnswer) : Callee := fun args ↦ do
  let values ← Action.ofExcept (args.bind [.required "name"])
  answer (values.headD .null)

def namedOr (answer : Value → Value → Action CallAnswer) : Callee := fun args ↦ do
  let values ← Action.ofExcept (args.bind [.required "name", .optional "default" .null])
  answer (values.headD .null) (values.tail.headD .null)

/-- What a name is bound to. The name has to be fit for a key. -/
def look (m : Mapping) (name default : Value) : Action CallAnswer :=
  if name.isKey then return .value ((m.get? name).getD default) else throw .wrongType

def setting (config : Config) (name : Value) : Action CallAnswer := do
  return .value (← Action.ofExcept (config.setting name))

def onNode (id : NodeId) : List (Text × Callee) :=
  [("effective_options", plain do return .value (.map (← Action.effectiveOptions id))),
   ("effective_pattern", plain do return .value (.map ((← get).effectivePatterns id))),
   ("get_option", namedOr fun name default ↦ do
     look (← Action.effectiveOptions id) name default),
   ("get_pattern", named fun name ↦ do look ((← get).effectivePatterns id) name .null),
   ("config_value", named fun name ↦ do setting ((← get).configOf (← Action.node id)) name),
   ("compile", plain do
     Action.compile id
     return .value .null)]

def onRouter (id : RouterId) : List (Text × Callee) :=
  [("config_value", named fun name ↦ do setting (← Action.router id).config name),
   ("find", named fun name ↦ do
     let t ← get
     match t.find? id name with
     | some rule => return .shown (← Action.ofExcept (t.node rule).shown)
     | none => return .value .null),
   ("compile", plain do
     Action.compileRouter id
     return .value .null)]

end Callee

namespace Action

def callNamed (callees : List (Text × Callee)) (name : Text) (args : Arguments) :
    Action CallAnswer :=
  match callees.lookup name with
  | some callee => callee args
  | none => throw .missingAttribute

def call (id : NodeId) (name : Text) (args : Arguments) : Action CallAnswer := do
  match Directive.reader? ((← get).isRule id) name with
  | some reader =>
    (← ofExcept (reader args)).apply id
    return .itself
  | none => callNamed (Callee.onNode id) name args

def callRouter (id : RouterId) (name : Text) (args : Arguments) : Action CallAnswer :=
  callNamed (Callee.onRouter id) name args

end Action

end UrlRouting

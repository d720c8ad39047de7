import UrlRouting.Fault
import UrlRouting.Value.Mapping

/-!
The arguments of a call, by position and by name, and the parameters that they are bound to. A call
with too many arguments, with one that no parameter takes or with a parameter that is left open is
refused.
-/

namespace UrlRouting

/-- A parameter of a call, with the value that it has where none is given. -/
structure Parameter where
  name : Text
  default : Option Value

structure Arguments where
  positional : List Value
  named : Mapping

namespace Parameter

def required (name : Text) : Parameter := ⟨name, none⟩

def optional (name : Text) (default : Value) : Parameter := ⟨name, some default⟩

def value (p : Parameter) (named : Mapping) : Except Fault Value :=
  match (named.named? p.name).or p.default with
  | some v => .ok v
  | none => .error .wrongType

def takes (parameters : List Parameter) (name : Value) : Bool :=
  parameters.any fun p ↦ name.same (.str p.name)

def bind : List Parameter → List Value → Mapping → Except Fault (List Value)
  | [], [], named => if named.isEmpty then .ok [] else .error .wrongType
  | [], _ :: _, _ => .error .wrongType
  | p :: parameters, v :: positional, named =>
    if named.contains (.str p.name) then .error .wrongType
    else (bind parameters positional named).map (v :: ·)
  | p :: parameters, [], named =>
    if named.keys.all (takes (p :: parameters)) then
      (p :: parameters).mapM fun p ↦ p.value named
    else .error .wrongType

end Parameter

namespace Arguments

def bind (args : Arguments) (parameters : List Parameter) : Except Fault (List Value) :=
  Parameter.bind parameters args.positional args.named

/-- The value that the arguments give to a first parameter, and the positional ones that are
left. -/
def bindFirst (args : Arguments) (p : Parameter) : Except Fault (Value × List Value) :=
  match args.positional with
  | v :: rest => if args.named.isEmpty then .ok (v, rest) else .error .wrongType
  | [] => (args.bind [p]).map fun values ↦ (values.headD .null, [])

/-- The optional value given by position, and all named arguments. Their names have to be
strings. -/
def bindOpen (args : Arguments) : Except Fault (Value × Mapping) :=
  if args.named.keys.all fun name ↦ name.text?.isSome then
    match args.positional with
    | [] => .ok (.null, args.named)
    | [v] => .ok (v, args.named)
    | _ => .error .wrongType
  else .error .wrongType

/-- The positional arguments, where no named ones are taken. -/
def bindAll (args : Arguments) : Except Fault (List Value) :=
  if args.named.isEmpty then .ok args.positional else .error .wrongType

end Arguments

end UrlRouting

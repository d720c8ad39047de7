import UrlRouting.Fault
import UrlRouting.Value.Mapping

/-!
Values where a map or a list is wanted. A map may be given as a list of pairs, and a list as
anything that has items. Pairs are read one after the other, so that those before a faulty one are
known.
-/

namespace UrlRouting.Value

/-- The items of a value: the characters of a string, the keys of a map. -/
def items? : Value → Option (List Value)
  | str t => some (t.map fun c ↦ str [c])
  | list items | tuple items => some items
  | map entries => some (Entries.keys entries)
  | _ => none

def pair (v : Value) : Except Fault (Value × Value) :=
  match v.items? with
  | some [key, value] => if key.isKey then .ok (key, value) else .error .wrongType
  | some _ => .error .wrongValue
  | none => .error .wrongType

def pairs : List Value → List (Value × Value) × Option Fault
  | [] => ([], none)
  | v :: rest =>
    match v.pair with
    | .ok entry =>
      let (entries, fault) := pairs rest
      (entry :: entries, fault)
    | .error fault => ([], some fault)

/-- The entries of a map or of a list of pairs, up to the first faulty one, and the fault. -/
def entries (v : Value) : List (Value × Value) × Option Fault :=
  match v with
  | map entries => (entries, none)
  | v =>
    match v.items? with
    | some items => pairs items
    | none => ([], some .wrongType)

def toMapping (v : Value) : Except Fault Mapping :=
  match v.entries with
  | (entries, none) => .ok (Entries.ofPairs entries)
  | (_, some fault) => .error fault

def toItems (v : Value) : Except Fault (List Value) :=
  match v.items? with
  | some items => .ok items
  | none => .error .wrongType

def orEmpty (v : Value) : Value := if v.isTruthy then v else .map []

end UrlRouting.Value

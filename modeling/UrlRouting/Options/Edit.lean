import UrlRouting.Fault
import UrlRouting.Value.Mapping

/-!
Changes to an option that is a list or a map: binding an item, adding a binder of variables under
the next free number, and adding entries at the end. A value of another form refuses them.
-/

namespace UrlRouting.Options

/-- The position in a list of a given length that a value points at; negative ones count from the
end. -/
def position (length : Nat) (key : Value) : Except Fault Nat :=
  let inside (i : Int) : Except Fault Nat :=
    let i := if i < 0 then i + length else i
    if 0 ≤ i && i < length then .ok i.toNat else .error .outOfRange
  match key with
  | .int i => inside i
  | .bool b => inside (if b then 1 else 0)
  | _ => .error .wrongType

def withItem (key value : Value) : Value → Except Fault Value
  | .map entries =>
    if key.isKey then .ok (.map (Entries.set entries key value)) else .error .wrongType
  | .list items => (position items.length key).map fun i ↦ .list (items.set i value)
  | _ => .error .wrongType

/-- Binds the number of entries to a binder. A list has no item of that number. -/
def withBinder (binder : Value) : Value → Except Fault Value
  | .map entries => .ok (.map (Entries.set entries (.int entries.length) binder))
  | .list _ => .error .outOfRange
  | _ => .error .wrongType

def withEntries (entries : List Value) : Value → Except Fault Value
  | .list items => .ok (.list (items ++ entries))
  | v => if entries.isEmpty then .ok v else .error .missingAttribute

end UrlRouting.Options

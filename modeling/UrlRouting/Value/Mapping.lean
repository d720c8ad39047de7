import UrlRouting.Value.Basic

/-!
Maps in insertion order. A key keeps its place, and its first spelling, when what it is bound to is
replaced.
-/

namespace UrlRouting

/-- Keys with what they are bound to, in insertion order. Keys are compared by `Value.same`, so no
two of them are the same. -/
abbrev Entries (α : Type) := List (Value × α)

abbrev Mapping := Entries Value

namespace Entries

variable {α : Type}

def get? : Entries α → Value → Option α
  | [], _ => none
  | (k, a) :: rest, key => if k.same key then some a else get? rest key

def contains (m : Entries α) (key : Value) : Bool := (m.get? key).isSome

/-- Binds a key: in its place if it is bound, at the end otherwise. -/
def set : Entries α → Value → α → Entries α
  | [], key, a => [(key, a)]
  | (k, b) :: rest, key, a => if k.same key then (k, a) :: rest else (k, b) :: set rest key a

def setDefault (m : Entries α) (key : Value) (a : α) : Entries α :=
  if m.contains key then m else m.set key a

def erase (m : Entries α) (key : Value) : Entries α := m.filter fun entry ↦ !entry.1.same key

def overlay (base top : Entries α) : Entries α :=
  top.foldl (fun m entry ↦ m.set entry.1 entry.2) base

/-- The map of a list of entries, where a later entry replaces an earlier one. -/
def ofPairs (pairs : List (Value × α)) : Entries α := overlay [] pairs

def keys (m : Entries α) : List Value := m.map Prod.fst

def values (m : Entries α) : List α := m.map Prod.snd

def named? (m : Entries α) (name : Text) : Option α := m.get? (.str name)

end Entries

/-- What a string key is bound to, an unbound one counting as null. -/
def Mapping.named (m : Mapping) (name : Text) : Value := (m.named? name).getD .null

end UrlRouting

import UrlRouting.Fault
import UrlRouting.Http.Fields

/-!
Request headers. Names are kept in small letters and looked up without regard to case. Names and
values are Latin-1, so that a header holds no character beyond U+00FF.
-/

namespace UrlRouting.Http

structure Headers where
  fields : Fields
deriving DecidableEq

namespace Headers

/-- The headers of a list of pairs; of a repeated name the first value counts. -/
def ofPairs (pairs : List (Text × Text)) : Headers :=
  ⟨Fields.ofPairs (pairs.map fun (name, value) ↦ (Text.lower name, value))⟩

/-- The text of octets, each of which stands for the character with its number. -/
def decoded (octets : List UInt8) : Text := octets.map fun octet ↦ Char.ofNat octet.toNat

/-- The headers of pairs of octets, as a server interface hands them over. -/
def ofOctets (raw : List (List UInt8 × List UInt8)) : Headers :=
  ofPairs (raw.map fun (name, value) ↦ (decoded name, decoded value))

def none : Headers := ⟨[]⟩

def latin (t : Text) : Except Fault Text :=
  if t.all fun c ↦ decide (c.toNat ≤ 0xFF) then .ok t else .error .notLatin

/-- One header of a map of names and values; values are written as plain text. -/
def ofEntry (entry : Value × Value) : Except Fault (Text × Text) :=
  match entry.1 with
  | .str name => do return (← latin (Text.lower name), ← latin entry.2.plain)
  | _ => .error .missingAttribute

def ofMapping (m : Mapping) : Except Fault Headers := do return ofPairs (← m.mapM ofEntry)

def get? (h : Headers) (name : Text) : Option Text := h.fields.get? (Text.lower name)

def contains (h : Headers) (name : Text) : Bool := (h.get? name).isSome

/-- The value of a header that has to be there. -/
def item (h : Headers) (name : Text) : Except Fault Text :=
  match h.fields.get? (Text.lower name) with
  | some value => .ok value
  | Option.none => .error .missingKey

def getOr (h : Headers) (name : Text) (default : Option Text) : Option Text :=
  (h.fields.get? (Text.lower name)).or default

def names (h : Headers) : List Text := h.fields.map Prod.fst

def size (h : Headers) : Nat := h.fields.length

/-- The header in small letters, an absent one counting as empty. -/
def lowered (h : Headers) (name : Text) : Text := Text.lower ((h.get? name).getD [])

def shown (h : Headers) : Text :=
  "Headers(".toList ++
    (Value.map (h.fields.map fun (name, value) ↦ (.str name, .str value))).shown ++ [')']

end Headers

end UrlRouting.Http

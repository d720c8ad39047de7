import UrlRouting.Http.Fields
import UrlRouting.Text.Percent
import UrlRouting.Text.Quoted

/-!
Query strings. Pairs are separated by ampersands, a name from its value by the first equals sign; a
name without a value has the empty one. A plus sign stands for a blank, and escapes are resolved
after the string has been taken apart.
-/

namespace UrlRouting.Http

/-- The parameters of a query string, and the string itself without a leading question mark. -/
structure Query where
  raw : Text
  fields : Fields
deriving DecidableEq

namespace Query

def decode (t : Text) : Text := Text.Percent.decode (t.map fun c ↦ if c = '+' then ' ' else c)

def readPair (t : Text) : Text × Text :=
  match Text.cut? '=' t with
  | some (name, value) => (decode name, decode value)
  | none => (decode t, [])

/-- The pairs of a query string in order; empty pieces are passed over. -/
def pairs (t : Text) : List (Text × Text) :=
  ((Text.splitAt '&' t).filter (!·.isEmpty)).map readPair

def withoutMark : Text → Text
  | '?' :: rest => rest
  | t => t

/-- The parameters of a query string; of a repeated name the first value counts. -/
def ofText (t : Text) : Query :=
  let raw := withoutMark t
  ⟨raw, Fields.ofPairs (pairs raw)⟩

/-- The parameters of a query string that comes as octets, each of which stands for the character
with its number. -/
def ofOctets (octets : List UInt8) : Query :=
  ofText (octets.map fun octet ↦ Char.ofNat octet.toNat)

def get? (q : Query) (name : Text) : Option Text := q.fields.get? name

def shown (q : Query) : Text := "QueryParams(".toList ++ Text.quoted q.raw ++ [')']

end Query

end UrlRouting.Http

import UrlRouting.Fault
import UrlRouting.Text.CharClass
import UrlRouting.Value.Mapping
import UrlRouting.Decimal.Numeral

/-!
The variables of a match. Captured groups come first; where none of them holds the delimiter, the
part of the URL that the rule does not consume is read as `name/value` pairs and laid over them;
names that are still unbound take the default values of the rule. Variables with a numeric pattern
become numbers.
-/

namespace UrlRouting.Variables

/-! ### Values of the URL -/

/-- The text without tags, given whether it starts inside one. A tag that is not closed reaches to
the end. -/
def stripTagsFrom : Bool → Text → Text
  | _, [] => []
  | true, c :: rest => stripTagsFrom (c != '>') rest
  | false, c :: rest => if c = '<' then stripTagsFrom true rest else c :: stripTagsFrom false rest

def stripTags (t : Text) : Text := stripTagsFrom false t

/-- The name and the value at the head of a text: a word, a slash, and all up to the next slash. -/
def pairAt? (t : Text) : Option (Text × Text) :=
  match t.takeWhile Text.isWord, t.dropWhile Text.isWord with
  | [], _ => none
  | name, '/' :: rest =>
    match rest.takeWhile (· != '/') with
    | [] => none
    | value => some (name, value)
  | _, _ => none

/-- The pairs of a text, after `skip` characters of the pair at hand. -/
def pairsAfter : Nat → Text → List (Text × Text)
  | _, [] => []
  | skip + 1, _ :: rest => pairsAfter skip rest
  | 0, c :: rest =>
    match pairAt? (c :: rest) with
    | some (name, value) => (name, value) :: pairsAfter (name.length + value.length) rest
    | none => pairsAfter 0 rest

/-- The parameters that a text of `name/value` pairs binds, tags left out of the values. -/
def ofPairText (t : Text) : Mapping :=
  Entries.ofPairs ((pairsAfter 0 t).map fun (name, value) ↦ (.str name, .str (stripTags value)))

/-- The parts of a URL beyond those that a rule consumes: one more than it has slashes. -/
def unconsumed (rule url delimiter : Text) : List Text :=
  (Text.splitOn delimiter url).drop (rule.count '/' + 1)

/-- The parameters in the part of a URL that a rule does not consume. A delimiter has to be a text
that is not empty. -/
def extra (rule url : Text) : Value → Except Fault Mapping
  | .str [] => .error .wrongValue
  | .str delimiter => .ok (ofPairText (Text.join "/" (unconsumed rule url delimiter)))
  | _ => .error .wrongType

/-! ### Numbers -/

/-- A string as the number that its pattern announces; all else is left as it is. -/
def coerce (value pattern : Value) : Value :=
  match value, pattern with
  | .str t, .str p =>
    if p = "int".toList || p = "\\d+".toList then
      match Decimal.readInt? t with
      | some i => .int i
      | none => value
    else if p = "float".toList then
      match Decimal.readFloat? t with
      | some x => .float x
      | none => value
    else value
  | _, _ => value

/-! ### The variables of a match -/

def reserved : List Text := ["__module__", "__controller__", "__action__"]

def holdsDelimiter (delimiter : Value) : Value → Except Fault Bool
  | .str t =>
    match delimiter with
    | .str d => .ok (Text.occursIn d t)
    | _ => .error .wrongType
  | .list items | .tuple items => .ok (items.any fun item ↦ item.same delimiter)
  | .map entries =>
    if delimiter.isKey then .ok (Entries.contains entries delimiter) else .error .wrongType
  | _ => .error .wrongType

/-- Some value holds the delimiter; the values are asked in order until one does. -/
def anyHoldsDelimiter (delimiter : Value) : List Value → Except Fault Bool
  | [] => .ok false
  | v :: rest => do
    if ← holdsDelimiter delimiter v then return true
    anyHoldsDelimiter delimiter rest

def withDefaults (found : Mapping) : Value → Mapping
  | .map entries => entries.foldl (fun m entry ↦ m.setDefault entry.1 entry.2) found
  | _ => found

def isReserved (name : Value) : Bool := name.text?.any reserved.contains

def surface (patterns found : Mapping) : Mapping :=
  (found.filter fun entry ↦ !isReserved entry.1).map fun (name, value) ↦
    (name, coerce value ((patterns.get? name).getD .null))

/-- The variables of a match of `rule` against `url`, where `groups` holds what the groups of the
expression captured. -/
def extract (groups : Mapping) (rule url : Text) (patterns options : Mapping)
    (delimiter : Value) : Except Fault Mapping := do
  let captured : Mapping := groups.filter fun entry ↦ !entry.2.isNull
  let found ←
    if ← anyHoldsDelimiter delimiter captured.values then pure captured
    else do pure (captured.overlay (← extra rule url delimiter))
  return surface patterns (withDefaults found (options.named "default"))

end UrlRouting.Variables

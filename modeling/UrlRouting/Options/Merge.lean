import UrlRouting.Value.Mapping

/-!
Laying options over inherited ones. Own options win, except those that are declared to be merged:
lists are joined, inherited entries first, and maps are united, with entries under integer keys
moved to fresh keys so that none of them is lost.
-/

namespace UrlRouting.Options

/-- The key is an integer, or a truth value, which counts as one. -/
def isPosition : Value → Bool
  | .int _ | .bool _ => true
  | _ => false

def lastPosition? : Mapping → Option Int
  | [] => none
  | (key, _) :: rest =>
    if isPosition key then
      let position := key.toInt?.getD 0
      some (((lastPosition? rest).map (max position)).getD position)
    else lastPosition? rest

def nextPosition (m : Mapping) : Int := (lastPosition? m).elim 0 (· + 1)

/-- Adds entries to a map: those under integer keys at `next` and beyond, the others under their
own keys. -/
def absorb : Mapping → Int → Mapping → Mapping
  | m, _, [] => m
  | m, next, (key, value) :: rest =>
    if isPosition key then absorb (m.set (.int next) value) (next + 1) rest
    else absorb (m.set key value) next rest

def items? : Value → Option (List Value)
  | .list items | .tuple items => some items
  | _ => none

def merged? (inherited own : Value) : Option Value :=
  match inherited, own with
  | .map base, .map top => some (.map (absorb base (nextPosition base) top))
  | .map base, own => (items? own).map fun items ↦ .list (Entries.values base ++ items)
  | inherited, .map top => (items? inherited).map fun items ↦ .list (items ++ Entries.values top)
  | inherited, own =>
    (items? inherited).bind fun first ↦ (items? own).map fun second ↦ .list (first ++ second)

/-- An option that is defined on both sides. Where the values are not merged, the own one wins. -/
def mergeValue (inherited own : Value) : Value := (merged? inherited own).getD own

/-- Lays own options over inherited ones and merges those that are named and present on both
sides. -/
def combine (inherited own : Mapping) (merged : List Value) : Mapping :=
  merged.foldl (fun m name ↦
    match inherited.get? name, own.get? name with
    | some base, some top => m.set name (mergeValue base top)
    | _, _ => m) (inherited.overlay own)

end UrlRouting.Options

import UrlRouting.Fault
import UrlRouting.Template.Synthesis

/-!
The settings of a router. They are fixed when the router is made and shared by all its rules.
-/

namespace UrlRouting

def Config.reservedMarks : Text := "_<>?\x7b\x7d[]:$"

def Config.isDelimiter (c : Char) : Bool :=
  !Text.isAlphanumeric c && !Config.reservedMarks.contains c

structure Config where
  delimiter : Char := '/'
  fallback : Text := Template.defaultPattern
  completeMatch : Bool := false
  removeSlash : Bool := false
  merged : List Value := ["model", "append", "middleware"]
  namespaceMark : Text := "."
  rootDomain : Option Text := none
  isDelimiter_delimiter : Config.isDelimiter delimiter = true := by decide

namespace Config

instance : Inhabited Config := ⟨{}⟩

def delimiterText (c : Config) : Text := [c.delimiter]

def withDelimiter (c : Config) (given : Value) : Except Fault Config :=
  match given with
  | .str [d] =>
    if h : isDelimiter d = true then .ok { c with delimiter := d, isDelimiter_delimiter := h }
    else .error (.badDelimiter given)
  | .str _ => .error (.badDelimiter given)
  | .list items | .tuple items =>
    .error (if items.length = 1 then .missingAttribute else .badDelimiter given)
  | .map entries => .error (if entries.length = 1 then .missingAttribute else .badDelimiter given)
  | _ => .error .wrongType

def readNames : Value → Except Fault (List Value)
  | .list items | .tuple items => .ok items
  | _ => .error .wrongType

def withSetting (c : Config) (name : Text) (given : Value) : Except Fault Config :=
  if name = "default_route_pattern".toList then .ok { c with fallback := given.plain }
  else if name = "complete_match".toList then .ok { c with completeMatch := given.isTruthy }
  else if name = "remove_slash".toList then .ok { c with removeSlash := given.isTruthy }
  else if name = "merge_options".toList then
    (readNames given).map fun names ↦ { c with merged := names }
  else if name = "namespace_separator".toList then
    match given with
    | .str t => .ok { c with namespaceMark := t }
    | _ => .error .wrongType
  else if name = "root_domain".toList then
    match given with
    | .null => .ok { c with rootDomain := none }
    | .str t => .ok { c with rootDomain := some t }
    | _ => .error .wrongType
  else if name = "path_delimiter".toList then .ok c
  else .error .wrongType

def withSettings (c : Config) : Mapping → Except Fault Config
  | [] => .ok c
  | (.str name, given) :: rest => (c.withSetting name given).bind fun c ↦ c.withSettings rest
  | _ :: _ => .error .wrongType

/-- The settings given by name; all others have their defaults. The delimiter is checked last. -/
def ofMapping (settings : Mapping) : Except Fault Config := do
  let c ← withSettings {} settings
  match settings.named? "path_delimiter" with
  | some given => c.withDelimiter given
  | none => .ok c

def settings (c : Config) : List (Text × Value) :=
  [("path_delimiter", .str [c.delimiter]),
   ("default_route_pattern", .str c.fallback),
   ("complete_match", .bool c.completeMatch),
   ("remove_slash", .bool c.removeSlash),
   ("merge_options", .tuple c.merged),
   ("namespace_separator", .str c.namespaceMark),
   ("root_domain", (c.rootDomain.map Value.str).getD .null)]

def setting (c : Config) (name : Value) : Except Fault Value :=
  match name with
  | .str t =>
    match c.settings.lookup t with
    | some value => .ok value
    | none => .error (.unknownSetting name)
  | _ => .error .wrongType

end Config

end UrlRouting

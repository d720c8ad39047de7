import UrlRouting.Table.Basic

/-!
Modules in which a command finds routers. A router is named by its module and, after a colon, by
the name it has there; the name may be left out. In place of a router, a module may hold a factory
that makes one.
-/

namespace UrlRouting.CommandLine

inductive Entry where
  | router (id : RouterId)
  | rule
  | group
  | value (v : Value)
  | object (cls : Text)
  | factory (made : Except Text Entry)

abbrev Catalogue := List (Text × List (Text × Entry))

namespace Entry

def classOfValue : Value → Text
  | .null => "NoneType"
  | .bool _ => "bool"
  | .int _ => "int"
  | .float _ => "float"
  | .str _ => "str"
  | .list _ => "list"
  | .tuple _ => "tuple"
  | .map _ => "dict"
  | .function _ | .guard _ => "function"
  | .type _ | .dispatch _ => "type"

def className : Entry → Text
  | router _ => "Router"
  | rule => "Rule"
  | group => "RuleGroup"
  | value v => classOfValue v
  | object cls => cls
  | factory _ => "function"

/-- What an entry gives when it is called as a factory. A class makes an object; an entry that
cannot be called stands for itself. -/
def made : Entry → Except Text Entry
  | factory made => made
  | value (.type name) => .ok (object name)
  | value (.dispatch cls) => .ok (object cls.name)
  | value (.function _) | value (.guard _) => .ok (value .null)
  | entry => .ok entry

end Entry

namespace Catalogue

def defaultName : Text := "router"

/-- The names of a module and of all modules around it, outermost first. -/
def enclosing (name : Text) : List Text :=
  let parts := Text.splitAt '.' name
  (List.range parts.length).map fun i ↦ Text.join "." (parts.take (i + 1))

/-- What is said of a module that is missing; `outer` is the module around it, if there is one. -/
def missing (name : Text) (outer : Option Text) : Text :=
  "No module named ".toList ++ Text.quoted name ++
    match outer with
    | none => []
    | some outer => "; ".toList ++ Text.quoted outer ++ " is not a package".toList

/-- Looks for modules one inside the other. No module holds further ones. -/
def descend (c : Catalogue) (outer : Option Text) :
    List Text → List (Text × Entry) → Except Text (List (Text × Entry))
  | [], found => .ok found
  | name :: rest, _ =>
    match outer, c.lookup name with
    | none, some entries => descend c (some name) rest entries
    | _, _ => .error (missing name outer)

/-- What a module holds, or what is said if it cannot be found. A module needs a name, and not one
that is relative to another module. -/
def module (c : Catalogue) (name : Text) : Except Fault (Except Text (List (Text × Entry))) :=
  if name.isEmpty then .error .wrongValue
  else if Text.startsWith name "." then
    .ok (.error ("the 'package' argument is required to perform a relative import for ".toList ++
      Text.quoted name))
  else .ok (c.descend none (enclosing name) [])

def unknown (name member : Text) : Text :=
  "module ".toList ++ Text.quoted name ++ " has no attribute ".toList ++ Text.quoted member

def entry (c : Catalogue) (t : Text) : Except Fault (Except Text Entry) := do
  let (name, member) := (Text.cut? ':' t).getD (t, [])
  let member := if member.isEmpty then defaultName else member
  match ← c.module name with
  | .error said => return .error said
  | .ok entries =>
    match entries.lookup member with
    | some found => return .ok found
    | none => return .error (unknown name member)

/-- The router that a text of module and name stands for, or what is said if it stands for none. -/
def router (c : Catalogue) (t : Text) : Except Fault (Except Text RouterId) := do
  match ← c.entry t with
  | .error said => return .error said
  | .ok found =>
    match found.made with
    | .error said =>
      return .error ("Router factory ".toList ++ Text.quoted t ++ " failed: ".toList ++ said)
    | .ok (.router id) => return .ok id
    | .ok other =>
      return .error (Text.quoted t ++ " resolved to ".toList ++ other.className ++
        ", not a pathrule.Router instance".toList)

end Catalogue

end UrlRouting.CommandLine

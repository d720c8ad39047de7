import UrlRouting.Fault
import UrlRouting.Template.Synthesis
import UrlRouting.Value.Mapping

/-!
Patterns that are given in maps. A variable of a rule needs a pattern that is a string, or none at
all; what else the maps hold does not matter.
-/

namespace UrlRouting.Template

def Patterns.ofMapping (m : Mapping) : Patterns :=
  m.filterMap fun (name, pattern) ↦
    match name, pattern with
    | .str n, .str p => some (n, p)
    | _, _ => none

def Patterns.toMapping (patterns : Patterns) : Mapping :=
  patterns.map fun (name, pattern) ↦ (.str name, .str pattern)

def builtIn : Mapping := namedPatterns.toMapping

def isText (m : Mapping) (name : Text) : Bool := (m.named? name).all fun v ↦ v.text?.isSome

def hasText (patterns aliases : Mapping) (name : Text) : Bool :=
  isText patterns name &&
    (((patterns.named? name).bind Value.text?).all fun pattern ↦ isText aliases pattern)

def variableNames (delimiter : Text) (tokens : List Text) : List Text :=
  (tokens.filterMap (Variable.ofToken? delimiter)).map Variable.name

def Setting.withMaps (s : Setting) (patterns aliases : Mapping) (tokens : List Text) :
    Except Fault Setting :=
  if (variableNames s.delimiter tokens).all (hasText patterns aliases) then
    .ok { s with patterns := .ofMapping patterns, aliases := .ofMapping aliases }
  else .error .wrongType

end UrlRouting.Template

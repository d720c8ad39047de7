import UrlRouting.Table.Declaration
import UrlRouting.Value.Reading

/-!
The state of a rule as a map, and rules restored from such maps. A state holds what the rule was
declared and configured with, but neither its router, its parent nor the names that its patterns
may go by; a restored rule is attached to a router and a parent by binding it.
-/

namespace UrlRouting

structure RuleState where
  name : Value
  text : Text
  target : Value
  method : Value
  options : Entries Slot
  patterns : Mapping

namespace RuleState

def toMapping (t : Table) (s : RuleState) : Mapping :=
  [("name", s.name), ("rule", .str s.text), ("route", s.target), ("method", s.method),
   ("option", .map (t.readAll s.options)), ("pattern", .map s.patterns)]

end RuleState

namespace Action

def stateOf (id : NodeId) : Action RuleState := do
  let n ← node id
  let r ← rule id
  return ⟨r.name, r.text, r.target, r.method, n.options, n.patterns⟩

/-- A new rule with a state. Lists and maps among the options are those of the state. -/
def restore (s : RuleState) : Action NodeId :=
  addNode
    { router := none
      parent := none
      domain := .null
      options := s.options
      patterns := s.patterns
      merged := []
      snapshot := none
      body := .rule
        { name := s.name
          text := s.text
          target := s.target
          method := s.method
          aliases := Template.builtIn
          expressions := [] } }

def member (m : Mapping) (name : Text) : Action Value :=
  match m.named? name with
  | some v => return v
  | none => throw .missingKey

def readState (m : Mapping) : Action RuleState := do
  let options ← member m "option"
  let patterns ← member m "pattern"
  let options ← keepAll (← ofExcept options.orEmpty.toMapping)
  let patterns ← ofExcept patterns.orEmpty.toMapping
  let name ← member m "name"
  let text ← member m "rule"
  let target ← member m "route"
  let method ← member m "method"
  match text with
  | .str text => return ⟨name, text, target, method, options, patterns⟩
  | _ => throw .wrongType

end Action

end UrlRouting

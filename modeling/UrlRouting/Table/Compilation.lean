import UrlRouting.Table.CompiledRule
import UrlRouting.Table.Inheritance

/-!
Compiling. A compiled node keeps the options and patterns that were in effect when it was compiled,
and can no longer be configured. The expressions of a rule are made when they are first asked for
and kept.
-/

namespace UrlRouting

namespace Table

def compiledRule (t : Table) (n : Node) (r : Rule) : CompiledRule :=
  let snapshot := n.snapshot.getD ⟨[], []⟩
  { text := r.text
    target := r.target
    shown := r.shownWith (Text.lower r.method.plain)
    options := t.readAll snapshot.options
    patterns := snapshot.patterns
    aliases := r.aliases
    config := t.configOf n }

end Table

namespace Action

def compiledRule (id : NodeId) : Action CompiledRule := do
  return (← get).compiledRule (← node id) (← rule id)

def freeze (id : NodeId) : Action Unit := do
  let options ← effectiveSlots id
  let patterns := (← get).effectivePatterns id
  modifyNode id fun n ↦ { n with snapshot := some ⟨options, patterns⟩ }

/-- The expression of a compiled rule, which is made and noted in the log if it was not kept. -/
def expression (id : NodeId) (c : CompiledRule) (complete : Bool) : Action Regex := do
  match (← rule id).expressions.lookup (complete, c.ignoresCase) with
  | some r => return r
  | none =>
    let text ← ofExcept (c.expression complete)
    let r ← ofExcept (c.read text)
    log (c.logEntry text)
    modifyRule id fun rule ↦
      { rule with expressions := ((complete, c.ignoresCase), r) :: rule.expressions }
    return r

/-- Compiles a rule that is not compiled yet. It stays compiled if its expression is malformed. -/
def compileRule (id : NodeId) : Action Unit := do
  discard (rule id)
  unless (← node id).isCompiled do
    freeze id
    let c ← compiledRule id
    discard (expression id c (c.isComplete false))

def compileNode (id : NodeId) : Action Unit := do
  let n ← node id
  match n.body with
  | .rule _ => compileRule id
  | .group _ => unless n.isCompiled do freeze id

def compileNodes : List NodeId → Action Unit
  | [] => return ()
  | id :: rest => do
    compileNode id
    compileNodes rest

def compile (id : NodeId) : Action Unit := do
  compileNodes ((← get).subtree id)

def compileRouter (id : RouterId) : Action Unit := do
  compile (← router id).root
  modifyRouter id fun r ↦ { r with compiled := true }
  log ("compiled ".toList ++ Text.ofNat ((← get).routes id).length ++ " rules".toList)

end Action

end UrlRouting

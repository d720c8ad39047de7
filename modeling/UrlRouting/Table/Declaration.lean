import UrlRouting.Table.Basic
import UrlRouting.Template.Given
import UrlRouting.Template.Shorthand

/-!
Declaring routers, rules and groups. The rule string of a rule begins with the paths of the groups
around it; a dollar sign at its end asks for complete matching. Nothing can be declared in a group
or on a router that is compiled.
-/

namespace UrlRouting

structure Declared where
  rule : Text
  target : Value
  method : Text := ['*']
  name : Value := .null
  options : Mapping := []
  patterns : Mapping := []

structure DeclaredGroup where
  rule : Text := []
  options : Mapping := []
  patterns : Mapping := []

namespace Rule

def endMark : Char := '$'

/-- A rule string without the mark at its end, and whether it has one. -/
def withoutEndMark (rule : Text) : Text × Bool :=
  if Text.endsWith rule [endMark] then (rule.dropLast, true) else (rule, false)

def behind (path rule : Text) : Text :=
  let rule := if rule = ['/'] then rule else Text.trimLeft (· == '/') rule
  if path.isEmpty then rule
  else if (Text.trim (· == '/') rule).isEmpty then path
  else path ++ '/' :: Text.trimLeft (· == '/') rule

/-- A rule string, given without its mark, as it is kept: inside the path of the group around it,
with its variables in full, and never empty. -/
def fullText (path rule : Text) : Text :=
  let text := Template.normalize (behind path rule)
  if text.isEmpty then ['/'] else text

/-- The options of a declared rule: the given ones, then those that its rule string and its method
stand for. -/
def declaredOptions (given : Entries Slot) (complete : Bool) (method : Text) : Entries Slot :=
  let options := if complete then given.set "complete_match" (.fixed (.bool true)) else given
  if method = ['*'] then options else options.set "method" (.fixed (.str (Text.lower method)))

end Rule

def Group.pathInside (path rule : Text) : Text :=
  let rule := Template.normalize (Text.trim (· == '/') rule)
  Text.join "/" ([path, rule].filter (!·.isEmpty))

namespace Action

/-- The path of a parent, empty where there is none. A rule has no path. -/
def pathOf : Option NodeId → Action Text
  | none => return []
  | some parent => return (← group parent).path

def newRule (router : Option RouterId) (parent : Option NodeId) (d : Declared) : Action NodeId := do
  let (rule, complete) := Rule.withoutEndMark d.rule
  let text := Rule.fullText (← pathOf parent) rule
  let method := if d.method.isEmpty then ['*'] else d.method
  addNode
    { router := router
      parent := parent
      domain := .null
      options := Rule.declaredOptions (← keepAll d.options) complete method
      patterns := d.patterns
      merged := []
      snapshot := none
      body := .rule
        { name := d.name
          text := text
          target := d.target
          method := .str method
          aliases := Template.builtIn
          expressions := [] } }

def newGroup (router : Option RouterId) (parent : Option NodeId) (d : DeclaredGroup) :
    Action NodeId := do
  let path := Group.pathInside (← pathOf parent) d.rule
  addNode
    { router := router
      parent := parent
      domain := .null
      options := ← keepAll d.options
      patterns := d.patterns
      merged := []
      snapshot := none
      body := .group ⟨path, []⟩ }

def addMember (id member : NodeId) : Action Unit :=
  modifyNode id fun n ↦
    match n.body with
    | .group group => { n with body := .group { group with members := group.members ++ [member] } }
    | .rule _ => n

def declareRule (id : NodeId) (d : Declared) : Action NodeId := do
  discard (group id)
  ensureOpen id
  let member ← newRule (← node id).router (some id) d
  addMember id member
  return member

def declareGroup (id : NodeId) (d : DeclaredGroup) : Action NodeId := do
  discard (group id)
  ensureOpen id
  let member ← newGroup (← node id).router (some id) d
  addMember id member
  return member

def addRouter (settings : Mapping) : Action RouterId := do
  let config ← ofExcept (Config.ofMapping settings)
  let id := (← get).routers.length
  let root ← newGroup (some id) none {}
  modify fun t ↦ { t with routers := t.routers ++ [⟨config, root, false, []⟩] }
  return id

def routeOn (id : RouterId) (d : Declared) : Action NodeId := do
  ensureRouterOpen id
  declareRule (← router id).root d

def groupOn (id : RouterId) (d : DeclaredGroup) : Action NodeId := do
  ensureRouterOpen id
  declareGroup (← router id).root d

/-- Makes a rule of a router valid on every domain: it is tried once all other rules have
failed. -/
def addEverywhere (id : RouterId) (rule : NodeId) : Action Unit := do
  ensureRouterOpen id
  modifyRouter id fun r ↦
    if r.everywhere.contains rule then r else { r with everywhere := r.everywhere ++ [rule] }

def bind (id : NodeId) (router : Option RouterId) (parent : Option NodeId) : Action Unit := do
  discard (rule id)
  ensureOpen id
  modifyNode id fun n ↦ { n with router := router, parent := parent }

end Action

end UrlRouting

import UrlRouting.Table.Compilation

/-!
Matching requests. The rules of a router are tried in the order of declaration, then those that are
valid on every domain; the first decision counts. Where there is none, the router tells apart a
path that no rule matches from one that is matched for other methods only.
-/

namespace UrlRouting

open Http

/-- The request under the root domain of a router, unless it has one of its own. -/
def Config.complete (config : Config) (request : Request) : Request :=
  match request.rootDomain, config.rootDomain with
  | none, some root => if root.isEmpty then request else { request with rootDomain := some root }
  | _, _ => request

/-- The URL of a request: its path without leading slashes, between delimiters. -/
def Config.urlOf (config : Config) (request : Request) : Text :=
  Text.replaceChar '/' config.delimiterText (Text.trimLeft (· == '/') request.path)

/-- The methods that a `method` option lists in small letters; `none` if it allows all. -/
def Check.listedMethods? (option : Value) : Option (List Text) :=
  match option with
  | .str [] => none
  | .str listed => some ((Text.splitAt '|' (Text.lower listed)).filter (!·.isEmpty))
  | _ => none

def Fault.refusal (request : Request) (allowed : List Text) : Fault :=
  if allowed.isEmpty || allowed.contains (Text.lower request.method) then
    .http .notFound (.notFound
      ("No rule matches ".toList ++ request.method ++ ' ' :: Text.quoted request.path))
  else .http .methodNotAllowed (.methodNotAllowed allowed [])

namespace Action

def capture (id : NodeId) (c : CompiledRule) (url : Text) (complete : Bool) :
    Action (Option Captures) := do
  match c.decided? url complete with
  | some outcome => return outcome
  | none => return c.captured (← expression id c complete) url

def matchPath (id : NodeId) (url : Text) (asked : Bool) : Action (Option Captures) := do
  compileRule id
  let c ← compiledRule id
  capture id c (c.trimmed [] url) (c.isComplete asked)

def checkRule (id : NodeId) (request : Request) (url : Text) (asked anyDomain : Bool) :
    Action (Option Dispatch) := do
  compileRule id
  let c ← compiledRule id
  let c := if anyDomain then c.onAnyDomain else c
  match ← ofExcept (Admission.rejection? c.options (some c.text) request) with
  | some failure =>
    log (Admission.logEntry c.shown request failure)
    return none
  | none =>
    let url := c.trimmed request.ext url
    match ← capture id c url (c.isComplete asked) with
    | none => return none
    | some captures =>
      return some (← ofExcept (c.decision request url captures.toMapping c.options))

/-- The first decision that is made on some nodes, one after the other. -/
def firstDecision (decide : NodeId → Action (Option Dispatch)) :
    List NodeId → Action (Option Dispatch)
  | [] => return none
  | id :: rest => do
    match ← decide id with
    | some d => return some d
    | none => firstDecision decide rest

/-- The decision of a rule, or the first one inside a group, whose members are asked in turn, down
to a depth. -/
def checkWithin (request : Request) (url : Text) (asked : Bool) :
    Nat → NodeId → Action (Option Dispatch)
  | 0, _ => return none
  | depth + 1, id => do
    match (← node id).body with
    | .rule _ => checkRule id request url asked false
    | .group group => firstDecision (checkWithin request url asked depth) group.members

/-- The decision of a node. No group lies deeper in a table than it has nodes. -/
def check (id : NodeId) (request : Request) (url : Text) (asked : Bool) :
    Action (Option Dispatch) := do
  checkWithin request url asked ((← get).nodes.length + 1) id

/-- The first decision of the rules that are valid on every domain, which a group cannot be. -/
def firstAnywhere (request : Request) (url : Text) : List NodeId → Action (Option Dispatch)
  | [] => return none
  | id :: rest => do
    let some r := (← node id).rule? | throw .wrongType
    match ← checkRule id request url false true with
    | some d =>
      log ("cross-domain rule ".toList ++ Text.quoted r.text ++ " matched ".toList ++ request.host)
      return some d
    | none => firstAnywhere request url rest

/-- The methods that the rules whose path matches a URL allow; `none` as soon as one allows all. -/
def allowedMethods (url : Text) : List NodeId → Action (Option (List Text))
  | [] => return some []
  | id :: rest => do
    match ← matchPath id url false with
    | none => allowedMethods url rest
    | some _ =>
      match Check.listedMethods? (Mapping.named (← effectiveOptions id) "method") with
      | none => return none
      | some methods =>
        match ← allowedMethods url rest with
        | none => return none
        | some more => return some (methods ++ more)

/-- The decision of a router for a request. The router is compiled first if it is not. -/
def route (id : RouterId) (request : Request) : Action Dispatch := do
  unless (← router id).compiled do compileRouter id
  let r ← router id
  let request := r.config.complete request
  let url := r.config.urlOf request
  match ← check r.root request url false with
  | some d => return d
  | none =>
    match ← firstAnywhere request url r.everywhere with
    | some d => return d
    | none =>
      let allowed ← allowedMethods url ((← get).routes id)
      throw (.refusal request (allowed.getD []))

def decision (id : NodeId) (request : Request) (url : Text) (groups options : Mapping) :
    Action Dispatch := do
  ofExcept ((← compiledRule id).decision request url groups options)

end Action

end UrlRouting

import UrlRouting.CommandLine.Arguments
import UrlRouting.CommandLine.Catalogue
import UrlRouting.CommandLine.Listing
import UrlRouting.Table.Matching

/-!
The command line: `routes` lists the rules of a router, `match` answers how a router resolves one
request. What cannot be done is said on the error stream, with an exit code other than zero.
-/

namespace UrlRouting.CommandLine

open Http

structure MatchCommand where
  router : Text
  method : Text
  /-- The path, perhaps with a query string after a question mark. -/
  path : Text
  host : Text
  https : Bool
  headers : List Text

inductive Command where
  | routes (router : Text)
  | match_ (request : MatchCommand)

/-- What a command leaves behind: the exit code, none if the command just ends, and the lines on
the two streams. -/
structure Report where
  code : Option Nat
  output : List Text
  errors : List Text

namespace Report

def ofOutput (lines : List Text) : Report := ⟨none, lines, []⟩

def complaint (code : Nat) (line : Text) : Report := ⟨some code, [], [line]⟩

def error (code : Nat) (said : Text) : Report := complaint code ("Error: ".toList ++ said)

end Report

/-! ### Reading commands -/

def helpFlag : Flag := ⟨["-h", "--help"], .help⟩

def hostFlag : Flag := ⟨["--host"], .value⟩

def httpsFlag : Flag := ⟨["--https"], .switch⟩

def headerFlag : Flag := ⟨["-H", "--header"], .value⟩

def usage : Text := "usage: pathrule [-h] [routes ROUTER | match ROUTER METHOD PATH] ..."

def readRoutes (args : List Text) : Reading Command :=
  match Given.read [helpFlag] 1 args with
  | .ok given => .ok (.routes (given.words[0]?.getD []))
  | .help => .help
  | .misuse => .misuse

def readMatch (args : List Text) : Reading Command :=
  match Given.read [helpFlag, hostFlag, httpsFlag, headerFlag] 3 args with
  | .ok given =>
    .ok (.match_
      { router := given.words[0]?.getD []
        method := given.words[1]?.getD []
        path := given.words[2]?.getD []
        host := (given.last? hostFlag).getD "localhost".toList
        https := (given.last? httpsFlag).isSome
        headers := given.all headerFlag })
  | .help => .help
  | .misuse => .misuse

def readNamed (name : Text) (args : List Text) : Reading Command :=
  if name = "routes".toList then readRoutes args
  else if name = "match".toList then readMatch args
  else .misuse

/-- Reads a command line; nothing at all asks for help. Flags before the command other than the one
for help are refused, but only after the command has been read. -/
def readCommand (excess : Bool) : List Text → Reading Command
  | [] => if excess then .misuse else .help
  | t :: rest =>
    if t = ['-', '-'] then .misuse
    else
      match Flag.readItem [helpFlag] t with
      | some (.flag _ none) => .help
      | some (.flag _ (some a)) =>
        match Flag.helpWith [helpFlag] false a.afterSign a.text with
        | .misuse => .misuse
        | _ => .help
      | some (.word name) =>
        match readNamed name rest with
        | .help => .help
        | .misuse => .misuse
        | .ok command => if excess then .misuse else .ok command
      | some .unknown => readCommand true rest
      | some .mark | none => .misuse

/-! ### Running commands -/

def readHeader (t : Text) : Except Text (Value × Value) :=
  match Text.cut? ':' t with
  | some (name, value) =>
    .ok (.str (Text.trim Text.isBlank name), .str (Text.trim Text.isBlank value))
  | none => .error t

/-- The headers given on a command line, or the first argument that is malformed. Of a repeated
name the last value counts. -/
def readHeaders (given : List Text) : Except Text Mapping :=
  (given.mapM readHeader).map Entries.ofPairs

def rows (t : Table) (id : RouterId) : List Row :=
  (t.routes id).filterMap fun rule ↦
    (t.node rule).rule?.map fun r ↦ Row.ofRule r (t.effectiveOptions rule)

def runRoutes (c : Catalogue) (router : Text) : Action Report := do
  match ← Action.ofExcept (c.router router) with
  | .error said => return .error 1 said
  | .ok id =>
    Action.compileRouter id
    return .ofOutput (← Action.ofExcept (listing (rows (← get) id)))

def routed (id : RouterId) (request : Request) : Action (Except HttpError Dispatch) := fun t ↦
  match Action.route id request t with
  | .ok d t => .ok (.ok d) t
  | .error (.http _ e) t => .ok (.error e) t
  | .error fault t => .error fault t

def runMatch (c : Catalogue) (m : MatchCommand) : Action Report := do
  match ← Action.ofExcept (c.router m.router) with
  | .error said => return .error 1 said
  | .ok id =>
    match readHeaders m.headers with
    | .error given =>
      return .error 2
        ("malformed header ".toList ++ Text.quoted given ++ " (expected NAME:VALUE)".toList)
    | .ok headers =>
      let (path, query) := (Text.cut? '?' m.path).getD (m.path, [])
      let request ← Action.ofExcept
        (Request.create m.method path m.host (if m.https then "https" else "http") headers query []
          none)
      match ← routed id request with
      | .ok d => return .ofOutput (answer d)
      | .error e => return .complaint 1 e.message

def run (c : Catalogue) (args : List Text) : Action Report := do
  match readCommand false args with
  | .help => return ⟨some 0, [usage], []⟩
  | .misuse => return .complaint 2 usage
  | .ok (.routes router) => runRoutes c router
  | .ok (.match_ m) => runMatch c m

end UrlRouting.CommandLine

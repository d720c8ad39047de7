import UrlRouting.Http.Headers
import UrlRouting.Http.Query

/-!
Requests, as far as routing looks at them: method, path, host, scheme, headers and parameters. All
else is computed from these on demand.
-/

namespace UrlRouting.Http

/-- A request. Path parameters that are already bound come before those of the query string, and a
root domain overrides the one that the host suggests. -/
structure Request where
  method : Text
  path : Text
  host : Text
  scheme : Text
  headers : Headers
  query : Query
  pathParams : Mapping
  rootDomain : Option Text

namespace Request

/-! ### Host -/

def hostName (r : Request) : Text :=
  let host := Text.lower r.host
  if Text.startsWith host "[" then host.takeWhile (· != ']') ++ [']']
  else
    match Text.cutLast? ':' host with
    | some (name, _) => name
    | none => host

def lastLabels? (host : Text) : Option Text :=
  let labels := Text.splitAt '.' host
  if labels.length ≤ 2 then none else some (Text.join "." (labels.drop (labels.length - 2)))

/-- The root domain under which the sub-domain is taken: the given one in small letters and without
outer points, or else the last two labels of the host, if there are more. -/
def root? (r : Request) : Option Text :=
  let given := Text.trim (· == '.') (Text.lower (r.rootDomain.getD []))
  if given.isEmpty then lastLabels? r.hostName else some given

def subDomain (r : Request) : Text :=
  match r.root? with
  | none => []
  | some root =>
    let host := r.hostName
    if Text.endsWith host ('.' :: root) then host.take (host.length - root.length - 1) else []

/-! ### Scheme and content -/

def isSecure (r : Request) : Bool :=
  let scheme := Text.lower r.scheme
  scheme == "https".toList || scheme == "wss".toList ||
    r.headers.lowered "x-forwarded-proto" == "https".toList

def isAjax (r : Request) : Bool := r.headers.lowered "x-requested-with" == "xmlhttprequest".toList

def isPjax (r : Request) : Bool := r.headers.contains "x-pjax"

def isJson (r : Request) : Bool := Text.occursIn "json" (r.headers.lowered "accept")

/-! ### Path and parameters -/

/-- What a file name has after its last point, unless only points stand before that point. -/
def extension (name : Text) : Text :=
  match Text.cutLast? '.' name with
  | some (stem, ext) => if stem.all (· == '.') then [] else ext
  | none => []

def ext (r : Request) : Text :=
  let name :=
    match Text.cutLast? '/' r.path with
    | some (_, name) => name
    | none => r.path
  Text.lower (extension name)

/-- The value of a parameter: of the path, or else of the query string. -/
def param? (r : Request) (name : Value) : Option Value :=
  match r.pathParams.get? name with
  | some value => some value
  | none => (name.text?.bind r.query.get?).map .str

/-! ### Making requests -/

/-- A request from plain values. The method is put into capital letters, and an empty path is the
root path. -/
def create (method path host scheme : Text) (headers : Mapping) (query : Text)
    (pathParams : Mapping) (rootDomain : Option Text) : Except Fault Request := do
  return {
    method := Text.upper method
    path := if path.isEmpty then ['/'] else path
    host := host
    scheme := scheme
    headers := ← Headers.ofMapping headers
    query := Query.ofText query
    pathParams := pathParams
    rootDomain := rootDomain }

structure Scope where
  method : Option Text
  path : Option Text
  scheme : Text
  headers : List (Text × Text)
  query : Text
  /-- The address of the server and the number of its socket. -/
  server : Value

def address : Value → Except Fault Text
  | .list (name :: socket :: _) | .tuple (name :: socket :: _) =>
    .ok (name.plain ++ ':' :: socket.plain)
  | .list (_ :: _) | .tuple (_ :: _) => .error .outOfRange
  | server => if server.isTruthy then .error .wrongType else .ok "localhost"

/-- A request from what a server interface tells. The host is that of the header, or else the
address of the server. -/
def ofScope (scope : Scope) (rootDomain : Option Text) : Except Fault Request := do
  let headers := Headers.ofPairs scope.headers
  let host ←
    match headers.get? "host" with
    | some host => pure host
    | none => address scope.server
  match scope.method, scope.path with
  | some method, some path =>
    return {
      method := method
      path := path
      host := host
      scheme := scope.scheme
      headers := headers
      query := Query.ofText scope.query
      pathParams := []
      rootDomain := rootDomain }
  | _, _ => .error .missingKey

end Request

end UrlRouting.Http

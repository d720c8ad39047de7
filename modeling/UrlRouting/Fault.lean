import UrlRouting.Text.Case
import UrlRouting.Text.Order
import UrlRouting.Value.Display

/-!
What can go wrong, as causes. The wording of a cause is given by `Fault.message`.
-/

namespace UrlRouting

structure HttpError where
  status : Int
  detail : Text
  headers : List (Text × Text)
deriving DecidableEq

namespace HttpError

def message (e : HttpError) : Text :=
  if e.detail.isEmpty then Text.ofInt e.status
  else Text.ofInt e.status ++ ": ".toList ++ e.detail

def notFound (detail : Text) : HttpError := ⟨404, detail, []⟩

/-- The value of an `Allow` header: the methods in capital letters, each once and in order. -/
def allowHeader (methods : List Text) : Text :=
  Text.join ", " (Text.sorted (methods.map Text.upper))

/-- Some rule matched the path, but only for other methods. -/
def methodNotAllowed (methods : List Text) (detail : Text) : HttpError :=
  let allow := allowHeader methods
  ⟨405, if detail.isEmpty then "Method not allowed. Allowed methods: ".toList ++ allow else detail,
    [("Allow", allow)]⟩

def allowed (e : HttpError) : List Text :=
  let allow := (e.headers.lookup "Allow".toList).getD []
  ((Text.splitAt ',' allow).map (Text.trim Text.isBlank)).filter (!·.isEmpty)

end HttpError

inductive HttpKind where
  | notFound
  | methodNotAllowed
deriving DecidableEq

inductive Fault where
  | frozen (node : Text)
  | unknownSetting (name : Value)
  | badDelimiter (given : Value)
  | detached (rule : Text)
  | badPattern (rule : Text)
  | closed
  | http (kind : HttpKind) (error : HttpError)
  | wrongType
  | wrongValue
  | missingKey
  | missingAttribute
  | outOfRange
  | notLatin
  | guardFailed
  | excessiveCount

/-- The wording of a cause; causes that only say that a value is unfit have none. -/
def Fault.message : Fault → Text
  | .frozen node => "Cannot configure ".toList ++ node ++ " after it has been compiled.".toList
  | .unknownSetting name => "Unknown router config ".toList ++ name.shown
  | .badDelimiter given =>
    "path_delimiter must be a single separator character, got ".toList ++ given.shown
  | .detached rule => rule ++ " is not attached to a router".toList
  | .badPattern rule => "route pattern error in ".toList ++ Text.quoted rule
  | .closed => "Cannot add rules after compilation."
  | .http _ error => error.message
  | .wrongType | .wrongValue | .missingKey | .missingAttribute | .outOfRange | .notLatin
  | .guardFailed | .excessiveCount => []

end UrlRouting

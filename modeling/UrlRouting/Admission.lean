import UrlRouting.Http.Request

/-!
Whether the options of a rule accept a request. The checks run in a fixed order and stop at the
first that fails. A `method` or `filter` option of another form disengages its check; extensions are
looked for in the plain text of their options.
-/

namespace UrlRouting

open Http

inductive Check where
  | predicate
  | method
  | negotiation
  | ext
  | domain
  | scheme
  | filter
deriving DecidableEq

namespace Check

def all : List Check := [predicate, method, negotiation, ext, domain, scheme, filter]

def name : Check → Text
  | predicate => "match predicate"
  | method => "method"
  | negotiation => "negotiation"
  | ext => "ext"
  | domain => "domain"
  | scheme => "scheme"
  | filter => "filter"

def answer (rule : Option Text) (request : Request) : Guard Value → Except Fault Value
  | .saysFalse => .ok (.bool false)
  | .saysTrue => .ok (.bool true)
  | .saysNothing => .ok .null
  | .saysZero => .ok (.int 0)
  | .saysEmpty => .ok (.str [])
  | .parameter name value =>
    .ok (.bool (((request.param? (.str name)).getD .null).same value))
  | .method value => .ok (.bool ((Value.str request.method).same value))
  | .secure => .ok (.bool request.isSecure)
  | .rule value => .ok (.bool (rule.any fun t ↦ (Value.str t).same value))
  | .failing _ => .error .guardFailed

/-- The custom check lets the request pass. A class cannot be asked. -/
def passesPredicate (options : Mapping) (rule : Option Text) (request : Request) :
    Except Fault Bool :=
  match options.named "match" with
  | .guard g => do
    match ← answer rule request g with
    | .bool false => return false
    | _ => return true
  | .type _ | .dispatch _ => .error .wrongType
  | _ => .ok true

/-- The method of the request stands somewhere in the option. -/
def passesMethod (options : Mapping) (request : Request) : Bool :=
  match options.named "method" with
  | .str listed =>
    listed.isEmpty || Text.occursIn (Text.lower request.method) (Text.lower listed)
  | _ => true

def agrees (flag : Value) (actual : Bool) : Bool := flag.isNull || flag.isTruthy == actual

def passesNegotiation (options : Mapping) (request : Request) : Bool :=
  agrees (options.named "ajax") request.isAjax && agrees (options.named "pjax") request.isPjax &&
    agrees (options.named "json") request.isJson

/-- The value stands between the bars of a list, case apart. -/
def inList (value listed : Text) : Bool :=
  Text.occursIn (Text.lower ('|' :: value ++ ['|'])) (Text.lower ('|' :: listed ++ ['|']))

def inOption (option : Value) (request : Request) : Bool :=
  !option.isNull && inList request.ext option.plain

/-- The extension of the request is allowed. The root path has none. -/
def passesExt (options : Mapping) (request : Request) : Bool :=
  request.path == ['/'] ||
    (((options.named "ext").isNull || inOption (options.named "ext") request) &&
      !inOption (options.named "deny_ext") request)

def passesDomain (options : Mapping) (request : Request) : Bool :=
  let expected := options.named "domain"
  expected.isNull || expected.same (.str request.hostName) ||
    expected.same (.str request.subDomain)

def passesScheme (options : Mapping) (request : Request) : Bool :=
  agrees (options.named "https") request.isSecure

/-- The parameters have the expected values, compared as plain text; an absent one counts as
empty. -/
def passesFilter (options : Mapping) (request : Request) : Bool :=
  match options.named "filter" with
  | .map expected =>
    expected.all fun (name, value) ↦
      ((request.param? name).getD (.str [])).plain == value.plain
  | _ => true

def passes (check : Check) (options : Mapping) (rule : Option Text) (request : Request) :
    Except Fault Bool :=
  match check with
  | predicate => passesPredicate options rule request
  | method => .ok (passesMethod options request)
  | negotiation => .ok (passesNegotiation options request)
  | ext => .ok (passesExt options request)
  | domain => .ok (passesDomain options request)
  | scheme => .ok (passesScheme options request)
  | filter => .ok (passesFilter options request)

end Check

namespace Admission

def firstFailure (options : Mapping) (rule : Option Text) (request : Request) :
    List Check → Except Fault (Option Check)
  | [] => .ok none
  | check :: rest => do
    if ← check.passes options rule request then firstFailure options rule request rest
    else return some check

/-- The check by which the options reject the request, `none` if they admit it. -/
def rejection? (options : Mapping) (rule : Option Text) (request : Request) :
    Except Fault (Option Check) :=
  firstFailure options rule request Check.all

/-- The entry in the log for a rejection by the rule that is shown as `rule`. -/
def logEntry (rule : Text) (request : Request) (check : Check) : Text :=
  rule ++ " rejected ".toList ++ request.method ++ ' ' :: request.path ++ ": ".toList ++ check.name

end Admission

end UrlRouting

import UrlRouting.Table.Directive

/-!
Directives by the names that a configuration calls them by, each with its parameters.
-/

namespace UrlRouting

structure Setter where
  name : Text
  parameter : Parameter
  option : Text

namespace Setter

def required (name parameter option : Text) : Setter := ⟨name, .required parameter, option⟩

def flag (name parameter : Text) (default : Value) : Setter :=
  ⟨name, .optional parameter default, name⟩

def all : List Setter :=
  [required "depr" "delimiter" "param_depr",
   flag "ext" "ext" (.str []),
   flag "deny_ext" "ext" (.str []),
   flag "https" "https" (.bool true),
   flag "json" "json" (.bool true),
   flag "ajax" "ajax" (.bool true),
   flag "pjax" "pjax" (.bool true),
   required "predicate" "match" "match",
   required "case_sensitive" "case" "case_sensitive",
   flag "complete_match" "match" (.bool true),
   flag "remove_slash" "remove" (.bool true),
   required "prefix" "prefix" "prefix",
   required "dispatcher" "dispatcher" "dispatcher",
   flag "auto_middleware" "auto" (.bool true)]

def read (s : Setter) (args : Arguments) : Except Fault Directive :=
  (args.bind [s.parameter]).map fun values ↦ .option (.str s.option) (values.headD .null)

end Setter

namespace Directive

def readOne (p : Parameter) (make : Value → Directive) (args : Arguments) :
    Except Fault Directive :=
  (args.bind [p]).map fun values ↦ make (values.headD .null)

def readTwo (p q : Parameter) (make : Value → Value → Directive) (args : Arguments) :
    Except Fault Directive :=
  (args.bind [p, q]).map fun values ↦ make (values[0]?.getD .null) (values[1]?.getD .null)

def readOpen (make : Value → Mapping → Directive) (args : Arguments) : Except Fault Directive :=
  args.bindOpen.map fun (given, more) ↦ make given more

def readModel (args : Arguments) : Except Fault Directive := do
  match ← args.bind [.required "var", .optional "model" .null,
      .optional "exception" (.bool true)] with
  | [subject, target, required] => return .model subject target required
  | _ => throw .wrongType

def readValidator (args : Arguments) : Except Fault Directive := do
  match ← args.bind [.required "validator", .optional "scene" (.str []),
      .optional "message" .null, .optional "batch" (.bool false)] with
  | [v, scene, messages, batch] => return .validator v scene messages batch
  | _ => throw .wrongType

def readers : List (Text × (Arguments → Except Fault Directive)) :=
  [("option", readOpen options),
   ("set_option", readTwo (.required "name") (.required "value") option),
   ("pattern", readOpen patterns),
   ("when", readTwo (.required "name") (.optional "rule" .null) validation),
   ("defaults", readOne (.required "values") defaults),
   ("filter", readOne (.required "params") filter),
   ("view", readOne (.optional "params" .null) view),
   ("append", readOne (.optional "params" .null) append),
   ("model", readModel),
   ("validate", readValidator),
   ("middleware", fun args ↦
     (args.bindFirst (.required "middleware")).map fun (given, parameters) ↦
       middleware given parameters),
   ("without_middleware", readOne (.optional "middleware" .null) withoutMiddleware),
   ("allow_cross_domain", readOne (.optional "headers" .null) crossOrigin),
   ("token", readOne (.optional "token" "__token__") fun token ↦
     middleware "form_token_check" [token]),
   ("cache", readOne (.required "cache") fun cache ↦ middleware "check_request_cache" [cache]),
   ("merge_options", fun args ↦ args.bindAll.map merging),
   ("set_domain", readOne (.required "domain") domain)]

def ruleReaders : List (Text × (Arguments → Except Fault Directive)) :=
  [("regex", readOpen aliases),
   ("set_name", readOne (.required "name") name),
   ("set_method", readOne (.required "method") method),
   ("cross_domain_rule", fun args ↦ (args.bind []).map fun _ ↦ everywhere)]

/-- What reads the directive of a name, which may be one of rules alone. -/
def reader? (isRule : Bool) (name : Text) : Option (Arguments → Except Fault Directive) :=
  match Setter.all.find? fun s ↦ s.name == name with
  | some setter => some setter.read
  | none => (readers ++ if isRule then ruleReaders else []).lookup name

end Directive

end UrlRouting

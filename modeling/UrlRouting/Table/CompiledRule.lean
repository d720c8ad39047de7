import UrlRouting.Admission
import UrlRouting.Config
import UrlRouting.Dispatch
import UrlRouting.Regex.Match
import UrlRouting.Template.Given
import UrlRouting.Variables

/-!
A compiled rule on its own, with everything that its decisions depend on. A URL is first cut at its
end, then matched against the path of the rule: a path without variables by comparison, another one
by its expression, unless the text before the first variable already differs. What the expression
captures becomes the variables of the decision.
-/

namespace UrlRouting

open Http

structure CompiledRule where
  text : Text
  target : Value
  shown : Text
  options : Mapping
  patterns : Mapping
  aliases : Mapping
  config : Config

abbrev Captures := List (Text × Option Text)

/-- Captures as values, where a group that took no part is null. -/
def Captures.toMapping (captures : Captures) : Mapping :=
  captures.map fun (name, part) ↦ (.str name, (part.map Value.str).getD .null)

def Regex.captures? (r : Regex) (t : Text) : Option Captures :=
  (r.matchStart? t).map r.namedGroups

namespace CompiledRule

/-! ### Options -/

/-- The rule matches complete URLs: if its options say so, or else if it is asked or configured
to. -/
def isComplete (c : CompiledRule) (asked : Bool) : Bool :=
  match c.options.named "complete_match" with
  | .null => asked || c.config.completeMatch
  | flag => flag.isTruthy

def dropsEnd (c : CompiledRule) : Bool :=
  match c.options.named "remove_slash" with
  | .null => c.config.removeSlash
  | flag => flag.isTruthy

def ignoresCase (c : CompiledRule) : Bool :=
  match c.options.named "case_sensitive" with
  | .bool false => true
  | _ => false

def onAnyDomain (c : CompiledRule) : CompiledRule :=
  { c with options := Entries.erase c.options "domain" }

/-! ### Expression -/

/-- The path of the rule: its rule string between delimiters in place of slashes. -/
def path (c : CompiledRule) : Text :=
  if c.text = ['/'] then c.config.delimiterText
  else
    let text := if c.dropsEnd then Text.trimRight (· == '/') c.text else c.text
    c.config.delimiter :: Text.replaceChar '/' c.config.delimiterText text

def setting (c : CompiledRule) : Template.Setting :=
  { patterns := []
    fallback := c.config.fallback
    ending := []
    aliases := []
    delimiter := c.config.delimiterText }

def tokens (c : CompiledRule) : List Text := Template.tokens c.config.delimiterText c.path

def expression (c : CompiledRule) (complete : Bool) : Except Fault Text :=
  (c.setting.withMaps c.patterns c.aliases c.tokens).map fun s ↦
    '^' :: s.expression c.path c.tokens complete c.dropsEnd

def read (c : CompiledRule) (expression : Text) : Except Fault Regex :=
  match Regex.parse c.ignoresCase expression with
  | .ok r => .ok r
  | .error .malformed => .error (.badPattern c.text)
  | .error .excessiveCount => .error .excessiveCount

def regex (c : CompiledRule) (complete : Bool) : Except Fault Regex := do
  c.read (← c.expression complete)

def logEntry (c : CompiledRule) (expression : Text) : Text :=
  "compiled ".toList ++ c.shown ++ " -> ".toList ++ expression

/-! ### Path match -/

def withoutEnding? (ending t : Text) : Option Text :=
  let stem := t.length - ending.length
  if ending.length ≤ t.length && Text.sameFolded (t.drop stem) ending then some (t.take stem)
  else none

/-- A URL without an extension at its end. A line break may come after the extension; it is
kept. -/
def withoutExtension (ext url : Text) : Text :=
  let broken :=
    if Text.endsWith url ['\n'] then
      (withoutEnding? ('.' :: ext) url.dropLast).map fun stem ↦ stem ++ ['\n']
    else none
  (broken.or (withoutEnding? ('.' :: ext) url)).getD url

/-- A URL as the rule matches it: without delimiters at its end if the rule disregards them, and
without the extension of the request if the rule has an `ext` option. -/
def trimmed (c : CompiledRule) (ext url : Text) : Text :=
  let url :=
    if c.dropsEnd && c.text != ['/'] then Text.trimRight (· == c.config.delimiter) url else url
  if (c.options.named "ext").isNull || ext.isEmpty then url else withoutExtension ext url

/-- The path without variables matches a URL that begins with a delimiter: all of it, or the first
of its parts. -/
def matchesLiterally (c : CompiledRule) (url : Text) (complete : Bool) : Bool :=
  let end_ := c.config.delimiterText
  Text.lower c.path == Text.lower url ||
    (!complete && Text.startsWith (Text.lower (url ++ end_)) (Text.lower (c.path ++ end_)))

def decided? (c : CompiledRule) (url : Text) (complete : Bool) : Option (Option Captures) :=
  let whole := c.config.delimiter :: url
  if c.path == c.config.delimiterText && !url.isEmpty then some none
  else if !c.path.contains '<' then
    some (if c.matchesLiterally whole complete then some [] else none)
  else if Text.startsWith (Text.lower whole)
      (Text.lower (Template.literalHead c.config.delimiterText c.path)) then none
  else some none

def captured (c : CompiledRule) (r : Regex) (url : Text) : Option Captures :=
  r.captures? (c.config.delimiter :: url)

def capture (c : CompiledRule) (url : Text) (complete : Bool) : Except Fault (Option Captures) :=
  match c.decided? url complete with
  | some outcome => .ok outcome
  | none => (c.regex complete).map fun r ↦ c.captured r url

/-! ### Decision -/

/-- What separates the parameters of a URL: the option `param_depr`, or else the delimiter. -/
def parameterDelimiter (c : CompiledRule) (options : Mapping) : Value :=
  let given := options.named "param_depr"
  if given.isTruthy then given else .str c.config.delimiterText

def decision (c : CompiledRule) (request : Request) (url : Text) (groups options : Mapping) :
    Except Fault Dispatch := do
  let vars ← Variables.extract groups c.text url c.patterns options
    (c.parameterDelimiter options)
  Dispatch.resolve request c.text (Target.substitute groups options c.target) vars options
    c.config.namespaceMark (Target.substitute [] options c.target)

/-- The decision for a request: none if the options reject it or the path does not match. -/
def decide (c : CompiledRule) (request : Request) (url : Text) (asked : Bool) :
    Except Fault (Option Dispatch) := do
  match ← Admission.rejection? c.options (some c.text) request with
  | some _ => return none
  | none =>
    let url := c.trimmed request.ext url
    match ← c.capture url (c.isComplete asked) with
    | none => return none
    | some captures => return some (← c.decision request url captures.toMapping c.options)

end CompiledRule

end UrlRouting

import UrlRouting.Template.Token

/-!
The expression that a rule string is matched by. Every variable becomes a named group around its
pattern, together with the separator before it; literal text is left as it is written, so that a
rule may use the notation of expressions itself.
-/

namespace UrlRouting.Template

abbrev Patterns := List (Text × Text)

def namedPatterns : Patterns :=
  [("int", "\\d+"), ("float", "\\d+\\.\\d+"), ("alpha", "[A-Za-z]+"),
   ("alphaNum", "[A-Za-z0-9]+"), ("alphaDash", "[A-Za-z0-9\\-\\_]+")]

def defaultPattern : Text := "[\\w\\.]+"

/-- The expression that a pattern stands for: an alias is replaced, then a pair of enclosing
slashes is dropped. -/
def resolve (aliases : Patterns) (pattern : Text) : Text :=
  let pattern := (aliases.lookup pattern).getD pattern
  if 1 < pattern.length && Text.startsWith pattern "/" && Text.endsWith pattern "/" then
    pattern.tail.dropLast
  else pattern

def isSpecial (c : Char) : Bool :=
  "()[]\x7b\x7d?*+-|^$\\.&~# \t\n\r\x0b\x0c".toList.contains c

def escape (t : Text) : Text := t.flatMap fun c ↦ if isSpecial c then ['\\', c] else [c]

def separator (t : Text) : Text := if t = ['/'] || t = ['-'] then t else escape t

/-- The way a variable is written in a token: the separator before it, its name, and whether it is
optional. A token that does not begin with an angle bracket is no variable. -/
structure Variable where
  separator : Text
  name : Text
  optional : Bool
deriving DecidableEq

/-- The variable in angle brackets, of which the closing one may be missing. -/
def Variable.ofBrackets? (separator : Text) : Text → Option Variable
  | '<' :: inner =>
    if Text.endsWith inner "?>" then some ⟨separator, inner.take (inner.length - 2), true⟩
    else if Text.endsWith inner ">" then some ⟨separator, inner.dropLast, false⟩
    else some ⟨separator, inner, false⟩
  | _ => none

def Variable.ofToken? (delimiter : Text) : Text → Option Variable
  | [] => none
  | c :: rest =>
    if c = '/' || c = '-' || delimiter = [c] then
      Variable.ofBrackets? (Template.separator [c]) rest
    else Variable.ofBrackets? [] (c :: rest)

structure Setting where
  patterns : Patterns
  fallback : Text
  /-- What is added to the names of the groups. -/
  ending : Text
  aliases : Patterns
  delimiter : Text

def Setting.inner (s : Setting) (name : Text) : Text :=
  match s.patterns.lookup name with
  | some pattern => resolve s.aliases pattern
  | none => s.fallback

def Setting.group (s : Setting) (v : Variable) : Text :=
  '(' :: v.separator ++ "(?P<".toList ++ v.name ++ s.ending ++ '>' :: s.inner v.name ++
    [')', ')'] ++ (if v.optional then ['?'] else [])

def Setting.fragment? (s : Setting) (token : Text) : Option Text :=
  (Variable.ofToken? s.delimiter token).map s.group

abbrev Replacements := List (Text × Text)

/-- Binds a text that is not bound yet, or else replaces what takes its place. -/
def Replacements.set : Replacements → Text → Text → Replacements
  | [], old, new => [(old, new)]
  | (t, u) :: rest, old, new =>
    if t = old then (t, new) :: rest else (t, u) :: Replacements.set rest old new

/-- The replacements of a rule: every variable by its group and, where it has to be escaped, the
delimiter by its escape. -/
def Setting.replacements (s : Setting) (tokens : List Text) : Replacements :=
  let groups : Replacements := tokens.foldl (fun rs token ↦
    match s.fragment? token with
    | some group => rs.set token group
    | none => rs) []
  let escaped := separator s.delimiter
  if escaped = s.delimiter || (groups.lookup s.delimiter).isSome then groups
  else groups ++ [(s.delimiter, escaped)]

/-- The longest text to be replaced that stands at the head of a text; of equally long ones, which
are the same, the first. -/
def longestAt? (rs : Replacements) (t : Text) : Option (Text × Text) :=
  rs.foldl (fun best entry ↦
    if Text.startsWith t entry.1 then
      match best with
      | some (found, _) => if found.length < entry.1.length then some entry else best
      | none => some entry
    else best) none

/-- Makes all replacements from the left at once, after `skip` characters of the one at hand. -/
def replaceAllAfter (rs : Replacements) : Nat → Text → Text
  | _, [] => []
  | skip + 1, _ :: rest => replaceAllAfter rs skip rest
  | 0, c :: rest =>
    match longestAt? rs (c :: rest) with
    | some (old, new) => new ++ replaceAllAfter rs (old.length - 1) rest
    | none => c :: replaceAllAfter rs 0 rest

/-- Makes all replacements from the left at once; what is put in is not looked at again. -/
def replaceAll (rs : Replacements) (t : Text) : Text := replaceAllAfter rs 0 t

/-- Makes an optional group required where a separator follows it. -/
def requireBefore (separator t : Text) : Text :=
  Text.replace (")?".toList ++ separator) (')' :: separator) t

/-- The rule string without the delimiters at its end, and whether the expression has to ask for
one there. The rule that is nothing but the delimiter keeps it. -/
def trimEnd (delimiter : Text) (dropEnd : Bool) (rule : Text) : Text × Bool :=
  if rule = delimiter then (rule, false)
  else if dropEnd then (Text.trimRight delimiter.contains rule, false)
  else if Text.endsWith rule delimiter then (Text.trimRight delimiter.contains rule, true)
  else (rule, false)

/-- The expression for a rule string whose tokens are given. With `complete`, it has to match up to
the end; with `dropEnd`, a delimiter at the end of the rule is disregarded. -/
def Setting.expression (s : Setting) (rule : Text) (tokens : List Text)
    (complete dropEnd : Bool) : Text :=
  let (rule, closed) := trimEnd s.delimiter dropEnd rule
  let escaped := separator s.delimiter
  let body := requireBefore escaped (requireBefore "-" (requireBefore "/"
    (replaceAll (s.replacements tokens) rule)))
  body ++ (if closed then escaped else []) ++ (if complete then ['$'] else [])

end UrlRouting.Template

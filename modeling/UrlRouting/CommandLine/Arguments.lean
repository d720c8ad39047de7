import UrlRouting.Text.Basic
import UrlRouting.Text.CharClass

/-!
Arguments of a command: words, which are taken by position, and flags, which may stand anywhere
before a double hyphen. A long flag may be shortened as long as it stays unambiguous; its value
follows as the next word or after an equals sign. The value of a short flag may follow at once.
-/

namespace UrlRouting.CommandLine

inductive FlagKind where
  | help
  | switch
  | value
deriving DecidableEq

structure Flag where
  names : List Text
  kind : FlagKind
deriving DecidableEq

/-- A value that is written in one argument with its flag, perhaps after an equals sign. -/
structure Attached where
  text : Text
  afterSign : Bool
deriving DecidableEq

inductive Item where
  | word (t : Text)
  | mark
  | flag (flag : Flag) (attached : Option Attached)
  | unknown
deriving DecidableEq

inductive Reading (α : Type) where
  | help
  | misuse
  | ok (a : α)

structure Given where
  words : List Text
  flags : List (Flag × Text)

namespace Flag

def find? (flags : List Flag) (name : Text) : Option Flag :=
  flags.find? fun f ↦ f.names.contains name

def isNegativeNumber : Text → Bool
  | '-' :: rest =>
    let rest := if Text.endsWith rest ['\n'] then rest.dropLast else rest
    match Text.cut? '.' rest with
    | none => !rest.isEmpty && rest.all Text.isDigit
    | some (whole, part) => whole.all Text.isDigit && !part.isEmpty && part.all Text.isDigit
  | _ => false

def startingWith (flags : List Flag) (front : Text) : List Flag :=
  flags.flatMap fun f ↦ (f.names.filter fun name ↦ Text.startsWith name front).map fun _ ↦ f

/-- The flags that an argument may stand for if it is none of the names: a shortened long flag, or
a short flag with its value. -/
def candidates (flags : List Flag) (t : Text) : List (Flag × Option Attached) :=
  if Text.startsWith t "--" then
    match Text.cut? '=' t with
    | some (front, value) => (startingWith flags front).map fun f ↦ (f, some ⟨value, true⟩)
    | none => (startingWith flags t).map fun f ↦ (f, none)
  else
    (find? flags (t.take 2)).toList.map fun f ↦ (f, some ⟨t.drop 2, false⟩)

/-- The flag that an argument names in full, with a value after an equals sign if there is one. -/
def spelled? (flags : List Flag) (t : Text) : Option Item :=
  match find? flags t with
  | some f => some (.flag f none)
  | none =>
    match Text.cut? '=' t with
    | some (name, value) => (find? flags name).map fun f ↦ .flag f (some ⟨value, true⟩)
    | none => none

/-- Reads an argument before the double hyphen, `none` if it is ambiguous. -/
def readItem (flags : List Flag) (t : Text) : Option Item :=
  if !Text.startsWith t "-" || t = ['-'] then some (.word t)
  else
    match spelled? flags t with
    | some item => some item
    | none =>
      match candidates flags t with
      | [] => some (if isNegativeNumber t || t.contains ' ' then .word t else .unknown)
      | [(f, attached)] => some (.flag f attached)
      | _ => none

def readItems (flags : List Flag) : List Text → Option (List Item)
  | [] => some []
  | t :: rest =>
    if t = ['-', '-'] then some (.mark :: rest.map .word)
    else
      match readItem flags t with
      | some item => (readItems flags rest).map (item :: ·)
      | none => none

/-- The outcome of a flag that asks for help and has something attached: further short flags, of
which one that takes a value needs it in the same argument or as the next word. -/
def helpWith (flags : List Flag) (next : Bool) (afterSign : Bool) : Text → Reading Unit
  | [] => .misuse
  | c :: rest =>
    if afterSign || c = '-' then .misuse
    else
      match find? flags ['-', c], rest with
      | none, _ => .help
      | some f, [] => if f.kind = .value && !next then .misuse else .help
      | some f, d :: rest =>
        if f.kind = .value then .help
        else if d = '=' then helpWith flags next true rest
        else helpWith flags next false (d :: rest)

end Flag

namespace Given

structure Progress where
  wanted : Nat
  given : Given
  excess : Bool
  afterWord : Bool

def Progress.word (p : Progress) (t : Text) : Progress :=
  if p.wanted = 0 then { p with excess := true, afterWord := false }
  else
    { p with
      wanted := p.wanted - 1
      given := { p.given with words := p.given.words ++ [t] }
      afterWord := true }

def Progress.flag (p : Progress) (f : Flag) (value : Text) : Progress :=
  { p with given := { p.given with flags := p.given.flags ++ [(f, value)] }, afterWord := false }

/-- Takes a double hyphen, which has to stand beside a word that is wanted. -/
def Progress.mark (p : Progress) : Progress :=
  { p with excess := p.excess || (!p.afterWord && p.wanted = 0), afterWord := false }

def nextIsWord : List Item → Bool
  | .word _ :: _ => true
  | _ => false

def readFrom (flags : List Flag) : Progress → List Item → Reading Given
  | p, [] => if p.wanted = 0 && !p.excess then .ok p.given else .misuse
  | p, .word t :: rest => readFrom flags (p.word t) rest
  | p, .mark :: rest => readFrom flags p.mark rest
  | p, .unknown :: rest => readFrom flags { p with excess := true, afterWord := false } rest
  | p, .flag f attached :: rest =>
    match f.kind, attached with
    | .help, none => .help
    | .help, some a =>
      match Flag.helpWith flags (nextIsWord rest) a.afterSign a.text with
      | .misuse => .misuse
      | _ => .help
    | .switch, none => readFrom flags (p.flag f []) rest
    | .switch, some _ => .misuse
    | .value, some a => readFrom flags (p.flag f a.text) rest
    | .value, none =>
      match rest with
      | .word t :: rest => readFrom flags (p.flag f t) rest
      | _ => .misuse

def read (flags : List Flag) (count : Nat) (args : List Text) : Reading Given :=
  match Flag.readItems flags args with
  | some items => readFrom flags ⟨count, ⟨[], []⟩, false, false⟩ items
  | none => .misuse

def last? (g : Given) (f : Flag) : Option Text :=
  ((g.flags.filter fun entry ↦ entry.1 = f).getLast?).map Prod.snd

def all (g : Given) (f : Flag) : List Text :=
  (g.flags.filter fun entry ↦ entry.1 = f).map Prod.snd

end Given

end UrlRouting.CommandLine

import UrlRouting.Text.Basic
import UrlRouting.Text.CharClass

/-!
Shorthands for variables. A rule string may write `[:id]` or `{id?}` for the optional variable
`<id?>`, and `:id` or `{id}` for the required variable `<id>`.
-/

namespace UrlRouting.Template

/-- The name at the head of a text: an ASCII letter or an underscore, then word characters. -/
def nameAt? : Text → Option Text
  | [] => none
  | c :: rest =>
    if Text.isAsciiLetter c || c == '_' then some (c :: rest.takeWhile Text.isWord) else none

/-- A way to write a variable: what stands before and after its name, and whether it is
optional. -/
structure Shorthand where
  opening : Text
  closing : Text
  optional : Bool

namespace Shorthand

/-- The four shorthands, in the order in which they are expanded. -/
def all : List Shorthand :=
  [⟨"[:", "]", true⟩, ⟨":", "", false⟩, ⟨"\x7b", "?\x7d", true⟩, ⟨"\x7b", "\x7d", false⟩]

def canonical (name : Text) (optional : Bool) : Text :=
  '<' :: name ++ (if optional then ['?', '>'] else ['>'])

def find? (s : Shorthand) (t : Text) : Option Text :=
  if Text.startsWith t s.opening then
    match nameAt? (t.drop s.opening.length) with
    | some name =>
      if Text.startsWith (t.drop (s.opening.length + name.length)) s.closing then some name
      else none
    | none => none
  else none

def size (s : Shorthand) (name : Text) : Nat := s.opening.length + name.length + s.closing.length

/-- Expands the shorthand throughout a text, after `skip` characters of the occurrence at hand. -/
def expandAfter (s : Shorthand) : Nat → Text → Text
  | _, [] => []
  | skip + 1, _ :: rest => expandAfter s skip rest
  | 0, c :: rest =>
    match s.find? (c :: rest) with
    | some name => canonical name s.optional ++ expandAfter s (s.size name - 1) rest
    | none => c :: expandAfter s 0 rest

def expand (s : Shorthand) (t : Text) : Text := s.expandAfter 0 t

end Shorthand

def normalize (rule : Text) : Text := Shorthand.all.foldl (fun t s ↦ s.expand t) rule

end UrlRouting.Template

import UrlRouting.Text.Basic
import UrlRouting.Text.CharClass

/-!
The tokens of a rule string. A token is a word with a separator before it, if one stands there, and
with whatever angle brackets and question mark enclose it. A token that begins with an angle
bracket is a variable; the text between tokens is left alone.
-/

namespace UrlRouting.Template

/-- The characters that separate words: slash, hyphen and those of the delimiter. -/
def isSeparator (delimiter : Text) (c : Char) : Bool :=
  c == '/' || c == '-' || delimiter.contains c

def dropChar (mark : Char) : Text → Text
  | [] => []
  | c :: rest => if c = mark then rest else c :: rest

def afterWord? (t : Text) : Option Text :=
  let inner := dropChar '<' t
  let after := inner.dropWhile Text.isWord
  if after.length < inner.length then some (dropChar '>' (dropChar '?' after)) else none

def afterVariable? : Text → Option Text
  | '<' :: inner =>
    let after := inner.dropWhile Text.isWord
    if after.length < inner.length then
      match dropChar '?' after with
      | '>' :: rest => some rest
      | _ => none
    else none
  | _ => none

/-- What follows a piece at the head of a text, where a separator may stand before the piece. -/
def afterSeparated? (delimiter : Text) (piece : Text → Option Text) : Text → Option Text
  | [] => none
  | c :: rest =>
    if isSeparator delimiter c then
      match piece rest with
      | some after => some after
      | none => piece (c :: rest)
    else piece (c :: rest)

/-- The tokens of a text, after `skip` characters of the token at hand. -/
def tokensAfter (delimiter : Text) : Nat → Text → List Text
  | _, [] => []
  | skip + 1, _ :: rest => tokensAfter delimiter skip rest
  | 0, c :: rest =>
    match afterSeparated? delimiter afterWord? (c :: rest) with
    | some after =>
      (c :: rest).take ((c :: rest).length - after.length) ::
        tokensAfter delimiter (rest.length - after.length) rest
    | none => tokensAfter delimiter 0 rest

def tokens (delimiter rule : Text) : List Text := tokensAfter delimiter 0 rule

def literalHead (delimiter : Text) : Text → Text
  | [] => []
  | c :: rest =>
    match afterSeparated? delimiter afterVariable? (c :: rest) with
    | some _ => []
    | none => c :: literalHead delimiter rest

end UrlRouting.Template

import UrlRouting.Text.Basic
import UrlRouting.Text.CharClass
import UrlRouting.Text.CaseTable

/-!
Small letters, capital letters, and the equality of letters that disregards case.

A text is put into small letters character by character, with one exception: a capital sigma at the
end of a word becomes the final form of the small letter.
-/

namespace UrlRouting.Text

def shiftBy (runs : List CaseRun) (c : Char) : Char :=
  match runs.find? fun run ↦ run.covers c.toNat with
  | some run => Char.ofNat (run.target c.toNat)
  | none => c

/-- The small letter of a character, where that is one character. -/
def lowerChar (c : Char) : Char :=
  if c.val < 128 then c.toLower
  else if c = 'İ' then 'i'
  else shiftBy CaseTable.toLower c

/-- The small form of a character; that of a capital I with a dot keeps the dot as a mark. -/
def lowerForm (c : Char) : Text :=
  if c = 'İ' then ['i', '\u0307'] else [lowerChar c]

def nextIsCased (t : Text) : Bool :=
  match t.dropWhile isCaseIgnorable with
  | [] => false
  | c :: _ => isCased c

/-- The small form of a sigma, given the text before it, last character first, and after it. -/
def lowerSigma (before after : Text) : Char :=
  if nextIsCased before && !nextIsCased after then 'ς' else 'σ'

/-- The small form of a text that follows `before`, which is given last character first. -/
def lowerAfter (before : Text) : Text → Text
  | [] => []
  | c :: rest =>
    (if c = 'Σ' then [lowerSigma before rest] else lowerForm c) ++ lowerAfter (c :: before) rest

def lower (t : Text) : Text := lowerAfter [] t

/-- The capital form of a character, which may be longer than one character. -/
def upperForm (c : Char) : Text :=
  if c.val < 128 then [c.toUpper]
  else
    match CaseTable.toUpperLong.find? fun entry ↦ entry.1 == c.toNat with
    | some entry => entry.2.map Char.ofNat
    | none => [shiftBy CaseTable.toUpper c]

def upper (t : Text) : Text := t.flatMap upperForm

/-! ### Matching without regard to case -/

def sameLetter (c : Char) : List Char :=
  match CaseTable.sameLetter.find? fun letters ↦ letters.contains c.toNat with
  | some letters => letters.map Char.ofNat
  | none => [c]

/-- The character that stands for all that match `c` without regard to case. -/
def foldChar (c : Char) : Char := (sameLetter (lowerChar c)).headD c

def capitals (c : Char) : List Char :=
  (if c.isLower then [c.toUpper] else []) ++ (if c = 'i' then ['İ'] else []) ++
    (CaseTable.toLower.flatMap fun run ↦ run.preimages c.toNat).map Char.ofNat

def caseVariants (c : Char) : List Char :=
  (sameLetter (lowerChar c)).flatMap fun small ↦ small :: capitals small

/-- The characters that match `c` where only ASCII letters have case. -/
def asciiVariants (c : Char) : List Char := [c.toLower, c.toUpper]

def sameFolded (s t : Text) : Bool := s.map foldChar == t.map foldChar

end UrlRouting.Text

import UrlRouting.Regex.Basic
import UrlRouting.Decimal.Numeral

/-!
The lexical level of the notation for expressions. A token is complete in itself: escapes,
character sets, repetition counts and group openings are each one token, and the modes that a group
switches on or off are already worked into the tokens between its parentheses.
-/

namespace UrlRouting.Regex

inductive Defect where
  | malformed
  | excessiveCount
deriving DecidableEq, Repr

structure Modes where
  ignoreCase : Bool
  asciiOnly : Bool
  lines : Bool
  dotAll : Bool
  spaced : Bool
deriving DecidableEq, Repr

def Modes.folding (modes : Modes) : Folding :=
  if modes.ignoreCase then if modes.asciiOnly then .ascii else .full else .exact

inductive GroupRef where
  | number (n : Nat)
  | name (name : Text)
deriving DecidableEq, Repr

inductive Opening where
  | capture (name : Option Text)
  | plain
  | atomic
  | ahead (negated : Bool)
  | behind (negated : Bool)
  | choice (condition : GroupRef)
deriving DecidableEq, Repr

inductive Token where
  | char (set : CharSet)
  | anchor (anchor : Anchor)
  | count (least : Nat) (most : Option Nat) (appetite : Appetite)
  | enter (opening : Opening)
  | leave
  | bar
  | recall (group : GroupRef) (folding : Folding)
deriving DecidableEq, Repr

namespace Token

def literal (modes : Modes) (code : Nat) : Token :=
  .char ⟨[.single code], false, modes.folding⟩

/-! ### Escapes -/

def octalValue? (c : Char) : Option Nat :=
  if '0' ≤ c && c ≤ '7' then some (c.toNat - '0'.toNat) else none

def readHex (value : Nat) : Nat → Text → Except Defect (Nat × Text)
  | 0, t => .ok (value, t)
  | missing + 1, c :: rest =>
    match Text.hexValue? c with
    | some d => readHex (16 * value + d) missing rest
    | none => .error .malformed
  | _ + 1, [] => .error .malformed

def readOctal (value : Nat) : Nat → Text → Nat × Text
  | 0, t => (value, t)
  | missing + 1, c :: rest =>
    match octalValue? c with
    | some d => readOctal (8 * value + d) missing rest
    | none => (value, c :: rest)
  | _ + 1, [] => (value, [])

def control? : Char → Option Nat
  | 'a' => some 7
  | 'f' => some 12
  | 'n' => some 10
  | 'r' => some 13
  | 't' => some 9
  | 'v' => some 11
  | _ => none

def category? (asciiOnly : Bool) : Char → Option SetItem
  | 'd' => some (.category .digit asciiOnly false)
  | 'D' => some (.category .digit asciiOnly true)
  | 's' => some (.category .blank asciiOnly false)
  | 'S' => some (.category .blank asciiOnly true)
  | 'w' => some (.category .word asciiOnly false)
  | 'W' => some (.category .word asciiOnly true)
  | _ => none

/-- Reads what follows a backslash and stands for one code point, a back reference or an octal code
apart. -/
def readCode (c : Char) (rest : Text) : Except Defect (Nat × Text) :=
  match control? c with
  | some code => .ok (code, rest)
  | none =>
    if c = 'x' then readHex 0 2 rest
    else if c = 'u' then readHex 0 4 rest
    else if c = 'U' then do
      let (code, rest) ← readHex 0 8 rest
      if code < 0x110000 then .ok (code, rest) else .error .malformed
    else if Text.isAsciiLetter c then .error .malformed
    else .ok (c.toNat, rest)

/-! ### Character sets -/

def readMember (asciiOnly : Bool) : Text → Except Defect (SetItem × Text)
  | [] => .error .malformed
  | ['\\'] => .error .malformed
  | '\\' :: c :: rest =>
    match category? asciiOnly c, octalValue? c with
    | some item, _ => .ok (item, rest)
    | none, some d =>
      let (code, rest) := readOctal d 2 rest
      if code ≤ 0o377 then .ok (.single code, rest) else .error .malformed
    | none, none =>
      if c = 'b' then .ok (.single 8, rest)
      else if c.isDigit then .error .malformed
      else (readCode c rest).map fun (code, rest) ↦ (.single code, rest)
  | c :: rest => .ok (.single c.toNat, rest)

/-- The range between two members, which have to be single characters in order. -/
def range : SetItem → SetItem → Except Defect SetItem
  | .single low, .single high => if low ≤ high then .ok (.range low high) else .error .malformed
  | _, _ => .error .malformed

/-- Reads the members of a set up to the closing bracket; a bracket that comes first is a
member. -/
def readMembers (asciiOnly : Bool) :
    Nat → List SetItem → Text → Except Defect (List SetItem × Text)
  | 0, _, _ => .error .malformed
  | fuel + 1, items, t =>
    match t, items with
    | ']' :: rest, _ :: _ => .ok (items.reverse, rest)
    | t, items => do
      let (item, rest) ← readMember asciiOnly t
      match rest with
      | '-' :: ']' :: rest => .ok ((.single '-'.toNat :: item :: items).reverse, rest)
      | '-' :: rest =>
        let (other, rest) ← readMember asciiOnly rest
        readMembers asciiOnly fuel ((← range item other) :: items) rest
      | rest => readMembers asciiOnly fuel (item :: items) rest

def readSet (modes : Modes) (t : Text) : Except Defect (Token × Text) :=
  let (negated, t) :=
    match t with
    | '^' :: rest => (true, rest)
    | t => (false, t)
  (readMembers modes.asciiOnly (t.length + 1) [] t).map fun (items, rest) ↦
    (.char ⟨items, negated, modes.folding⟩, rest)

/-! ### Escapes outside sets -/

def readEscape (modes : Modes) (c : Char) (rest : Text) : Except Defect (Token × Text) :=
  match category? modes.asciiOnly c with
  | some item => .ok (.char ⟨[item], false, modes.folding⟩, rest)
  | none =>
    if c = 'A' then .ok (.anchor .textStart, rest)
    else if c = 'Z' then .ok (.anchor .textEnd, rest)
    else if c = 'b' then .ok (.anchor (.wordBoundary modes.asciiOnly), rest)
    else if c = 'B' then .ok (.anchor (.noWordBoundary modes.asciiOnly), rest)
    else if c = '0' then
      let (code, rest) := readOctal 0 2 rest
      .ok (literal modes code, rest)
    else if c.isDigit then
      match rest with
      | d :: rest =>
        if d.isDigit then
          match octalValue? c, octalValue? d, rest.head?.bind octalValue? with
          | some x, some y, some z =>
            let code := 64 * x + 8 * y + z
            if code ≤ 0o377 then .ok (literal modes code, rest.tail) else .error .malformed
          | _, _, _ =>
            .ok (.recall (.number (Decimal.ofDigits [c.toNat - '0'.toNat, d.toNat - '0'.toNat]))
              modes.folding, rest)
        else .ok (.recall (.number (c.toNat - '0'.toNat)) modes.folding, d :: rest)
      | [] => .ok (.recall (.number (c.toNat - '0'.toNat)) modes.folding, [])
    else (readCode c rest).map fun (code, rest) ↦ (literal modes code, rest)

/-! ### Counts -/

def countLimit : Nat := 4294967295

def readAppetite : Text → Appetite × Text
  | '?' :: rest => (.lazy, rest)
  | '+' :: rest => (.possessive, rest)
  | t => (.greedy, t)

/-- The number that a run of ASCII digits denotes, `none` for no digits. -/
def countOf? (digits : Text) : Option Nat :=
  if digits.isEmpty then none
  else some (Decimal.ofDigits (digits.map fun c ↦ c.toNat - '0'.toNat))

/-- Reads the bounds of a repetition after its opening brace, `none` if it is no repetition. -/
def readBounds? (t : Text) : Option ((Option Nat × Option Nat) × Text) :=
  match t with
  | '\x7d' :: _ => none
  | t =>
    let least := countOf? (t.takeWhile Char.isDigit)
    match t.dropWhile Char.isDigit with
    | '\x7d' :: rest => some ((least, least), rest)
    | ',' :: rest =>
      match rest.dropWhile Char.isDigit with
      | '\x7d' :: after => some ((least, countOf? (rest.takeWhile Char.isDigit)), after)
      | _ => none
    | _ => none

def counted (bounds : Option Nat × Option Nat) (t : Text) : Except Defect (Token × Text) :=
  let least := bounds.1.getD 0
  if countLimit ≤ least then .error .excessiveCount
  else
    match bounds.2 with
    | some most =>
      if countLimit ≤ most then .error .excessiveCount
      else if most < least then .error .malformed
      else
        let (appetite, rest) := readAppetite t
        .ok (.count least (some most) appetite, rest)
    | none =>
      let (appetite, rest) := readAppetite t
      .ok (.count least none appetite, rest)

/-! ### Group openings -/

def readName (terminator : Char) (t : Text) : Except Defect (Text × Text) :=
  match Text.cut? terminator t with
  | some (name, rest) => if Text.isIdentifier name then .ok (name, rest) else .error .malformed
  | none => .error .malformed

/-- The group that the condition of a choice names: an identifier or a positive number. -/
def condition (t : Text) : Except Defect GroupRef :=
  if Text.isIdentifier t then .ok (.name t)
  else
    match Decimal.readInt? t with
    | some (.ofNat (n + 1)) => .ok (.number (n + 1))
    | _ => .error .malformed

/-- Switches modes on. Comparing all letters and comparing ASCII letters exclude each other. -/
def switchOn (modes : Modes) (letters : Text) : Except Defect Modes :=
  if letters.contains 'a' && letters.contains 'u' then .error .malformed
  else
    .ok { ignoreCase := modes.ignoreCase || letters.contains 'i'
          asciiOnly := letters.contains 'a' || (modes.asciiOnly && !letters.contains 'u')
          lines := modes.lines || letters.contains 'm'
          dotAll := modes.dotAll || letters.contains 's'
          spaced := modes.spaced || letters.contains 'x' }

def switchOff (modes : Modes) (letters : Text) : Modes :=
  { ignoreCase := modes.ignoreCase && !letters.contains 'i'
    asciiOnly := modes.asciiOnly
    lines := modes.lines && !letters.contains 'm'
    dotAll := modes.dotAll && !letters.contains 's'
    spaced := modes.spaced && !letters.contains 'x' }

/-- Reads the modes of a group up to the colon. Letters before a minus sign are switched on, those
after it off, and no letter may be in both places. Modes cannot be set for the whole expression,
since a rule's expression does not begin with them. -/
def readModes (modes : Modes) (t : Text) : Except Defect (Modes × Text) :=
  let on := t.takeWhile fun c ↦ "aimsux".toList.contains c
  match t.dropWhile fun c ↦ "aimsux".toList.contains c with
  | ':' :: rest =>
    if on.isEmpty then .error .malformed else (switchOn modes on).map fun modes ↦ (modes, rest)
  | '-' :: rest =>
    let off := rest.takeWhile fun c ↦ "imsx".toList.contains c
    match rest.dropWhile fun c ↦ "imsx".toList.contains c with
    | ':' :: rest =>
      if off.isEmpty || off.any (on.contains ·) then .error .malformed
      else (switchOn modes on).map fun modes ↦ (switchOff modes off, rest)
    | _ => .error .malformed
  | _ => .error .malformed

/-- What follows the first occurrence of a terminator that no backslash stands before, `none` if
the text ends first. -/
def dropThrough (terminator : Char) : Text → Except Defect (Option Text)
  | [] => .ok none
  | ['\\'] => .error .malformed
  | '\\' :: _ :: rest => dropThrough terminator rest
  | c :: rest => if c = terminator then .ok (some rest) else dropThrough terminator rest

/-- What a parenthesis opens: a group with its modes, or a token that is complete. A comment is
neither. -/
inductive Parenthesis where
  | group (opening : Opening) (modes : Modes)
  | complete (token : Token)
  | comment

def readParenthesis (modes : Modes) : Text → Except Defect (Parenthesis × Text)
  | '?' :: 'P' :: '<' :: rest =>
    (readName '>' rest).map fun (name, rest) ↦ (.group (.capture (some name)) modes, rest)
  | '?' :: 'P' :: '=' :: rest =>
    (readName ')' rest).map fun (name, rest) ↦
      (.complete (.recall (.name name) modes.folding), rest)
  | '?' :: ':' :: rest => .ok (.group .plain modes, rest)
  | '?' :: '#' :: rest =>
    match dropThrough ')' rest with
    | .ok (some rest) => .ok (.comment, rest)
    | _ => .error .malformed
  | '?' :: '=' :: rest => .ok (.group (.ahead false) modes, rest)
  | '?' :: '!' :: rest => .ok (.group (.ahead true) modes, rest)
  | '?' :: '<' :: '=' :: rest => .ok (.group (.behind false) modes, rest)
  | '?' :: '<' :: '!' :: rest => .ok (.group (.behind true) modes, rest)
  | '?' :: '(' :: rest =>
    match Text.cut? ')' rest with
    | some (name, rest) =>
      (condition name).map fun condition ↦ (.group (.choice condition) modes, rest)
    | none => .error .malformed
  | '?' :: '>' :: rest => .ok (.group .atomic modes, rest)
  | '?' :: rest => (readModes modes rest).map fun (modes, rest) ↦ (.group .plain modes, rest)
  | t => .ok (.group (.capture none) modes, t)

/-! ### Tokens -/

/-- A character that is passed over between tokens where the spaced mode is on. -/
def isSpacing (c : Char) : Bool := c == ' ' || ('\t' ≤ c && c ≤ '\r')

def followedBy (token : Token) (rest : Except Defect (List Token)) : Except Defect (List Token) :=
  rest.map (token :: ·)

/-- The tokens of a text between parentheses that brought the given modes, innermost first. -/
def scanFrom : Nat → Modes → List Modes → Text → Except Defect (List Token)
  | _, _, _, [] => .ok []
  | 0, _, _, _ :: _ => .error .malformed
  | fuel + 1, modes, outer, c :: rest =>
    if modes.spaced && isSpacing c then scanFrom fuel modes outer rest
    else if modes.spaced && c == '#' then
      match dropThrough '\n' rest with
      | .ok after => scanFrom fuel modes outer (after.getD [])
      | .error defect => .error defect
    else
      match c with
      | '\\' =>
        match rest with
        | [] => .error .malformed
        | d :: rest =>
          match readEscape modes d rest with
          | .ok (token, rest) => followedBy token (scanFrom fuel modes outer rest)
          | .error defect => .error defect
      | '[' =>
        match readSet modes rest with
        | .ok (token, rest) => followedBy token (scanFrom fuel modes outer rest)
        | .error defect => .error defect
      | '.' =>
        let items := if modes.dotAll then [] else [SetItem.single '\n'.toNat]
        followedBy (.char ⟨items, true, .exact⟩) (scanFrom fuel modes outer rest)
      | '^' =>
        followedBy (.anchor (if modes.lines then .lineStart else .textStart))
          (scanFrom fuel modes outer rest)
      | '$' =>
        followedBy (.anchor (if modes.lines then .lineEnd else .closingEnd))
          (scanFrom fuel modes outer rest)
      | '|' => followedBy .bar (scanFrom fuel modes outer rest)
      | '*' =>
        let (appetite, rest) := readAppetite rest
        followedBy (.count 0 none appetite) (scanFrom fuel modes outer rest)
      | '+' =>
        let (appetite, rest) := readAppetite rest
        followedBy (.count 1 none appetite) (scanFrom fuel modes outer rest)
      | '?' =>
        let (appetite, rest) := readAppetite rest
        followedBy (.count 0 (some 1) appetite) (scanFrom fuel modes outer rest)
      | '\x7b' =>
        match readBounds? rest with
        | some (bounds, after) =>
          match counted bounds after with
          | .ok (token, rest) => followedBy token (scanFrom fuel modes outer rest)
          | .error defect => .error defect
        | none => followedBy (literal modes c.toNat) (scanFrom fuel modes outer rest)
      | '(' =>
        match readParenthesis modes rest with
        | .ok (.group opening inner, rest) =>
          followedBy (.enter opening) (scanFrom fuel inner (modes :: outer) rest)
        | .ok (.complete token, rest) => followedBy token (scanFrom fuel modes outer rest)
        | .ok (.comment, rest) => scanFrom fuel modes outer rest
        | .error defect => .error defect
      | ')' =>
        match outer with
        | modes :: outer => followedBy .leave (scanFrom fuel modes outer rest)
        | [] => .error .malformed
      | c => followedBy (literal modes c.toNat) (scanFrom fuel modes outer rest)

def scan (ignoreCase : Bool) (t : Text) : Except Defect (List Token) :=
  scanFrom t.length ⟨ignoreCase, false, false, false, false⟩ [] t

end Token

end UrlRouting.Regex

import UrlRouting.Regex.Parser

/-!
Matching by search: an expression is tried at a place with a continuation for what has to match
after it, and where that fails, the next way to match it is tried.
-/

namespace UrlRouting.Regex

/-- A place in a text, with what lies before it, nearest first, and after it, and what the groups
have matched, latest first. -/
structure Place where
  before : Text
  after : Text
  groups : List (Nat × Text)
deriving DecidableEq

namespace Place

def start (t : Text) : Place := ⟨[], t, []⟩

def back? (p : Place) (count : Nat) : Option Place :=
  if count ≤ p.before.length then
    some { p with
      before := p.before.drop count
      after := (p.before.take count).reverse ++ p.after }
  else none

def past? (p : Place) (folding : Folding) (t : Text) : Option Place :=
  let found := p.after.take t.length
  if found.map folding.key == t.map folding.key then
    some { p with before := found.reverse ++ p.before, after := p.after.drop t.length }
  else none

def upTo (p q : Place) : Text := p.after.take (p.after.length - q.after.length)

def atWordBoundary (p : Place) (asciiOnly : Bool) : Bool :=
  (p.before.head?.any (Category.word.holds asciiOnly)) !=
    (p.after.head?.any (Category.word.holds asciiOnly))

def inEmptyText (p : Place) : Bool := p.before.isEmpty && p.after.isEmpty

def fits (p : Place) : Anchor → Bool
  | .textStart => p.before.isEmpty
  | .lineStart => p.before.head?.all (· == '\n')
  | .textEnd => p.after.isEmpty
  | .closingEnd => p.after.isEmpty || p.after == ['\n']
  | .lineEnd => p.after.head?.all (· == '\n')
  | .wordBoundary asciiOnly => p.atWordBoundary asciiOnly
  | .noWordBoundary asciiOnly => !p.inEmptyText && !p.atWordBoundary asciiOnly

end Place

/-- Goes on from a place to the place where the whole match ends, if there is a match. -/
abbrev Continuation := Place → Option Place

/-- A way to match a part of an expression at a place, before what the continuation matches. -/
abbrev Matcher := Place → Continuation → Option Place

def allowsMore (count : Nat) : Option Nat → Bool
  | none => true
  | some most => decide (count < most)

/-- Repeats a matcher. Repetitions up to `least` are compulsory. A further one is tried only where
the last one that was not compulsory began elsewhere, as `last`, the length of the text after it,
tells. -/
def Matcher.loop (body : Matcher) (least : Nat) (most : Option Nat) (hurry : Bool) :
    Nat → Nat → Option Nat → Matcher
  | 0, _, _, _, _ => none
  | fuel + 1, count, last, p, k =>
    if count < least then
      body p fun q ↦ Matcher.loop body least most hurry fuel (count + 1) last q k
    else
      let further := fun (_ : Unit) ↦
        if allowsMore count most && last != some p.after.length then
          body p fun q ↦
            Matcher.loop body least most hurry fuel (count + 1) (some p.after.length) q k
        else none
      if hurry then (k p).orElse further else (further ()).orElse fun _ ↦ k p

/-- Repeats a matcher as often as possible, taking each repetition in its first way only. -/
def Matcher.exhaust (body : Matcher) (least : Nat) (most : Option Nat) :
    Nat → Nat → Option Nat → Continuation
  | 0, _, _, _ => none
  | fuel + 1, count, last, p =>
    if count < least then
      (body p some).bind fun q ↦ Matcher.exhaust body least most fuel (count + 1) last q
    else if allowsMore count most && last != some p.after.length then
      match body p some with
      | some q => Matcher.exhaust body least most fuel (count + 1) (some p.after.length) q
      | none => some p
    else some p

/-- More steps than a repetition can take from a place: the compulsory ones, one for each character
that is left, one without progress and the end. -/
def loopFuel (least : Nat) (p : Place) : Nat := least + p.after.length + 2

def Node.run : Node → Matcher
  | .empty => fun p k ↦ k p
  | .char set => fun p k ↦
    match p.after with
    | [] => none
    | c :: rest =>
      if set.contains c then k { p with before := c :: p.before, after := rest } else none
  | .anchor a => fun p k ↦ if p.fits a then k p else none
  | .seq first second => fun p k ↦ first.run p fun q ↦ second.run q k
  | .alt left right => fun p k ↦ (left.run p k).orElse fun _ ↦ right.run p k
  | .loop body least most .greedy => fun p k ↦
    Matcher.loop body.run least most false (loopFuel least p) 0 none p k
  | .loop body least most .lazy => fun p k ↦
    Matcher.loop body.run least most true (loopFuel least p) 0 none p k
  | .loop body least most .possessive => fun p k ↦
    (Matcher.exhaust body.run least most (loopFuel least p) 0 none p).bind k
  | .capture group body => fun p k ↦
    body.run p fun q ↦ k { q with groups := (group, p.upTo q) :: q.groups }
  | .recall group folding => fun p k ↦
    ((p.groups.lookup group).bind fun t ↦ p.past? folding t).bind k
  | .atomic body => fun p k ↦ (body.run p some).bind k
  | .ahead body false => fun p k ↦
    (body.run p some).bind fun q ↦ k { p with groups := q.groups }
  | .ahead body true => fun p k ↦ if (body.run p some).isSome then none else k p
  | .behind body width false => fun p k ↦
    ((p.back? width).bind fun q ↦ body.run q some).bind fun q ↦ k { p with groups := q.groups }
  | .behind body width true => fun p k ↦
    if ((p.back? width).bind fun q ↦ body.run q some).isSome then none else k p
  | .choice group present absent => fun p k ↦
    if (p.groups.lookup group).isSome then present.run p k else absent.run p k

end UrlRouting.Regex

namespace UrlRouting.Regex

/-- Matches the expression at the start of a text, up to a place that need not be its end. -/
def matchStart? (r : Regex) (t : Text) : Option Place := r.root.run (Place.start t) some

/-- What the named groups of a match hold, in the order in which the groups open. -/
def namedGroups (r : Regex) (p : Place) : List (Text × Option Text) :=
  r.names.map fun (name, group) ↦ (name, p.groups.lookup group)

end UrlRouting.Regex

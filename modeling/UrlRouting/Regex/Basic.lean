import UrlRouting.Regex.CharSet

/-!
Expressions as trees, and the width of the texts they match.
-/

namespace UrlRouting.Regex

inductive Anchor where
  | textStart
  | lineStart
  | textEnd
  /-- The end of the text, or just before a line feed that ends it. -/
  | closingEnd
  | lineEnd
  | wordBoundary (asciiOnly : Bool)
  | noWordBoundary (asciiOnly : Bool)
deriving DecidableEq, Repr

inductive Appetite where
  | greedy
  | lazy
  | possessive
deriving DecidableEq, Repr

inductive Node where
  | empty
  | char (set : CharSet)
  | anchor (anchor : Anchor)
  | seq (first second : Node)
  | alt (left right : Node)
  | loop (body : Node) (least : Nat) (most : Option Nat) (appetite : Appetite)
  | capture (group : Nat) (body : Node)
  /-- Matches what the group matched last. -/
  | recall (group : Nat) (folding : Folding)
  /-- Matches the body in one way only. -/
  | atomic (body : Node)
  | ahead (body : Node) (negated : Bool)
  /-- Asks whether the body, which matches `width` characters, matches up to here, or does not. -/
  | behind (body : Node) (width : Nat) (negated : Bool)
  | choice (group : Nat) (present absent : Node)
deriving DecidableEq, Repr

namespace Node

def sequence : List Node → Node
  | [] => empty
  | [n] => n
  | n :: rest => seq n (sequence rest)

def alternatives : List Node → Node
  | [] => empty
  | [n] => n
  | n :: rest => alt n (alternatives rest)

end Node

/-- The least and the greatest length of what an expression matches; `none` for no bound. -/
structure Width where
  least : Nat
  most : Option Nat
deriving DecidableEq, Repr

namespace Width

def add (v w : Width) : Width :=
  ⟨v.least + w.least, v.most.bind fun m ↦ w.most.map (m + ·)⟩

def join (v w : Width) : Width :=
  ⟨min v.least w.least, v.most.bind fun m ↦ w.most.map (max m)⟩

def repeated (w : Width) (least : Nat) (most : Option Nat) : Width :=
  ⟨w.least * least,
    match w.most, most with
    | some 0, _ => some 0
    | _, some 0 => some 0
    | some m, some n => some (m * n)
    | _, _ => none⟩

def fixed? (w : Width) : Option Nat :=
  if w.most = some w.least then some w.least else none

end Width

def Node.width (groups : List (Nat × Width)) : Node → Width
  | .empty | .anchor _ | .ahead _ _ | .behind _ _ _ => ⟨0, some 0⟩
  | .char _ => ⟨1, some 1⟩
  | .seq first second => (first.width groups).add (second.width groups)
  | .alt left right => (left.width groups).join (right.width groups)
  | .loop body least most _ => (body.width groups).repeated least most
  | .capture _ body | .atomic body => body.width groups
  | .recall group _ => (groups.lookup group).getD ⟨0, some 0⟩
  | .choice _ present absent => (present.width groups).join (absent.width groups)

end UrlRouting.Regex

namespace UrlRouting

/-- An expression with the names of its groups, in the order in which the groups open. -/
structure Regex where
  root : Regex.Node
  names : List (Text × Nat)
deriving DecidableEq

end UrlRouting

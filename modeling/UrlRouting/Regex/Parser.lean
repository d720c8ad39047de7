import UrlRouting.Regex.Token

/-!
From tokens to expressions. One pass over the tokens keeps, for every parenthesis that is still
open, what has been read since: the alternatives that are complete and the pieces of the one at
hand.
-/

namespace UrlRouting.Regex

/-- A part of a sequence. Positions and repetitions cannot be repeated themselves. -/
structure Piece where
  node : Node
  repeatable : Bool

inductive Enclosure where
  | whole
  | capture (group : Nat)
  | plain
  | atomic
  | ahead (negated : Bool)
  | behind (negated : Bool)
  | choice (group : Nat)

/-- What has been read since a parenthesis opened, latest first, and the bound on references that
was in force before it. -/
structure Level where
  enclosure : Enclosure
  alternatives : List Node
  pieces : List Piece
  bound : Option Nat

namespace Level

def fresh (enclosure : Enclosure) (bound : Option Nat) : Level := ⟨enclosure, [], [], bound⟩

def push (level : Level) (node : Node) (repeatable : Bool) : Level :=
  { level with pieces := ⟨node, repeatable⟩ :: level.pieces }

def endAlternative (level : Level) : Level :=
  { level with
    alternatives := Node.sequence (level.pieces.reverse.map Piece.node) :: level.alternatives
    pieces := [] }

def complete (level : Level) : List Node := level.endAlternative.alternatives.reverse

def node (level : Level) : Node := Node.alternatives level.complete

def repeatLast (level : Level) (least : Nat) (most : Option Nat) (appetite : Appetite) :
    Except Defect Level :=
  match level.pieces with
  | [] => .error .malformed
  | piece :: pieces =>
    if piece.repeatable then
      .ok { level with pieces := ⟨.loop piece.node least most appetite, false⟩ :: pieces }
    else .error .malformed

end Level

/-- The state of the pass. A group may be referred to once it is closed; inside a look-behind, only
groups numbered below `bound` may be. -/
structure Progress where
  current : Level
  outer : List Level
  groups : Nat
  names : List (Text × Nat)
  widths : List (Nat × Width)
  bound : Option Nat
  conditions : List Nat

namespace Progress

def start : Progress := ⟨Level.fresh .whole none, [], 0, [], [], none, []⟩

def push (p : Progress) (node : Node) (repeatable : Bool) : Progress :=
  { p with current := p.current.push node repeatable }

/-- The group may be referred to where the bound on references asks for it. -/
def withinBound (p : Progress) (group : Nat) : Bool :=
  match p.bound with
  | none => true
  | some bound => (p.widths.lookup group).isSome && decide (group < bound)

def resolve (p : Progress) (ref : GroupRef) : Except Defect Nat :=
  let group? :=
    match ref with
    | .number n => some n
    | .name name => p.names.lookup name
  match group? with
  | some group =>
    if (p.widths.lookup group).isSome && p.withinBound group then .ok group
    else .error .malformed
  | none => .error .malformed

def descend (p : Progress) (enclosure : Enclosure) : Progress :=
  { p with current := Level.fresh enclosure p.bound, outer := p.current :: p.outer }

def enter (p : Progress) : Opening → Except Defect Progress
  | .capture none =>
    .ok { p.descend (.capture (p.groups + 1)) with groups := p.groups + 1 }
  | .capture (some name) =>
    if (p.names.lookup name).isSome then .error .malformed
    else
      .ok { p.descend (.capture (p.groups + 1)) with
        groups := p.groups + 1
        names := p.names ++ [(name, p.groups + 1)] }
  | .plain => .ok (p.descend .plain)
  | .atomic => .ok (p.descend .atomic)
  | .ahead negated => .ok (p.descend (.ahead negated))
  | .behind negated =>
    .ok { p.descend (.behind negated) with bound := some (p.bound.getD (p.groups + 1)) }
  | .choice (.number n) =>
    if p.withinBound n then .ok { p.descend (.choice n) with conditions := n :: p.conditions }
    else .error .malformed
  | .choice (.name name) =>
    match p.names.lookup name with
    | some n => if p.withinBound n then .ok (p.descend (.choice n)) else .error .malformed
    | none => .error .malformed

def enclose (p : Progress) (level : Level) : Except Defect Node :=
  match level.enclosure with
  | .whole => .error .malformed
  | .capture group => .ok (.capture group level.node)
  | .plain => .ok level.node
  | .atomic => .ok (.atomic level.node)
  | .ahead negated => .ok (.ahead level.node negated)
  | .behind negated =>
    match (level.node.width p.widths).fixed? with
    | some width => .ok (.behind level.node width negated)
    | none => .error .malformed
  | .choice group =>
    match level.complete with
    | [present] => .ok (.choice group present .empty)
    | [present, absent] => .ok (.choice group present absent)
    | _ => .error .malformed

def leave (p : Progress) : Except Defect Progress :=
  match p.outer with
  | [] => .error .malformed
  | level :: outer =>
    (p.enclose p.current).map fun node ↦
      { p with
        current := level.push node true
        outer := outer
        widths :=
          match p.current.enclosure with
          | .capture group => (group, p.current.node.width p.widths) :: p.widths
          | _ => p.widths
        bound := p.current.bound }

def step (p : Progress) : Token → Except Defect Progress
  | .char set => .ok (p.push (.char set) true)
  | .anchor anchor => .ok (p.push (.anchor anchor) false)
  | .count least most appetite =>
    (p.current.repeatLast least most appetite).map fun level ↦ { p with current := level }
  | .enter opening => p.enter opening
  | .leave => p.leave
  | .bar => .ok { p with current := p.current.endAlternative }
  | .recall ref folding =>
    (p.resolve ref).map fun group ↦ p.push (.recall group folding) true

def run (p : Progress) : List Token → Except Defect Progress
  | [] => .ok p
  | token :: rest => (p.step token).bind fun p ↦ p.run rest

def finish (p : Progress) : Except Defect Regex :=
  if p.outer.isEmpty && p.conditions.all (fun n ↦ decide (n ≤ p.groups)) then
    .ok ⟨p.current.node, p.names⟩
  else .error .malformed

end Progress

end UrlRouting.Regex

namespace UrlRouting

def Regex.ofTokens (tokens : List Regex.Token) : Except Regex.Defect Regex :=
  (Regex.Progress.start.run tokens).bind Regex.Progress.finish

def Regex.parse (ignoreCase : Bool) (t : Text) : Except Regex.Defect Regex :=
  (Regex.Token.scan ignoreCase t).bind Regex.ofTokens

end UrlRouting

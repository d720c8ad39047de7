import UrlRouting.Proofs.Regex.Reading
import UrlRouting.Regex.Parser
import UrlRouting.Template.Synthesis

/-!
The patterns that a rule needs not spell out: the five that have a name and the default one. Each is
a repeated set of characters, but for the pattern of decimal fractions, which consists of two with a
dot between them.
-/

namespace UrlRouting.Template

open Regex

inductive Kind where
  | any
  | int
  | float
  | alpha
  | alphaNum
  | alphaDash
deriving DecidableEq

/-- The set that a character in an expression stands for. -/
def single (ignoreCase : Bool) (c : Char) : CharSet :=
  ⟨[.single c.toNat], false, (Modes.initial ignoreCase).folding⟩

namespace Kind

def name? : Kind → Option Text
  | any => none
  | int => some "int"
  | float => some "float"
  | alpha => some "alpha"
  | alphaNum => some "alphaNum"
  | alphaDash => some "alphaDash"

/-- The expression for one character. -/
def unit : Kind → Text
  | any => "[\\w\\.]"
  | int | float => "\\d"
  | alpha => "[A-Za-z]"
  | alphaNum => "[A-Za-z0-9]"
  | alphaDash => "[A-Za-z0-9\\-\\_]"

def text : Kind → Text
  | float => float.unit ++ ['+'] ++ (['\\', '.'] ++ (float.unit ++ ['+']))
  | kind => kind.unit ++ ['+']

def items : Kind → List SetItem
  | any => [.category .word false false, .single '.'.toNat]
  | int | float => [.category .digit false false]
  | alpha => [.range 'A'.toNat 'Z'.toNat, .range 'a'.toNat 'z'.toNat]
  | alphaNum =>
    [.range 'A'.toNat 'Z'.toNat, .range 'a'.toNat 'z'.toNat, .range '0'.toNat '9'.toNat]
  | alphaDash =>
    [.range 'A'.toNat 'Z'.toNat, .range 'a'.toNat 'z'.toNat, .range '0'.toNat '9'.toNat,
      .single '-'.toNat, .single '_'.toNat]

def set (ignoreCase : Bool) (kind : Kind) : CharSet :=
  ⟨kind.items, false, (Modes.initial ignoreCase).folding⟩

def run (ignoreCase : Bool) (kind : Kind) : Node :=
  .loop (.char (kind.set ignoreCase)) 1 none .greedy

def nodes (ignoreCase : Bool) : Kind → List Node
  | float => [float.run ignoreCase, .char (single ignoreCase '.'), float.run ignoreCase]
  | kind => [kind.run ignoreCase]

def tokens (ignoreCase : Bool) : Kind → List Token
  | float =>
    [.char (float.set ignoreCase), .count 1 none .greedy] ++
      ([.char (single ignoreCase '.')] ++
        [.char (float.set ignoreCase), .count 1 none .greedy])
  | kind => [.char (kind.set ignoreCase), .count 1 none .greedy]

variable {ignoreCase : Bool} {kind : Kind}

theorem text_default : any.text = defaultPattern := rfl

theorem text_named {name : Text} (h : kind.name? = some name) :
    namedPatterns.lookup name = some kind.text := by
  cases kind <;> cases h <;> decide

theorem not_mem_text (kind : Kind) : ')' ∉ kind.text := by cases kind <;> decide

theorem reads_unit (ignoreCase : Bool) (outer : List Modes) (kind : Kind) (follow : Text → Prop) :
    Token.Reads (.initial ignoreCase) outer kind.unit [.char (kind.set ignoreCase)] outer
      follow := by
  cases kind <;>
    exact .step (List.cons_ne_nil _ _) fun _ _ ↦ .flat outer (fun _ ↦ by decide) (by decide) rfl

theorem reads_run (ignoreCase : Bool) (outer : List Modes) (kind : Kind) :
    Token.Reads (.initial ignoreCase) outer (kind.unit ++ ['+'])
      [.char (kind.set ignoreCase), .count 1 none .greedy] outer Token.Reads.unmarked :=
  (reads_unit ignoreCase outer kind fun _ ↦ True).append (.repeated ignoreCase outer)
    fun _ _ ↦ trivial

theorem reads_text (ignoreCase : Bool) (outer : List Modes) (kind : Kind) :
    Token.Reads (.initial ignoreCase) outer kind.text (kind.tokens ignoreCase) outer
      Token.Reads.unmarked := by
  cases kind with
  | float =>
    have hhead : some '\\' ≠ some '?' ∧ some '\\' ≠ some '+' := by decide
    exact (reads_run ignoreCase outer float).append
      ((Token.Reads.escaped (.initial ignoreCase) outer (by decide) fun _ ↦ True).append
        (reads_run ignoreCase outer float) fun _ _ ↦ trivial) fun _ _ ↦ hhead
  | _ => exact reads_run ignoreCase outer _

/-- The tokens of a pattern put its nodes behind what has been read at this level. -/
theorem run_tokens (ignoreCase : Bool) (kind : Kind) (p : Progress) :
    ∃ pieces, pieces.reverse.map Piece.node = kind.nodes ignoreCase ∧
      p.run (kind.tokens ignoreCase) =
        .ok { p with current := { p.current with pieces := pieces ++ p.current.pieces } } := by
  cases kind with
  | float =>
    exact ⟨[⟨float.run ignoreCase, false⟩, ⟨.char (single ignoreCase '.'), true⟩,
      ⟨float.run ignoreCase, false⟩], rfl, rfl⟩
  | _ => exact ⟨[⟨_, false⟩], rfl, rfl⟩

end Kind

end UrlRouting.Template

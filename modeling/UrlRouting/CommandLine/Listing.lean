import UrlRouting.Table.Inheritance
import UrlRouting.Dispatch

/-!
The listing of the rules of a router: a table of methods, rule strings, targets and names, and the
answer for a single request.
-/

namespace UrlRouting.CommandLine

structure Row where
  method : Text
  rule : Text
  target : Text
  name : Value

namespace Row

def ofRule (r : Rule) (options : Mapping) : Row :=
  let method := options.named "method"
  { method := Text.upper (if method.isTruthy then method.plain else ['*'])
    rule := r.text
    target := Target.describe r.target
    name := r.nameText }

def headings : Row := ⟨"METHOD", "RULE", "TARGET", "NAME"⟩

/-- The length of a name. A number has none. -/
def nameLength (row : Row) : Except Fault Nat :=
  match row.name with
  | .str t => .ok t.length
  | .list items | .tuple items => .ok items.length
  | .map entries => .ok entries.length
  | _ => .error .wrongType

end Row

def padded (width : Nat) (t : Text) : Text := t ++ List.replicate (width - t.length) ' '

def greatest (ns : List Nat) : Nat := ns.foldl max 0

def Row.line (widths : Nat × Nat × Nat) (row : Row) : Text :=
  let gap := [' ', ' ']
  Text.trimRight Text.isBlank
    (padded widths.1 row.method ++ gap ++ padded widths.2.1 row.rule ++ gap ++
      padded widths.2.2 row.target ++ gap ++ row.name.plain)

def lineLimit : Nat := 80

def listing (rows : List Row) : Except Fault (List Text) := do
  if rows.isEmpty then return ["No rules declared."]
  let width (column : Row → Text) := greatest ((Row.headings :: rows).map fun r ↦ (column r).length)
  let widths := (width Row.method, width Row.rule, width Row.target)
  let names ← rows.mapM Row.nameLength
  let total := widths.1 + widths.2.1 + widths.2.2 + 6 + greatest names
  return Row.line widths Row.headings :: List.replicate (min total lineLimit) '-' ::
    rows.map (Row.line widths)

def answer (d : Dispatch) : List Text :=
  let target :=
    match d.handler with
    | .method controller action | .pair controller action =>
      Target.describe controller ++ '@' :: (if action.isTruthy then action.plain else [])
    | .path segments => Text.join "/" segments
    | .custom _ | .call => Target.describe d.target
  ["rule:   ".toList ++ d.rule, "kind:   ".toList ++ d.kind, "target: ".toList ++ target] ++
    d.vars.map fun (name, value) ↦
      "var:    ".toList ++ name.plain ++ " = ".toList ++ value.shown

end UrlRouting.CommandLine

import UrlRouting.Value.Mapping
import UrlRouting.Decimal.Shortest
import UrlRouting.Text.Quoted

/-!
How values are written: `shown` as messages and listings write them, strings between quotes, and
`plain` as they are put into other text, a string as it stands.
-/

namespace UrlRouting.Value

def guardName : Guard Value → Text
  | .saysFalse => "false"
  | .saysTrue => "true"
  | .saysNothing => "none"
  | .saysZero => "zero"
  | .saysEmpty => "empty"
  | .parameter _ _ => "param"
  | .method _ => "method"
  | .secure => "secure"
  | .rule _ => "rule"
  | .failing kind => kind

mutual

def shown : Value → Text
  | null => "None"
  | bool b => if b then "True" else "False"
  | int i => Text.ofInt i
  | float x => Decimal.ofFloat x
  | str t => Text.quoted t
  | list items => '[' :: shownItems items ++ [']']
  | tuple items =>
    match items with
    | [only] => '(' :: shown only ++ [',', ')']
    | items => '(' :: shownItems items ++ [')']
  | map entries => '\x7b' :: shownEntries entries ++ ['\x7d']
  | function name => "<function ".toList ++ name ++ ['>']
  | type name => "<class ".toList ++ Text.quoted name ++ ['>']
  | dispatch cls => "<class ".toList ++ Text.quoted cls.name ++ ['>']
  | guard g => "<function ".toList ++ guardName g ++ ['>']

def shownItems : List Value → Text
  | [] => []
  | v :: rest => shown v ++ (if rest.isEmpty then [] else ", ".toList ++ shownItems rest)

def shownEntries : List (Value × Value) → Text
  | [] => []
  | (key, value) :: rest =>
    shown key ++ ": ".toList ++ shown value ++
      (if rest.isEmpty then [] else ", ".toList ++ shownEntries rest)

end

def plain : Value → Text
  | str t => t
  | v => shown v

def name? : Value → Option Text
  | function name | type name => some name
  | dispatch cls => some cls.name
  | guard g => some (guardName g)
  | _ => none

end UrlRouting.Value

import UrlRouting.Decimal.Binary

/-!
The values that options, route targets, variables and request parameters are made of.

Two values can be the same without being written alike: the two truth values count as the numbers
one and zero, whole numbers compare across the two number formats, and a map is the set of its
entries.
-/

namespace UrlRouting

inductive DispatchClass where
  | plain
  | callback
  | method
  | arrayCallback
  | controller
  /-- A further class, which adds nothing but its name to `plain`. -/
  | custom (name : Text)
deriving DecidableEq

def DispatchClass.name : DispatchClass → Text
  | .plain => "Dispatch"
  | .callback => "CallbackDispatch"
  | .method => "MethodDispatch"
  | .arrayCallback => "ArrayCallbackDispatch"
  | .controller => "ControllerDispatch"
  | .custom name => name

/-- A custom admission check over the rule and the request, with `V` the values it compares
with. -/
inductive Guard (V : Type) where
  | saysFalse
  | saysTrue
  | saysNothing
  | saysZero
  | saysEmpty
  | parameter (name : Text) (value : V)
  | method (value : V)
  | secure
  | rule (value : V)
  | failing (kind : Text)

inductive Value where
  | null
  | bool (b : Bool)
  | int (i : Int)
  | float (x : Float)
  | str (t : Text)
  | list (items : List Value)
  | tuple (items : List Value)
  /-- Entries in insertion order, with distinct keys. -/
  | map (entries : List (Value × Value))
  | function (name : Text)
  | type (name : Text)
  | dispatch (cls : DispatchClass)
  | guard (g : Guard Value)

namespace Value

instance : Inhabited Value := ⟨null⟩

/-- A string literal stands for its value wherever a value is expected. -/
instance : Coe String Value := ⟨fun s ↦ str s.toList⟩

def toInt? : Value → Option Int
  | bool b => some (if b then 1 else 0)
  | int i => some i
  | float x => Decimal.toInt? x
  | _ => none

/-- Two numbers are equal: as integers, or as floating-point numbers that are none. -/
def sameNumber : Value → Value → Bool
  | float x, float y => x == y
  | v, w =>
    match v.toInt?, w.toInt? with
    | some i, some j => i == j
    | _, _ => false

mutual

def same : Value → Value → Bool
  | null, null => true
  | str s, str t => s == t
  | list xs, list ys => sameItems xs ys
  | tuple xs, tuple ys => sameItems xs ys
  | map xs, map ys => xs.length == ys.length && sameEntries xs ys
  | function m, function n => m == n
  | type m, type n => m == n
  | dispatch c, dispatch d => c == d
  | guard g, guard h => sameGuard g h
  | v, w => sameNumber v w
termination_by structural v => v

def sameItems : List Value → List Value → Bool
  | [], [] => true
  | x :: xs, y :: ys => same x y && sameItems xs ys
  | _, _ => false
termination_by structural xs => xs

def sameEntries : List (Value × Value) → List (Value × Value) → Bool
  | [], _ => true
  | (key, value) :: xs, ys =>
    ys.any (fun entry ↦ same key entry.1 && same value entry.2) && sameEntries xs ys
termination_by structural xs => xs

def sameGuard : Guard Value → Guard Value → Bool
  | .saysFalse, .saysFalse => true
  | .saysTrue, .saysTrue => true
  | .saysNothing, .saysNothing => true
  | .saysZero, .saysZero => true
  | .saysEmpty, .saysEmpty => true
  | .parameter m v, .parameter n w => m == n && same v w
  | .method v, .method w => same v w
  | .secure, .secure => true
  | .rule v, .rule w => same v w
  | .failing k, .failing l => k == l
  | _, _ => false
termination_by structural g => g

end

/-- The value counts as true where a truth value is wanted. -/
def isTruthy : Value → Bool
  | null => false
  | bool b => b
  | int i => i != 0
  | float x => !(x == 0)
  | str t => !t.isEmpty
  | list items | tuple items => !items.isEmpty
  | map entries => !entries.isEmpty
  | function _ | type _ | dispatch _ | guard _ => true

mutual

/-- The value can be the key of a map: it holds no list and no map. -/
def isKey : Value → Bool
  | list _ | map _ => false
  | tuple items => allKeys items
  | _ => true

def allKeys : List Value → Bool
  | [] => true
  | v :: rest => isKey v && allKeys rest

end

def isCallable : Value → Bool
  | function _ | type _ | dispatch _ | guard _ => true
  | _ => false

def isType : Value → Bool
  | type _ | dispatch _ => true
  | _ => false

def isNull : Value → Bool
  | null => true
  | _ => false

def text? : Value → Option Text
  | str t => some t
  | _ => none

end Value

end UrlRouting

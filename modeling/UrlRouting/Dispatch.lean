import UrlRouting.Http.Request

/-!
Dispatch decisions: what a matched rule asks to be run. A target is put into exactly one class, the
first that applies of: the class in the `dispatcher` option, the target if it is such a class
itself, a function, a pair of class and method, a string or class that names a method, and a path
of module, controller and action.
-/

namespace UrlRouting

open Http

inductive Handler where
  | custom (cls : DispatchClass)
  | call
  | method (controller action : Value)
  | pair (controller action : Value)
  | path (segments : List Text)

structure Dispatch where
  request : Request
  rule : Text
  target : Value
  vars : Mapping
  options : Mapping
  handler : Handler

namespace Dispatch

def cls (d : Dispatch) : DispatchClass :=
  match d.handler with
  | .custom cls => cls
  | .call => .callback
  | .method _ _ => .method
  | .pair _ _ => .arrayCallback
  | .path _ => .controller

def kind (d : Dispatch) : Text :=
  match d.handler with
  | .custom _ => "dispatcher"
  | .call => "closure"
  | .method _ _ => "class_method"
  | .pair _ _ => "array_callback"
  | .path _ => "controller"

end Dispatch

namespace Target

def segments (t : Text) : List Text :=
  Text.splitAt '/' (Text.trim (· == '/') (Text.replaceChar '|' ['/'] t))

def fillOne (t : Text) (name value : Text) : Text :=
  Text.replace (':' :: name) value
    (Text.replace ('\x7b' :: name ++ ['\x7d']) value (Text.replace ('<' :: name ++ ['>']) value t))

/-- Puts the values of variables in place of their placeholders, one variable after the other;
variables without a value are passed over. -/
def fill (groups : Mapping) (t : Text) : Text :=
  groups.foldl (fun t entry ↦
    if entry.2.isNull then t else fillOne t entry.1.plain entry.2.plain) t

def declared (options : Mapping) (t : Text) : Text :=
  match options.named "prefix" with
  | .str front => front ++ t
  | _ => t

/-- The target with the `prefix` option in front and placeholders filled in. Only strings
change. -/
def substitute (groups options : Mapping) : Value → Value
  | .str t => .str (fill groups (declared options t))
  | v => v

/-- The target names a class: it has a namespace mark and no separator of segments. -/
def isClassPath (mark t : Text) : Bool :=
  !mark.isEmpty && Text.occursIn mark t && !t.contains '/' && !t.contains '|'

def callback (t : Text) : Value × Value :=
  let t := Text.trim (· == '/') (Text.replaceChar '|' ['/'] (Text.replace "::" "@" t))
  match Text.cutLast? '@' t with
  | none => (.str t, .null)
  | some (controller, action) =>
    (.str controller, if action.isEmpty then .null else .str action)

/-- How a text is to be run as a target; `declared` is the target before placeholders were filled
in, which alone decides whether it is a class path. -/
def ofText (mark t declared : Text) : Handler :=
  if t.contains '@' || Text.occursIn "::" t || isClassPath mark declared then
    let (controller, action) := callback t
    .method controller action
  else .path (segments t)

/-- How a dispatch class runs a target. The classes that need further fields cannot be used so. -/
def ofClass : DispatchClass → Except Fault Handler
  | .plain => .ok (.custom .plain)
  | .custom name => .ok (.custom (.custom name))
  | .callback => .ok .call
  | .method | .arrayCallback | .controller => .error .wrongType

def handler (target : Value) (options : Mapping) (mark : Text) (declared : Value) :
    Except Fault Handler :=
  match options.named "dispatcher" with
  | .dispatch cls => ofClass cls
  | _ =>
    match target with
    | .dispatch cls => ofClass cls
    | .function _ | .guard _ => .ok .call
    | .list items | .tuple items =>
      .ok (.pair (items.head?.getD .null) (items.tail.head?.getD .null))
    | .type _ => .ok (.method target .null)
    | _ =>
      .ok (ofText mark target.plain (if declared.isNull then target.plain else declared.plain))

mutual

def describe : Value → Text
  | .list items | .tuple items => Text.join "@" (describeAll items)
  | v => v.name?.getD v.plain

def describeAll : List Value → List Text
  | [] => []
  | v :: rest => describe v :: describeAll rest

end

end Target

def Dispatch.resolve (request : Request) (rule : Text) (target : Value) (vars options : Mapping)
    (mark : Text) (declared : Value) : Except Fault Dispatch :=
  (Target.handler target options mark declared).map fun handler ↦
    { request := request
      rule := rule
      target := target
      vars := vars
      options := options
      handler := handler }

end UrlRouting

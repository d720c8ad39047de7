import UrlRouting.Proofs.Dispatch.Form

/-!
The class of a decision is the first that applies of: the class in the `dispatcher` option, the
target if it is a dispatch class itself, and what the target is run as by its own kind
(`Dispatch.resolve_settles`). There is no decision for a class that is named outright and whose
decisions have fields of their own.
-/

namespace UrlRouting

open Http

/-- Decisions of the class have fields of their own: a method or a path. -/
def DispatchClass.hasFields : DispatchClass → Bool
  | .method | .arrayCallback | .controller => true
  | .plain | .callback | .custom _ => false

def Handler.cls : Handler → DispatchClass
  | .custom cls => cls
  | .call => .callback
  | .method _ _ => .method
  | .pair _ _ => .arrayCallback
  | .path _ => .controller

theorem Dispatch.cls_eq (d : Dispatch) : d.cls = d.handler.cls := by
  obtain ⟨_, _, _, _, _, handler⟩ := d
  cases handler <;> rfl

namespace Target

open Text

variable {mark t : Text} {options : Mapping} {target declared : Value} {cls : DispatchClass}

/-! ### Classes that apply -/

def class? : Value → Option DispatchClass
  | .dispatch cls => some cls
  | _ => none

def isFunction : Value → Bool
  | .function _ | .guard _ => true
  | _ => false

def isSequence : Value → Bool
  | .list _ | .tuple _ => true
  | _ => false

def isType : Value → Bool
  | .type _ => true
  | _ => false

/-- The classes that are named outright, by the option and by the target. -/
def namedClasses (target : Value) (options : Mapping) : List DispatchClass :=
  [options.named "dispatcher", target].filterMap class?

instance (mark t declared : Text) : Decidable (NamesMethod mark t declared) :=
  inferInstanceAs (Decidable ('@' ∈ t ∨ [':', ':'] <:+: t ∨ isClassPath mark declared = true))

/-- The target before placeholders were filled in, where it is known. -/
def judged (target declared : Value) : Text :=
  if declared.isNull then target.plain else declared.plain

/-- The classes that can run a target of this kind; a path is what everything can be read as. -/
def kindClasses (mark : Text) (target declared : Value) : List DispatchClass :=
  (if isFunction target then [.callback] else []) ++
  (if isSequence target then [.arrayCallback] else []) ++
  (if isType target ∨ NamesMethod mark target.plain (judged target declared) then [.method]
    else []) ++
  [.controller]

/-- The classes that apply, those that come first before the others. -/
def classes (mark : Text) (target declared : Value) (options : Mapping) : List DispatchClass :=
  namedClasses target options ++ kindClasses mark target declared

/-! ### Handlers -/

/-- The handler is one of the class, and one with a path has a segment at least. -/
structure Runs (cls : DispatchClass) (found : Handler) : Prop where
  cls_eq : found.cls = cls
  path : ∀ segments, found = .path segments → segments ≠ []

theorem ofClass_of_hasFields (h : cls.hasFields = true) : ofClass cls = .error .wrongType := by
  cases cls with
  | plain => cases h
  | callback => cases h
  | custom name => cases h
  | method => rfl
  | arrayCallback => rfl
  | controller => rfl

theorem exists_ofClass (h : cls.hasFields = false) :
    ∃ found, ofClass cls = .ok found ∧ Runs cls found := by
  cases cls with
  | plain => exact ⟨_, rfl, rfl, nofun⟩
  | callback => exact ⟨_, rfl, rfl, nofun⟩
  | custom name => exact ⟨_, rfl, rfl, nofun⟩
  | method => cases h
  | arrayCallback => cases h
  | controller => cases h

theorem runs_ofText (mark t declared : Text) :
    Runs (if NamesMethod mark t declared then .method else .controller)
      (ofText mark t declared) := by
  by_cases hnames : NamesMethod mark t declared
  · rw [if_pos hnames, ofText_of_namesMethod hnames]
    exact ⟨rfl, nofun⟩
  · rw [if_neg hnames, ofText_of_path hnames]
    refine ⟨rfl, fun path hpath ↦ ?_⟩
    cases hpath
    exact splitAt_ne_nil _ _

/-- Options that name no dispatch class leave it to the target. -/
theorem handler_of_no_dispatcher (h : class? (options.named "dispatcher") = none) (target : Value)
    (mark : Text) (declared : Value) :
    handler target options mark declared = handler target [] mark declared := by
  rw [handler.eq_def]
  split
  next cls hcls =>
    rw [hcls] at h
    cases h
  next => rfl

/-- A target that is no dispatch class is run by the first class that can run its kind. -/
theorem exists_handler_of_kind (h : class? target = none) (mark : Text) (declared : Value) :
    ∃ cls found, (kindClasses mark target declared).head? = some cls ∧
      handler target [] mark declared = .ok found ∧ Runs cls found := by
  -- whatever is neither a function nor a sequence nor a class is read as a text
  have htext (hclasses : kindClasses mark target declared =
        (if NamesMethod mark target.plain (judged target declared) then [.method] else []) ++
          [.controller])
      (hhandler : handler target [] mark declared =
        .ok (ofText mark target.plain (judged target declared))) :
      ∃ cls found, (kindClasses mark target declared).head? = some cls ∧
        handler target [] mark declared = .ok found ∧ Runs cls found := by
    refine ⟨_, _, ?_, hhandler, runs_ofText _ _ _⟩
    rw [hclasses]
    split <;> rfl
  cases target with
  | dispatch cls => cases h
  | function name => exact ⟨.callback, .call, rfl, rfl, rfl, nofun⟩
  | guard g => exact ⟨.callback, .call, rfl, rfl, rfl, nofun⟩
  | list items => exact ⟨.arrayCallback, .pair _ _, rfl, rfl, rfl, nofun⟩
  | tuple items => exact ⟨.arrayCallback, .pair _ _, rfl, rfl, rfl, nofun⟩
  | type name => exact ⟨.method, .method _ _, rfl, rfl, rfl, nofun⟩
  | null | bool | int | float | str | map =>
    exact htext (by simp [kindClasses, isFunction, isSequence, isType]) rfl

theorem eq_of_class? (h : class? target = some cls) : target = .dispatch cls := by
  cases target with
  | dispatch cls => cases h; rfl
  | _ => cases h

theorem handler_of_named (h : (namedClasses target options).head? = some cls) (mark : Text)
    (declared : Value) : handler target options mark declared = ofClass cls := by
  rw [namedClasses] at h
  cases hoption : class? (options.named "dispatcher") with
  | some first =>
    rw [List.filterMap_cons_some hoption] at h
    cases h
    exact handler_of_dispatcher (eq_of_class? hoption) _ _ _
  | none =>
    rw [List.filterMap_cons_none hoption] at h
    rw [handler_of_no_dispatcher hoption]
    cases htarget : class? target with
    | some second =>
      rw [List.filterMap_cons_some htarget] at h
      cases h
      rw [eq_of_class? htarget]
      rfl
    | none =>
      rw [List.filterMap_cons_none htarget] at h
      cases h

theorem class?_of_unnamed (h : (namedClasses target options).head? = none) :
    class? (options.named "dispatcher") = none ∧ class? target = none := by
  rw [List.head?_eq_none_iff, namedClasses, List.filterMap_eq_nil_iff] at h
  exact ⟨h _ List.mem_cons_self, h _ (List.mem_cons_of_mem _ List.mem_cons_self)⟩

end Target

namespace Dispatch

open Target

variable {request : Request} {rule mark : Text} {target declared : Value}
  {vars options : Mapping} {cls : DispatchClass} {found : Handler}

/-- The decision is of the first class that applies, with everything it was made from; one for a
path has a segment at least. -/
structure Settles (d : Dispatch) (request : Request) (rule : Text) (target : Value)
    (vars options : Mapping) (mark : Text) (declared : Value) : Prop where
  cls : (classes mark target declared options).head? = some d.cls
  request : d.request = request
  rule : d.rule = rule
  target : d.target = target
  vars : d.vars = vars
  options : d.options = options
  path : ∀ segments, d.handler = .path segments → segments ≠ []

theorem exists_settles (hcls : (classes mark target declared options).head? = some cls)
    (hhandler : Target.handler target options mark declared = .ok found) (hruns : Runs cls found) :
    ∃ d, resolve request rule target vars options mark declared = .ok d ∧
      d.Settles request rule target vars options mark declared := by
  refine ⟨⟨request, rule, target, vars, options, found⟩, ?_, ?_, rfl, rfl, rfl, rfl, rfl,
    hruns.path⟩
  · rw [resolve, hhandler]
    rfl
  · rw [cls_eq, hruns.cls_eq, hcls]

/-- There is a decision unless a class with fields of its own is named outright, by the
`dispatcher` option or, where that names none, by the target. -/
theorem resolve_settles (request : Request) (rule : Text) (target : Value) (vars options : Mapping)
    (mark : Text) (declared : Value) :
    if (namedClasses target options).head?.any DispatchClass.hasFields then
      resolve request rule target vars options mark declared = .error .wrongType
    else ∃ d, resolve request rule target vars options mark declared = .ok d ∧
      d.Settles request rule target vars options mark declared := by
  cases hnamed : (namedClasses target options).head? with
  | some cls =>
    have hhandler := handler_of_named hnamed mark declared
    rw [Option.any_some]
    cases hfields : cls.hasFields with
    | true =>
      rw [if_pos rfl, resolve, hhandler, ofClass_of_hasFields hfields]
      rfl
    | false =>
      rw [if_neg Bool.false_ne_true]
      obtain ⟨found, hfound, hruns⟩ := exists_ofClass hfields
      have hcls : (classes mark target declared options).head? = some cls := by
        rw [classes, List.head?_append, hnamed, Option.some_or]
      exact exists_settles hcls (hhandler.trans hfound) hruns
  | none =>
    obtain ⟨hoption, htarget⟩ := class?_of_unnamed hnamed
    obtain ⟨cls, found, hkind, hhandler, hruns⟩ := exists_handler_of_kind htarget mark declared
    have hcls : (classes mark target declared options).head? = some cls := by
      rw [classes, List.head?_append, hnamed, Option.none_or, hkind]
    rw [Option.any_none, if_neg Bool.false_ne_true]
    exact exists_settles hcls ((handler_of_no_dispatcher hoption _ _ _).trans hhandler) hruns

/-- Not every target is put into a class: here the option names one that has fields of its own. -/
theorem not_forall_exists_resolve : ¬∀ (request : Request) (rule : Text) (target : Value)
    (vars options : Mapping) (mark : Text) (declared : Value),
    ∃ d, resolve request rule target vars options mark declared = .ok d := by
  intro h
  obtain ⟨d, hd⟩ := h (.bare "GET" "/") "page" "x" []
    [(.str "dispatcher", .dispatch .method)] "." .null
  cases hd

end Dispatch

end UrlRouting

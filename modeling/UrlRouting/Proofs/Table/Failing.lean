import UrlRouting.Proofs.Table.Frame
import UrlRouting.Proofs.Table.Inherited
import UrlRouting.Proofs.Table.Sealed

/-!
Directives that fail. A few lay down what they were given, entry by entry, or make room for it
before they find a fault in it; all others leave their node as it was. What a failed directive
leaves behind at its node is determined by the directive and by what the node had before
(`own_of_failed`).
-/

namespace UrlRouting

variable {α β : Type} {t s : Table} {id : NodeId} {n : Node} {d : Directive} {fault : Fault}

/-- What a node has been given itself: the values of its own options, its own patterns, the names of
the options that it merges, its domain, and for a rule its name, its method and the names that
patterns may go by. -/
structure Own where
  options : Mapping
  patterns : Mapping
  merged : List Value
  domain : Value
  name : Option Value
  method : Option Value
  aliases : Option Mapping

namespace Table

def ownOf (t : Table) (n : Node) : Own where
  options := t.readAll n.options
  patterns := n.patterns
  merged := n.merged
  domain := n.domain
  name := n.rule?.map Rule.name
  method := n.rule?.map Rule.method
  aliases := n.rule?.map Rule.aliases

def own (t : Table) (id : NodeId) : Own := t.ownOf (t.node id)

theorem own_setNode (h : id < t.nodes.length) (n : Node) :
    (t.setNode id n).own id = t.ownOf n := by
  rw [own, node_setNode_self h, ownOf, readAll_of_cells rfl]
  rfl

/-- Where cells have only been added, a node has what it had. -/
theorem Grown.ownOf_eq {label label' : Nat → Option Text} (h : Grown label label' t s)
    (hn : Labelled label t.cells.length n.options) : s.ownOf n = t.ownOf n := by
  have hread : s.readAll n.options = t.readAll n.options := by
    refine List.map_congr_left fun entry hmem ↦ ?_
    obtain ⟨key, slot⟩ := entry
    cases slot with
    | fixed value => rfl
    | shared cell => exact congrArg (key, ·) (h.read cell (hn key cell hmem).1)
  rw [ownOf, hread]
  rfl

end Table

namespace Directive

/-- What a node has after a directive that fails, if the node is open. -/
def leftover (d : Directive) (o : Own) : Own :=
  match d with
  | options given _ => { o with options := Entries.overlay o.options given.orEmpty.entries.1 }
  | patterns given _ => { o with patterns := Entries.overlay o.patterns given.orEmpty.entries.1 }
  | aliases given _ =>
    { o with aliases := o.aliases.map fun m ↦ Entries.overlay m given.orEmpty.entries.1 }
  | validation (.map _) _ | model (.map _) _ _ => o
  | validation _ _ => { o with options := Entries.setDefault o.options "var_rule" (.map []) }
  | model _ _ _ => { o with options := Entries.setDefault o.options "model" (.map []) }
  | method given => { o with method := o.method.map fun _ ↦ given }
  | _ => o

/-- No fault comes to light in what the directive is given once it has begun to lay it down. -/
def isFit : Directive → Bool
  | options given _ | patterns given _ | aliases given _ =>
    given.orEmpty.entries.1.isEmpty || given.orEmpty.entries.2.isNone
  | validation (.map _) _ | model (.map _) _ _ => true
  | validation parameter _ => parameter.isKey
  | model subject target _ => subject.isCallable || target.isNull || subject.isKey
  | method given => !given.isTruthy || given.text?.isSome
  | _ => true

end Directive

namespace Action

open Table

/-! ### Faults -/

/-- If the action fails, it leaves a table as wanted. -/
def Leaves (a : Action α) (t : Table) (P : Table → Prop) : Prop := a.Ends t (fun _ _ ↦ True) P

/-- The action does not fail. -/
def Safe (a : Action α) : Prop := ∀ t, a.Leaves t fun _ ↦ False

theorem Safe.leaves {a : Action α} (h : Safe a) (t : Table) (P : Table → Prop) : a.Leaves t P :=
  (h t).mono_error fun _ h ↦ h.elim

theorem Safe.bind {a : Action α} {f : α → Action β} (h : Safe a) (hf : ∀ x, Safe (f x)) :
    Safe (a >>= f) := fun t ↦ Ends.bind (h t) fun x s _ ↦ hf x s

theorem safe_keep (value : Value) : Safe (keep value) := by
  intro t
  cases value <;> trivial

theorem safe_keepAll (m : Mapping) : Safe (keepAll m) := by
  induction m with
  | nil => exact fun _ ↦ trivial
  | cons entry rest ih => exact (safe_keep entry.2).bind fun _ ↦ ih.bind fun _ _ ↦ trivial

theorem safe_modifyNode (id : NodeId) (f : Node → Node) : Safe (modifyNode id f) := fun _ ↦ trivial

theorem safe_putOption (id : NodeId) (name value : Value) : Safe (putOption id name value) :=
  (safe_keep value).bind fun _ ↦ safe_modifyNode id _

theorem Ends.and {a : Action α} {Q R : α → Table → Prop} {E : Table → Prop} (h : a.Ends t Q E)
    (h' : a.Ends t R E) : a.Ends t (fun x s ↦ Q x s ∧ R x s) E := by
  rw [Ends] at h h' ⊢
  cases hr : a.run t <;> simp_all

/-- What is kept is what is read. -/
theorem keep_reads (t : Table) (value : Value) :
    (keep value).Ends t (fun slot s ↦ s.read slot = value) fun _ ↦ False := by
  have hcell (value : Value) :
      Table.read { t with cells := t.cells ++ [value] } (.shared t.cells.length) = value := by
    simp [Table.read]
  cases value with
  | list items => exact hcell _
  | map entries => exact hcell _
  | _ => rfl

theorem keepAll_reads {label : Nat → Option Text} (h : t.SoundFor label) (m : Mapping) :
    (keepAll m).Ends t (fun slots s ↦ s.readAll slots = m) fun _ ↦ False := by
  induction m generalizing t label with
  | nil => exact rfl
  | cons entry rest ih =>
    obtain ⟨key, value⟩ := entry
    refine ((keep_ends h value key.text?).and (keep_reads t value)).bind_of_safe ?_
    rintro slot s ⟨⟨⟨label', hgrown, hslot⟩, -⟩, hvalue⟩
    refine ((keepAll_ends hgrown.sound rest).and (ih hgrown.sound)).bind_of_safe ?_
    rintro slots u ⟨⟨label'', hgrown', -⟩, hrest⟩
    have hread : u.read slot = value := by
      cases slot with
      | fixed other => exact hvalue
      | shared cell => exact (hgrown'.read cell (hslot cell rfl).1).trans hvalue
    change u.readAll ((key, slot) :: slots) = (key, value) :: rest
    rw [← hread, ← hrest]
    rfl

/-! ### Single directives -/

theorem ends_open {f : Unit → Action α} {Q : α → Table → Prop} {E : Table → Prop}
    (hopen : (t.node id).isCompiled = false) (h : (f ()).Ends t Q E) :
    (ensureOpen id >>= f).Ends t Q E := by
  rw [ends_bind, ensureOpen, ends_bind]
  change Ends (if (t.node id).isCompiled then _ else _) t _ _
  rw [hopen]
  exact h

/-- An own option that is not bound is bound to the initial value. -/
theorem slotOf_ends_own (ht : t.Sound) (hid : id < t.nodes.length) (name initial : Value) :
    (slotOf id name initial).Ends t (fun slot s ↦
      s.own id = { t.own id with options := (t.own id).options.setDefault name initial } ∧
      ((t.own id).options.contains name = false → s.read slot = initial)) fun _ ↦ False := by
  obtain ⟨label, h⟩ := ht
  have hbound : Entries.contains (t.own id).options name =
      ((t.node id).options.get? name).isSome := by
    rw [Entries.contains, own, ownOf, get?_readAll, Option.isSome_map]
  refine .node_bind ?_
  cases hslot : (t.node id).options.get? name with
  | some slot =>
    rw [hslot] at hbound
    refine ⟨?_, fun hnone ↦ absurd (hnone.symm.trans hbound) Bool.false_ne_true⟩
    rw [Entries.setDefault, hbound]
    rfl
  | none =>
    rw [hslot] at hbound
    refine ((keep_ends h initial name.text?).and (keep_reads t initial)).bind_of_safe ?_
    rintro slot s ⟨⟨⟨label', hgrown, -⟩, -⟩, hread⟩
    have hlt : id < s.nodes.length := hgrown.nodes ▸ hid
    have hown : s.ownOf (t.node id) = t.own id := hgrown.ownOf_eq (h.fits id).own
    have hoptions : s.readAll (t.node id).options = (t.own id).options :=
      congrArg Own.options hown
    refine ⟨?_, fun _ ↦ (read_setNode _ _ _ _).trans hread⟩
    rw [own_setNode hlt, hgrown.node_eq, Entries.setDefault, hbound]
    change Own.mk (s.readAll ((t.node id).options.set name slot)) _ _ _ _ _ _ = _
    rw [readAll_set, hread, hoptions]
    rfl

theorem edit_leaves (slot : Slot) (f : Value → Except Fault Value) :
    (edit slot f).Leaves t fun s ↦ s = t ∧ ∃ e, f (t.read slot) = .error e := by
  rw [Leaves, edit, ends_bind]
  change Ends (ofExcept (f (t.read slot)) >>= _) t _ _
  cases f (t.read slot) with
  | error e => exact ⟨rfl, e, rfl⟩
  | ok value => cases slot <;> trivial

/-- An own option that is edited is bound first; if that was not needed, or the initial value can be
edited, nothing is left of a failure. -/
theorem edit_slotOf_leaves (ht : t.Sound) (hid : id < t.nodes.length) (name initial : Value)
    (f : Value → Except Fault Value) : Leaves (do edit (← slotOf id name initial) f) t fun s ↦
      s.own id = { t.own id with options := Entries.setDefault (t.own id).options name initial } ∧
      ((f initial).isOk = true → s.own id = t.own id) := by
  refine (slotOf_ends_own ht hid name initial).bind_of_safe ?_
  rintro slot s ⟨hown, hread⟩
  refine (edit_leaves slot f).mono_error ?_
  rintro _ ⟨rfl, e, he⟩
  refine ⟨hown, fun hfine ↦ ?_⟩
  rw [hown]
  cases hbound : Entries.contains (t.own id).options name with
  | true => rw [Entries.setDefault, hbound, if_pos rfl]
  | false =>
    rw [hread hbound] at he
    rw [he] at hfine
    cases hfine

theorem setOption_leaves (hopen : (t.node id).isCompiled = false) (name value : Value) :
    (setOption id name value).Leaves t fun s ↦ s.own id = t.own id := by
  refine ends_open hopen ?_
  split
  · exact (safe_putOption id name value).leaves t _
  · exact rfl

theorem setMapping_leaves (hopen : (t.node id).isCompiled = false) (name given : Value) :
    (setMapping id name given).Leaves t fun s ↦ s.own id = t.own id := by
  refine ends_open hopen (ends_bind.mpr ?_)
  exact ends_ofExcept (fun m ↦ (safe_putOption id name (.map m)).leaves t _) rfl

/-- A list that is added where there was none can take any entries. -/
theorem addMiddleware_leaves (ht : t.Sound) (hid : id < t.nodes.length)
    (hopen : (t.node id).isCompiled = false) (given : Value) (parameters : List Value) :
    (addMiddleware id given parameters).Leaves t fun s ↦ s.own id = t.own id := by
  refine ends_open hopen ?_
  split
  · exact (safe_putOption id _ _).leaves t _
  · exact (edit_slotOf_leaves ht hid _ _ _).mono_error fun s hs ↦ hs.2 rfl

theorem makeEverywhere_leaves (id : NodeId) :
    (makeEverywhere id).Leaves t fun s ↦ s.own id = t.own id := by
  have hkeeps : Maintains (fun s ↦ s.own id = t.own id) (makeEverywhere id) := by
    refine (Maintains.rule id).bind fun r ↦ .node_bind fun n ↦ ?_
    cases n.router with
    | none => exact (Maintains.ofExcept _).bind fun _ ↦ .throw _
    | some router => exact (Maintains.ensureRouterOpen router).bind fun _ s hs ↦ hs
  exact (hkeeps t rfl).mono (fun _ _ _ ↦ trivial) fun _ hs ↦ hs

/-- What is laid down stays if a fault comes to light then. -/
theorem failWith_leaves {a : Action α} (ha : Safe a) (fault : Option Fault) :
    Leaves (failWith fault >>= fun _ ↦ a) t fun s ↦ s = t ∧ fault.isSome = true := by
  cases fault with
  | none => exact ha.leaves t _
  | some fault => exact ⟨rfl, rfl⟩

theorem layOptions_leaves (ht : t.Sound) (hid : id < t.nodes.length)
    (hopen : (t.node id).isCompiled = false) (given : Value) (more : Mapping) :
    (layOptions id given more).Leaves t fun s ↦
      s.own id = { t.own id with
        options := Entries.overlay (t.own id).options given.orEmpty.entries.1 } ∧
      given.orEmpty.entries.2.isSome = true := by
  obtain ⟨label, h⟩ := ht
  rw [layOptions]
  generalize given.orEmpty.entries = laid
  obtain ⟨entries, fault⟩ := laid
  refine ends_open hopen (((keepAll_ends h entries).and (keepAll_reads h entries)).bind_of_safe ?_)
  rintro slots s ⟨⟨label', hgrown, -⟩, hslots⟩
  have hlt : id < s.nodes.length := hgrown.nodes ▸ hid
  have hown : s.ownOf (t.node id) = t.own id := hgrown.ownOf_eq (h.fits id).own
  have hoptions : s.readAll (t.node id).options = (t.own id).options := congrArg Own.options hown
  refine ends_bind.mpr ((failWith_leaves ?_ fault).mono_error ?_)
  · exact (safe_keepAll more).bind fun _ ↦ safe_modifyNode id _
  · rintro _ ⟨rfl, hfault⟩
    refine ⟨?_, hfault⟩
    rw [own_setNode hlt, hgrown.node_eq]
    change Own.mk (s.readAll ((t.node id).options.overlay slots)) _ _ _ _ _ _ = _
    rw [readAll_overlay, hslots, hoptions]
    rfl

theorem layPatterns_leaves (hid : id < t.nodes.length) (hopen : (t.node id).isCompiled = false)
    (given : Value) (more : Mapping) : (layPatterns id given more).Leaves t fun s ↦
      s.own id = { t.own id with
        patterns := Entries.overlay (t.own id).patterns given.orEmpty.entries.1 } ∧
      given.orEmpty.entries.2.isSome = true := by
  rw [layPatterns]
  generalize given.orEmpty.entries = laid
  obtain ⟨entries, fault⟩ := laid
  refine ends_open hopen (ends_bind.mpr ?_)
  refine (failWith_leaves (safe_modifyNode id _) fault).mono_error ?_
  rintro _ ⟨rfl, hfault⟩
  exact ⟨own_setNode hid _, hfault⟩

theorem ownOf_withRule {r : Rule} (hr : n.rule? = some r) (f : Rule → Rule) : t.ownOf
    (match n.body with
      | .rule rule => { n with body := .rule (f rule) }
      | .group _ => n) = { t.ownOf n with
        name := some (f r).name
        method := some (f r).method
        aliases := some (f r).aliases } := by
  cases hb : n.body with
  | rule r' =>
    rw [Node.rule?, hb] at hr
    cases hr
    rfl
  | group g =>
    rw [Node.rule?, hb] at hr
    cases hr

theorem own_modifyRule (hid : id < t.nodes.length) {r : Rule} (hr : (t.node id).rule? = some r)
    (f : Rule → Rule) : (modifyRule id f).Ends t (fun _ s ↦ s.own id = { t.own id with
      name := some (f r).name
      method := some (f r).method
      aliases := some (f r).aliases }) fun _ ↦ False :=
  (own_setNode hid _).trans (ownOf_withRule hr f)

theorem ends_rule {r : Rule} {f : Unit → Action α} {Q : α → Table → Prop} {E : Table → Prop}
    (hr : (t.node id).rule? = some r) (h : (f ()).Ends t Q E) :
    (discard (rule id) >>= f).Ends t Q E := by
  rwa [Ends, bind_of_ok (discard_of_ok (run_rule hr))]

theorem layAliases_leaves (hid : id < t.nodes.length) (hopen : (t.node id).isCompiled = false)
    {r : Rule} (hr : (t.node id).rule? = some r) (given : Value) (more : Mapping) :
    (layAliases id given more).Leaves t fun s ↦
      s.own id = { t.own id with
        aliases := some (Entries.overlay r.aliases given.orEmpty.entries.1) } ∧
      given.orEmpty.entries.2.isSome = true := by
  have hown : t.own id = { t.own id with
      name := some r.name
      method := some r.method
      aliases := some r.aliases } := by
    rw [own, ownOf, hr]
    rfl
  rw [layAliases]
  generalize given.orEmpty.entries = laid
  obtain ⟨entries, fault⟩ := laid
  refine ends_rule hr (ends_open hopen ((own_modifyRule hid hr _).bind_of_safe fun _ s hs ↦ ?_))
  refine (failWith_leaves (safe_modifyNode id _) fault).mono_error ?_
  rintro _ ⟨rfl, hfault⟩
  exact ⟨hs.trans (by rw [hown]), hfault⟩

/-- Only a method that is neither a text nor counts as none is refused, and it is stored first. -/
theorem setMethod_leaves (hid : id < t.nodes.length) (hopen : (t.node id).isCompiled = false)
    {r : Rule} (hr : (t.node id).rule? = some r) (given : Value) :
    (setMethod id given).Leaves t fun s ↦
      s.own id = { t.own id with method := some given } ∧
      given.isTruthy = true ∧ given.text? = none := by
  have hown : t.own id = { t.own id with
      name := some r.name
      aliases := some r.aliases } := by
    rw [own, ownOf, hr]
    rfl
  rw [setMethod]
  refine ends_rule hr (ends_open hopen ((own_modifyRule hid hr _).bind_of_safe fun _ s hs ↦ ?_))
  split
  next => exact (safe_modifyNode id _).leaves s _
  next => exact (safe_modifyNode id _).leaves s _
  next hall htext =>
    have htruthy : given.isTruthy = true := by
      by_contra hfalse
      exact hall (if_neg hfalse)
    rw [if_pos htruthy] at hs htext
    refine ⟨hs.trans (by rw [hown]), htruthy, ?_⟩
    cases given with
    | str t => exact (htext t rfl).elim
    | _ => rfl

end Action

/-! ### All directives -/

namespace Directive

/-- What is left of a failure: what the directive had laid down, or nothing if it is fit. -/
def LeftBehind (d : Directive) (t : Table) (id : NodeId) (s : Table) : Prop :=
  s.own id = d.leftover (t.own id) ∧ (d.isFit = true → s.own id = t.own id)

end Directive

namespace Action

open Table

/-- Nothing is left of entries that are faulty from the first one on. -/
theorem overlay_of_isFit {given : Value} {m : Mapping}
    (hfault : given.orEmpty.entries.2.isSome = true)
    (hfit : (given.orEmpty.entries.1.isEmpty || given.orEmpty.entries.2.isNone) = true) :
    Entries.overlay m given.orEmpty.entries.1 = m := by
  rw [Option.isNone_eq_false_iff.mpr hfault, Bool.or_false, List.isEmpty_iff] at hfit
  rw [hfit]
  rfl

/-- A binder, a parameter alone and a parameter with a target differ in the entry they add. -/
theorem model_leaves (ht : t.Sound) (hid : id < t.nodes.length)
    (hopen : (t.node id).isCompiled = false) (subject target required : Value) :
    ((Directive.model subject target required).apply id).Leaves t
      ((Directive.model subject target required).LeftBehind t id) := by
  refine ends_open hopen ?_
  split
  next => exact (safe_putOption id _ _).leaves t _
  next hmap =>
    have hleaves (f : Value → Except Fault Value) (hf : subject.isCallable = true ∨
        target.isNull = true ∨ subject.isKey = true → (f (.map [])).isOk = true) :
        Leaves (do edit (← slotOf id "model" (.map [])) f) t
          ((Directive.model subject target required).LeftBehind t id) := by
      refine (edit_slotOf_leaves ht hid _ _ f).mono_error fun s hs ↦ ?_
      rw [Directive.LeftBehind, Directive.leftover, Directive.isFit]
      · exact ⟨hs.1, fun hfit ↦ hs.2 (hf (by simpa [or_assoc] using hfit))⟩
      all_goals exact hmap
    cases hcallable : subject.isCallable with
    | true =>
      simp only [if_true]
      exact hleaves (Options.withBinder subject) fun _ ↦ rfl
    | false =>
      simp only [Bool.false_eq_true, if_false]
      cases hnull : target.isNull with
      | true =>
        simp only [if_true]
        exact hleaves (Options.withItem "id" (.tuple [subject, .bool true])) fun _ ↦ rfl
      | false =>
        simp only [Bool.false_eq_true, if_false]
        refine hleaves (Options.withItem subject (.tuple [target, required])) fun hfit ↦ ?_
        have hkey : subject.isKey = true := by simpa [hcallable, hnull] using hfit
        rw [Options.withItem, if_pos hkey]
        rfl

/-- A directive that fails leaves what it had laid down, and nothing else. -/
theorem apply_leaves (ht : t.Sound) (hid : id < t.nodes.length)
    (hopen : (t.node id).isCompiled = false) (d : Directive)
    (hrule : d.isForRules = true → t.isRule id = true) :
    (d.apply id).Leaves t (d.LeftBehind t id) := by
  have hplain {a : Action Unit} (hd : ∀ o, d.leftover o = o)
      (h : a.Leaves t fun s ↦ s.own id = t.own id) : a.Leaves t (d.LeftBehind t id) :=
    h.mono_error fun _ hs ↦ ⟨hs.trans (hd _).symm, fun _ ↦ hs⟩
  have hcopy {β : Type} {x : Except Fault β} {f : β → Action Unit} (hd : ∀ o, d.leftover o = o)
      (h : ∀ y, (f y).Leaves t fun s ↦ s.own id = t.own id) :
      (ofExcept x >>= f).Leaves t (d.LeftBehind t id) :=
    hplain hd (ends_bind.mpr (ends_ofExcept h rfl))
  cases d with
  | options given more =>
    refine (layOptions_leaves ht hid hopen given more).mono_error fun s hs ↦ ?_
    refine ⟨hs.1, fun hfit ↦ hs.1.trans ?_⟩
    rw [overlay_of_isFit hs.2 hfit]
  | option key value => exact hplain (fun _ ↦ rfl) (setOption_leaves hopen key value)
  | patterns given more =>
    refine (layPatterns_leaves hid hopen given more).mono_error fun s hs ↦ ?_
    refine ⟨hs.1, fun hfit ↦ hs.1.trans ?_⟩
    rw [overlay_of_isFit hs.2 hfit]
  | aliases given more =>
    obtain ⟨r, hr⟩ := Option.isSome_iff_exists.mp (hrule rfl)
    have haliases : (t.own id).aliases = some r.aliases := by
      rw [own, ownOf, hr]
      rfl
    refine (layAliases_leaves hid hopen hr given more).mono_error fun s hs ↦ ?_
    refine ⟨hs.1.trans ?_, fun hfit ↦ hs.1.trans ?_⟩
    · rw [Directive.leftover, haliases]
      rfl
    · rw [overlay_of_isFit hs.2 hfit, ← haliases]
  | validation parameter rule =>
    refine ends_open hopen ?_
    split
    next => exact (safe_putOption id _ _).leaves t _
    next hmap =>
      -- The map of the rules is there before the parameter turns out to be no key.
      refine (edit_slotOf_leaves ht hid _ _ _).mono_error fun s hs ↦ ?_
      rw [Directive.LeftBehind, Directive.leftover, Directive.isFit]
      · refine ⟨hs.1, fun hkey ↦ hs.2 ?_⟩
        rw [Options.withItem, if_pos hkey]
        rfl
      all_goals exact hmap
  | defaults given => exact hcopy (fun _ ↦ rfl) fun _ ↦ setOption_leaves hopen _ _
  | filter given => exact hplain (fun _ ↦ rfl) (setMapping_leaves hopen _ _)
  | view given => exact hcopy (fun _ ↦ rfl) fun _ ↦ setOption_leaves hopen _ _
  | append given => exact hplain (fun _ ↦ rfl) (setMapping_leaves hopen _ _)
  | model subject target required => exact model_leaves ht hid hopen subject target required
  | validator v scene messages batch =>
    exact hcopy (fun _ ↦ rfl) fun _ ↦ setOption_leaves hopen _ _
  | middleware given parameters =>
    exact hplain (fun _ ↦ rfl) (addMiddleware_leaves ht hid hopen _ _)
  | crossOrigin headers => exact hcopy (fun _ ↦ rfl) fun _ ↦ addMiddleware_leaves ht hid hopen _ _
  | withoutMiddleware given => exact hcopy (fun _ ↦ rfl) fun _ ↦ setOption_leaves hopen _ _
  | merging names => exact ends_open hopen ((safe_modifyNode id _).leaves t _)
  | domain given =>
    exact ends_open hopen (((safe_modifyNode id _).bind fun _ ↦ safe_putOption id _ _).leaves t _)
  | name given =>
    obtain ⟨r, hr⟩ := Option.isSome_iff_exists.mp (hrule rfl)
    exact ends_rule hr (ends_open hopen ((safe_modifyNode id _).leaves t _))
  | method given =>
    obtain ⟨r, hr⟩ := Option.isSome_iff_exists.mp (hrule rfl)
    refine (setMethod_leaves hid hopen hr given).mono_error fun s hs ↦ ?_
    obtain ⟨hs, htruthy, htext⟩ := hs
    refine ⟨hs.trans ?_, fun hfit ↦ ?_⟩
    · rw [Directive.leftover, own, ownOf, hr]
      rfl
    · rw [Directive.isFit, htruthy, htext] at hfit
      cases hfit
  | everywhere => exact hplain (fun _ ↦ rfl) (makeEverywhere_leaves id)

end Action

/-! ### Calls -/

/-- What a node has after a call of a directive by its name that fails. -/
def Table.leftBy (t : Table) (id : NodeId) (word : Text) (args : Arguments) : Own :=
  match t.directive? id word args with
  | some d => if (t.node id).isCompiled then t.own id else d.leftover (t.own id)
  | none => t.own id

/-- Nothing comes of a compiled node or of arguments that cannot be read, and no fault comes to
light in what a directive is given once it has begun to lay it down. -/
def Table.isWhole (t : Table) (id : NodeId) (word : Text) (args : Arguments) : Bool :=
  (t.node id).isCompiled || (t.directive? id word args).all Directive.isFit

namespace Action

variable {word : Text} {args : Arguments}

theorem Leaves.of_run_error {a : Action α} {P : Table → Prop} (h : a.Leaves t P)
    (hrun : a.run t = .error fault s) : P s := by
  rwa [Leaves, Ends, hrun] at h

/-- A compiled node is left as it was, by whatever fails. -/
theorem apply_leaves_of_isCompiled (hc : (t.node id).isCompiled = true) (d : Directive)
    (hrule : d.isForRules = true → t.isRule id = true) :
    (d.apply id).Leaves t fun s ↦ s.own id = t.own id := by
  cases hrouter : d.isForRouter with
  | true =>
    cases d with
    | everywhere => exact makeEverywhere_leaves id
    | _ => cases hrouter
  | false =>
    obtain ⟨e, he, -⟩ := apply_of_isCompiled hc d hrouter hrule
    rw [Leaves, Ends, he]

/-- A call of a directive fails because its arguments cannot be read, or because the directive
fails. -/
theorem call_eq_error {reader : Arguments → Except Fault Directive}
    (hreader : Directive.reader? (t.isRule id) word = some reader)
    (hrun : (call id word args).run t = .error fault s) :
    (reader args).toOption = none ∧ s = t ∨
      ∃ d, reader args = .ok d ∧ (d.apply id).run t = .error fault s := by
  cases hread : reader args with
  | error e =>
    rw [call, bind_of_ok (a := get) (b := t) rfl, hreader] at hrun
    dsimp only at hrun
    rw [hread] at hrun
    cases hrun
    exact .inl ⟨rfl, rfl⟩
  | ok d =>
    refine .inr ⟨d, rfl, ?_⟩
    rw [call_of_reader hreader hread] at hrun
    cases happly : (d.apply id).run t with
    | ok x u =>
      rw [bind_of_ok happly] at hrun
      cases hrun
    | error e u =>
      rw [bind_of_error happly] at hrun
      cases hrun
      rfl

end Action

/-- A directive that fails leaves its node as it was, if no fault comes to light in what it is given
once it has begun to lay it down, or if the node is compiled, or if its arguments cannot be read.
Otherwise it leaves what it had laid down by then, and nothing else of what the node has changes. -/
theorem own_of_failed {word : Text} {args : Arguments} (ht : t.Reachable)
    (hid : t.hasNode id = true) (hword : (Directive.reader? (t.isRule id) word).isSome = true)
    (hrun : (Operation.call id word args).run.run t = .error fault s) :
    s.own id = t.leftBy id word args ∧ (t.isWhole id word args = true → s.own id = t.own id) := by
  obtain ⟨reader, hreader⟩ := Option.isSome_iff_exists.mp hword
  have hcall : (Action.call id word args).run t = .error fault s := by
    rw [Operation.run] at hrun
    cases hr : (Action.call id word args).run t with
    | ok x u =>
      rw [Action.bind_of_ok hr] at hrun
      cases hrun
    | error e u =>
      rw [Action.bind_of_error hr] at hrun
      cases hrun
      rfl
  rw [Table.leftBy, Table.isWhole, Table.directive?, hreader, Option.bind_some]
  rcases Action.call_eq_error hreader hcall with ⟨hread, rfl⟩ | ⟨d, hread, happly⟩
  · rw [hread]
    exact ⟨rfl, fun _ ↦ rfl⟩
  · have hrule := Directive.isRule_of_reader? hreader hread
    rw [hread]
    cases hc : (t.node id).isCompiled with
    | true =>
      have hown := (Action.apply_leaves_of_isCompiled hc d hrule).of_run_error happly
      exact ⟨hown, fun _ ↦ hown⟩
    | false =>
      exact (Action.apply_leaves ht.sound (of_decide_eq_true hid) hc d hrule).of_run_error happly

/-- A rule with an option. -/
def Table.plainRule : Table := empty.afterAll
  [.addRouter [], .routeOn 0 { rule := "p", target := "x", options := [(.str "ext", .str "html")] }]

theorem reachable_plainRule : Table.plainRule.Reachable := ⟨_, by decide, rfl⟩

/-- Of options that are given as a list of pairs, those before a faulty pair are laid down; a single
option whose name is unfit leaves nothing. -/
theorem own_of_failed_plainRule : ∃ (args args' : Arguments) (fault fault' : Fault) (s s' : Table),
    args = ⟨[.list [.list ["ext", "txt"], .list ["https", .bool true], .int 5]], []⟩ ∧
    args' = ⟨[.list [], .int 5], []⟩ ∧
    (Operation.call 1 "option" args).run.run Table.plainRule = .error fault s ∧
    (Operation.call 1 "set_option" args').run.run Table.plainRule = .error fault' s' ∧
    (s.own 1).options = [(.str "ext", .str "txt"), (.str "https", .bool true)] ∧
    (s.own 1).name = (Table.plainRule.own 1).name ∧
    s'.own 1 = Table.plainRule.own 1 := by
  let args : Arguments :=
    ⟨[.list [.list ["ext", "txt"], .list ["https", .bool true], .int 5]], []⟩
  let args' : Arguments := ⟨[.list [], .int 5], []⟩
  obtain ⟨s, hrun⟩ := Action.exists_run_of_fault? (e := .wrongType)
    (rfl : (Operation.call 1 "option" args).run.fault? Table.plainRule = _)
  obtain ⟨s', hrun'⟩ := Action.exists_run_of_fault? (e := .wrongType)
    (rfl : (Operation.call 1 "set_option" args').run.fault? Table.plainRule = _)
  have hleft := (own_of_failed reachable_plainRule rfl rfl hrun).1
  have hwhole := (own_of_failed reachable_plainRule rfl rfl hrun').2 rfl
  refine ⟨args, args', _, _, s, s', rfl, rfl, hrun, hrun', ?_, ?_, hwhole⟩
  · rw [hleft]
    rfl
  · rw [hleft]
    rfl

/-- Not every directive that fails leaves its node as it was: a method is stored before it is put
into small letters, which a number cannot be. -/
theorem not_forall_own_of_failed : ¬∀ (t s : Table) (id : NodeId) (word : Text) (args : Arguments)
    (fault : Fault), t.Reachable → t.hasNode id = true →
    (Directive.reader? (t.isRule id) word).isSome = true →
    (Operation.call id word args).run.run t = .error fault s → s.own id = t.own id := by
  intro h
  have hsame := h Table.plainRule _ 1 "set_method" ⟨[.int 5], []⟩ .missingAttribute
    reachable_plainRule rfl rfl rfl
  cases congrArg Own.method hsame

end UrlRouting

import UrlRouting.Proofs.Table.Frozen

/-!
A compiled node refuses to be configured and to have anything declared in it: every such call fails,
and leaves the whole table as it was (`refused_of_isCompiled`). The fault names the node, unless it
is a rule whose method is no text, which cannot be shown.
-/

namespace UrlRouting

variable {t : Table} {id : NodeId} {fault : Fault} {d : Directive} {word : Text} {args : Arguments}

/-! ### Directives by name -/

namespace Directive

/-- Groups have no such directive. -/
def isForRules : Directive → Bool
  | .aliases _ _ | .name _ | .method _ | .everywhere => true
  | _ => false

/-- The directive changes nothing at its node, but asks the router of the node. -/
def isForRouter : Directive → Bool
  | .everywhere => true
  | _ => false

/-- What the directive copies before it asks whether its node is open can be copied: as a map, which
null stands for where it may be left out, and for `without_middleware` as a list. -/
def copies : Directive → Bool
  | .defaults given => given.toMapping.isOk
  | .view given | .crossOrigin given => given.orEmpty.toMapping.isOk
  | .validator _ _ messages _ => messages.orEmpty.toMapping.isOk
  | .withoutMiddleware given => !given.isTruthy || given.toItems.isOk
  | _ => true

theorem eq_of_map_eq_ok {α : Type} {x : Except Fault α} {make : α → Directive}
    (h : x.map make = .ok d) : ∃ a, d = make a := by
  cases x with
  | error e => cases h
  | ok a => exact ⟨a, (Except.ok.inj h).symm⟩

theorem isForRules_of_readModel (h : readModel args = .ok d) : d.isForRules = false := by
  obtain ⟨values, -, h⟩ := bind_eq_ok_iff.mp h
  split at h
  · cases h
    rfl
  · cases h

theorem isForRules_of_readValidator (h : readValidator args = .ok d) : d.isForRules = false := by
  obtain ⟨values, -, h⟩ := bind_eq_ok_iff.mp h
  split at h
  · cases h
    rfl
  · cases h

theorem isForRules_of_mem_readers {reader : Arguments → Except Fault Directive}
    (hmem : (word, reader) ∈ readers) (h : reader args = .ok d) : d.isForRules = false := by
  simp only [readers, List.mem_cons, List.not_mem_nil, or_false, Prod.mk.injEq] at hmem
  rcases hmem with ⟨-, rfl⟩ | ⟨-, rfl⟩ | ⟨-, rfl⟩ | ⟨-, rfl⟩ | ⟨-, rfl⟩ | ⟨-, rfl⟩ | ⟨-, rfl⟩ |
    ⟨-, rfl⟩ | ⟨-, rfl⟩ | ⟨-, rfl⟩ | ⟨-, rfl⟩ | ⟨-, rfl⟩ | ⟨-, rfl⟩ | ⟨-, rfl⟩ | ⟨-, rfl⟩ |
    ⟨-, rfl⟩ | ⟨-, rfl⟩
  all_goals first
    | obtain ⟨a, rfl⟩ := eq_of_map_eq_ok h
      rfl
    | exact isForRules_of_readModel h
    | exact isForRules_of_readValidator h

/-- What a group is told by a name is no directive for rules. -/
theorem isRule_of_reader? {isRule : Bool} {reader : Arguments → Except Fault Directive}
    (hreader : reader? isRule word = some reader) (h : reader args = .ok d)
    (hrules : d.isForRules = true) : isRule = true := by
  cases isRule with
  | true => rfl
  | false =>
    rw [reader?] at hreader
    split at hreader
    next setter _ =>
      cases hreader
      obtain ⟨values, rfl⟩ := eq_of_map_eq_ok h
      cases hrules
    next =>
      rw [if_neg Bool.false_ne_true, List.append_nil] at hreader
      obtain ⟨front, back, hreaders, -⟩ := List.lookup_eq_some_iff.mp hreader
      have hmem : (word, reader) ∈ readers := by
        rw [hreaders]
        exact List.mem_append_right _ List.mem_cons_self
      rw [isForRules_of_mem_readers hmem h] at hrules
      cases hrules

end Directive

/-! ### The fault -/

namespace Node

/-- The node can be shown: it is a group, or a rule whose method is a text. -/
def isNamable (n : Node) : Bool := n.rule?.all fun r ↦ r.method.text?.isSome

/-- The fault of what is refused because the node is compiled. -/
def refusal (n : Node) : Fault :=
  match n.shown with
  | .ok text => .frozen text
  | .error fault => fault

theorem refusal_of_shown {n : Node} {text : Text} (h : n.shown = .ok text) :
    n.refusal = .frozen text := by
  rw [refusal, h]

theorem refusal_eq (n : Node) : if n.isNamable then
    ∃ text, n.shown = .ok text ∧ n.refusal = .frozen text else n.refusal = .missingAttribute := by
  cases hb : n.body with
  | group g =>
    have hnamable : n.isNamable = true := by simp [isNamable, rule?, hb]
    have hshown : n.shown = .ok g.shown := by simp [shown, hb]
    rw [if_pos hnamable]
    exact ⟨_, hshown, refusal_of_shown hshown⟩
  | rule r =>
    have hshown : n.shown = r.methodText.map r.shownWith := by simp [shown, hb, Rule.shown]
    have hnamable : n.isNamable = r.method.text?.isSome := by simp [isNamable, rule?, hb]
    rw [hnamable]
    rw [Rule.methodText] at hshown
    cases hm : r.method with
    | str t =>
      rw [hm] at hshown
      exact ⟨_, hshown, refusal_of_shown hshown⟩
    | _ =>
      rw [hm] at hshown
      change n.refusal = .missingAttribute
      rw [refusal, hshown]
      rfl

end Node

/-! ### Refused actions -/

namespace Action

variable {α β : Type} {a : Action β} {s : Table}

theorem bind_of_ok {b : β} (h : a.run t = .ok b s) (f : β → Action α) :
    (a >>= f).run t = (f b).run s := by
  rw [EStateM.run_bind, h]

theorem bind_of_error (h : a.run t = .error fault s) (f : β → Action α) :
    (a >>= f).run t = .error fault s := by
  rw [EStateM.run_bind, h]

theorem discard_of_ok {b : β} (h : a.run t = .ok b s) : (discard a).run t = .ok () s := by
  rw [run_discard, h]

theorem ensureOpen_of_isCompiled (hc : (t.node id).isCompiled = true) :
    (ensureOpen id).run t = .error (t.node id).refusal t := by
  rw [ensureOpen, EStateM.run_bind]
  change EStateM.run (if (t.node id).isCompiled then _ else _) t = _
  rw [if_pos hc, Node.refusal]
  cases (t.node id).shown <;> rfl

theorem rule_of_isRule (h : t.isRule id = true) : ∃ r, (rule id).run t = .ok r t := by
  obtain ⟨r, hr⟩ := Option.isSome_iff_exists.mp h
  exact ⟨r, run_rule hr⟩

theorem group_of_not_isRule (h : t.isRule id = false) : ∃ g, (group id).run t = .ok g t := by
  rw [Table.isRule, Node.rule?] at h
  cases hb : (t.node id).body with
  | rule r =>
    rw [hb] at h
    cases h
  | group g =>
    have hg : (t.node id).group? = some g := by rw [Node.group?, hb]
    refine ⟨g, ?_⟩
    simp only [group, node, EStateM.run_bind, EStateM.run_get, EStateM.run_pure, hg]

theorem ofExcept_bind_refused {x : Except Fault β} {f : β → Action α}
    (h : ∀ b, (f b).run t = .error fault t) :
    ∃ e, (ofExcept x >>= f).run t = .error e t ∧ (x.isOk = true → e = fault) := by
  cases x with
  | error e => exact ⟨e, rfl, nofun⟩
  | ok b => exact ⟨fault, h b, fun _ ↦ rfl⟩

/-- No directive forgets to ask whether its node is open, and none changes anything before. -/
theorem apply_of_isCompiled (hc : (t.node id).isCompiled = true) (d : Directive)
    (hrouter : d.isForRouter = false) (hrule : d.isForRules = true → t.isRule id = true) :
    ∃ e, (d.apply id).run t = .error e t ∧ (d.copies = true → e = (t.node id).refusal) := by
  have hopen (f : Unit → Action Unit) :
      (ensureOpen id >>= f).run t = .error (t.node id).refusal t :=
    bind_of_error (ensureOpen_of_isCompiled hc) f
  have hplain {a : Action Unit} (h : a.run t = .error (t.node id).refusal t) :
      ∃ e, a.run t = .error e t ∧ (d.copies = true → e = (t.node id).refusal) :=
    ⟨_, h, fun _ ↦ rfl⟩
  have hrules {f : Unit → Action Unit} (h : d.isForRules = true) :
      (discard (rule id) >>= fun _ ↦ ensureOpen id >>= f).run t =
        .error (t.node id).refusal t := by
    obtain ⟨r, hr⟩ := rule_of_isRule (hrule h)
    rw [bind_of_ok (discard_of_ok hr)]
    exact hopen f
  cases d with
  | options given more => exact hplain (hopen _)
  | option key value => exact hplain (hopen _)
  | patterns given more => exact hplain (hopen _)
  | validation parameter rule => exact hplain (hopen _)
  | filter given => exact hplain (hopen _)
  | append given => exact hplain (hopen _)
  | model subject target required => exact hplain (hopen _)
  | middleware given parameters => exact hplain (hopen _)
  | merging names => exact hplain (hopen _)
  | domain given => exact hplain (hopen _)
  | aliases given more => exact hplain (hrules rfl)
  | name given => exact hplain (hrules rfl)
  | method given => exact hplain (hrules rfl)
  | defaults given => exact ofExcept_bind_refused fun m ↦ hopen _
  | view given => exact ofExcept_bind_refused fun m ↦ hopen _
  | validator v scene messages batch => exact ofExcept_bind_refused fun m ↦ hopen _
  | crossOrigin headers => exact ofExcept_bind_refused fun m ↦ hopen _
  | withoutMiddleware given =>
    cases hgiven : given.isTruthy with
    | true =>
      rw [Directive.apply, Directive.copies, hgiven]
      exact ofExcept_bind_refused fun m ↦ hopen _
    | false =>
      rw [Directive.apply, hgiven]
      exact hplain (hopen _)
  | everywhere => cases hrouter

end Action

/-! ### Refused operations -/

/-- The directive that a node is given by a name, where the arguments can be read. -/
def Table.directive? (t : Table) (id : NodeId) (word : Text) (args : Arguments) :
    Option Directive :=
  (Directive.reader? (t.isRule id) word).bind fun reader ↦ (reader args).toOption

namespace Operation

/-- The operation configures a node, or declares a member of it. -/
inductive Configures (t : Table) (id : NodeId) : Operation → Prop where
  | call {word : Text} {args : Arguments} {d : Directive} (hd : t.directive? id word args = some d)
      (hrouter : d.isForRouter = false) : Configures t id (.call id word args)
  | bind (hrule : t.isRule id = true) (router : Option RouterId) (parent : Option NodeId) :
      Configures t id (.bind id router parent)
  | declareRule (hgroup : t.isRule id = false) (rule : Declared) :
      Configures t id (.declareRule id rule)
  | declareGroup (hgroup : t.isRule id = false) (inner : DeclaredGroup) (rules : List Declared) :
      Configures t id (.declareGroup id inner rules)

/-- Whatever the operation copies can be copied. -/
def copies (op : Operation) (t : Table) : Bool :=
  match op with
  | .call id word args => (t.directive? id word args).all Directive.copies
  | _ => true

end Operation

theorem Table.exists_reader_of_directive? (h : t.directive? id word args = some d) :
    ∃ reader, Directive.reader? (t.isRule id) word = some reader ∧ reader args = .ok d := by
  obtain ⟨reader, hreader, hd⟩ := Option.bind_eq_some_iff.mp h
  refine ⟨reader, hreader, ?_⟩
  cases hargs : reader args with
  | error e => rw [hargs] at hd; cases hd
  | ok found => rw [hargs] at hd; cases hd; rfl

theorem Action.call_of_reader {reader : Arguments → Except Fault Directive}
    (hreader : Directive.reader? (t.isRule id) word = some reader) (hd : reader args = .ok d) :
    (Action.call id word args).run t =
      (d.apply id >>= fun _ ↦ pure CallAnswer.itself).run t := by
  rw [Action.call, bind_of_ok (a := get) (b := t) rfl]
  rw [hreader]
  dsimp only
  rw [hd]
  rfl

open UrlRouting.Action in
/-- Whatever is to configure a compiled node, or to declare something in it, fails and leaves the
table as it was. If what it copies can be copied, it fails because the node is compiled; the fault
says so unless the node is a rule whose method is no text. -/
theorem refused_of_isCompiled {op : Operation} (hc : (t.node id).isCompiled = true)
    (hop : op.Configures t id) : ∃ e, op.run.run t = .error e t ∧ (op.copies t = true →
      if (t.node id).isNamable then ∃ text, (t.node id).shown = .ok text ∧ e = .frozen text
      else e = .missingAttribute) := by
  have hrefusal : if (t.node id).isNamable then
      ∃ text, (t.node id).shown = .ok text ∧ (t.node id).refusal = .frozen text
      else (t.node id).refusal = .missingAttribute := (t.node id).refusal_eq
  have hopen {α : Type} (f : Unit → Action α) :
      (ensureOpen id >>= f).run t = .error (t.node id).refusal t :=
    bind_of_error (ensureOpen_of_isCompiled hc) f
  cases hop with
  | call hd hrouter =>
    obtain ⟨reader, hreader, hargs⟩ := Table.exists_reader_of_directive? hd
    have hrule := Directive.isRule_of_reader? hreader hargs
    obtain ⟨e, he, hcopies⟩ := apply_of_isCompiled hc _ hrouter hrule
    refine ⟨e, ?_, fun h ↦ ?_⟩
    · have hcall := (call_of_reader hreader hargs).trans (bind_of_error he _)
      exact bind_of_error hcall _
    · rw [Operation.copies, hd, Option.all_some] at h
      rw [hcopies h]
      exact hrefusal
  | bind hrule router parent =>
    obtain ⟨r, hr⟩ := rule_of_isRule hrule
    have hbind : (Action.bind id router parent).run t = .error (t.node id).refusal t :=
      (bind_of_ok (discard_of_ok hr) _).trans (hopen _)
    exact ⟨_, bind_of_error hbind _, fun _ ↦ hrefusal⟩
  | declareRule hgroup rule =>
    obtain ⟨g, hg⟩ := group_of_not_isRule hgroup
    have hdeclare : (Action.declareRule id rule).run t = .error (t.node id).refusal t :=
      (bind_of_ok (discard_of_ok hg) _).trans (hopen _)
    exact ⟨_, bind_of_error hdeclare _, fun _ ↦ hrefusal⟩
  | declareGroup hgroup inner rules =>
    obtain ⟨g, hg⟩ := group_of_not_isRule hgroup
    have hdeclare : (Action.declareGroup id inner).run t = .error (t.node id).refusal t :=
      (bind_of_ok (discard_of_ok hg) _).trans (hopen _)
    exact ⟨_, bind_of_error hdeclare _, fun _ ↦ hrefusal⟩

theorem refused_guardedRule : (Table.guardedRule.node 2).isCompiled = true ∧
    Operation.Configures Table.guardedRule 2 (.call 2 "set_name" ⟨["entry"], []⟩) ∧
    ∃ text, (Operation.call 2 "set_name" ⟨["entry"], []⟩).run.run Table.guardedRule =
      .error (.frozen text) Table.guardedRule := by
  have hc : (Table.guardedRule.node 2).isCompiled = true := by decide
  have hop : Operation.Configures Table.guardedRule 2 (.call 2 "set_name" ⟨["entry"], []⟩) :=
    .call (d := .name "entry") rfl rfl
  obtain ⟨e, he, hfault⟩ := refused_of_isCompiled hc hop
  have hnamable : (Table.guardedRule.node 2).isNamable = true := by decide
  have hfrozen := hfault rfl
  rw [if_pos hnamable] at hfrozen
  obtain ⟨text, -, rfl⟩ := hfrozen
  exact ⟨hc, hop, text, he⟩

/-- A compiled rule whose method is a number. -/
def Table.numberedRule : Table := empty.afterAll
  [.addRouter [], .routeOn 0 { rule := "p", target := "x" }, .call 1 "set_method" ⟨[.int 5], []⟩,
    .compile 1]

theorem reachable_numberedRule : Table.numberedRule.Reachable := ⟨_, by decide, rfl⟩

/-- A name that is given to it is refused, but not because the rule is compiled. -/
theorem not_forall_refused : ¬∀ (t : Table) (id : NodeId) (op : Operation), t.Reachable →
    (t.node id).isCompiled = true → op.Configures t id → op.copies t = true →
    ∃ text, op.run.run t = .error (.frozen text) t := by
  intro h
  obtain ⟨text, hrun⟩ := h Table.numberedRule 1 (.call 1 "set_name" ⟨["entry"], []⟩)
    reachable_numberedRule (by decide) (.call (d := .name "entry") rfl rfl) rfl
  cases hrun

end UrlRouting

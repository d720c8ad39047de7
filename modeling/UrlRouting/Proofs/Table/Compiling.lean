import UrlRouting.Proofs.Table.Answers

/-!
Compiling answers what the table determines. A node that is compiled keeps what was in effect at it,
and an expression is looked up where it is kept: neither changes what any rule is compiled to, so
that the order in which nodes are compiled is of no account.
-/

namespace UrlRouting

variable {t s : Table} {id : NodeId} {r : Rule} {c : CompiledRule} {x : Regex} {complete : Bool}

theorem Node.body_of_rule? {n : Node} (h : n.rule? = some r) : n.body = .rule r := by
  rw [rule?] at h
  split at h
  · cases h
    assumption
  · cases h

namespace Table

theorem lt_of_rule? (h : (t.node id).rule? = some r) : id < t.nodes.length := by
  rcases Nat.lt_or_ge id t.nodes.length with hlt | hle
  · exact hlt
  · rw [node_of_length_le hle] at h
    cases h

/-! ### Keeping what is in effect -/

def frozen (t : Table) (id : NodeId) : Node :=
  { t.node id with snapshot := some ⟨t.effectiveSlots id, t.effectivePatterns id⟩ }

def freeze (t : Table) (id : NodeId) : Table := t.setNode id (t.frozen id)

theorem sound_freeze (h : t.Sound) (hopen : (t.node id).isCompiled = false) :
    (t.freeze id).Sound := by
  obtain ⟨label, h⟩ := h
  have hn := h.fits id
  refine ⟨label, h.setNode ?_ (fun hr ↦ hr) fun hc ↦ ?_⟩
  rotate_left
  · rw [hopen] at hc
    cases hc
  exact
    { router_lt := hn.router_lt
      parent_lt := hn.parent_lt
      parent_group := hn.parent_group
      group_parent_lt := hn.group_parent_lt
      member_lt := hn.member_lt
      own := hn.own
      snapshot := by
        intro s hs
        obtain rfl := Option.some.inj hs
        exact h.effectiveSlots id
      keeps := by
        intro r hr complete folds x hx
        have hc := (hn.keeps r hr complete folds x hx).1
        rw [hopen] at hc
        cases hc }

theorem advanced_freeze (h : t.Sound) (hopen : (t.node id).isCompiled = false)
    (hkeys : t.namesAreKeys (t.lineage id) = true) : t.Advanced (t.freeze id) :=
  advanced_setNode h.grounded (sound_freeze h hopen).grounded ⟨rfl, .inr ⟨rfl, hopen, hkeys⟩⟩

theorem isCompiled_freeze_of_ne {other : NodeId} (h : id ≠ other) :
    ((t.freeze id).node other).isCompiled = (t.node other).isCompiled := by
  rw [freeze, node_setNode_of_ne h]

theorem isCompiled_freeze (h : id < t.nodes.length) :
    ((t.freeze id).node id).isCompiled = true := by
  rw [freeze, node_setNode_self h]
  rfl

/-- What a rule is compiled to is known once it is compiled, whether or not its expression is
malformed. -/
theorem ruleAt_of_compiled (hc : (t.node id).isCompiled = true) (hin : t.inEffect? id = some c) :
    t.ruleAt id = .ok c := by
  rw [ruleAt, hin]
  simp only [hc, ↓reduceIte]

theorem ruleAt_of_open (ho : (t.node id).isCompiled = false)
    (hk : t.namesAreKeys (t.lineage id) = true) (hin : t.inEffect? id = some c) :
    t.ruleAt id = (c.regex (c.isComplete false)).map fun _ ↦ c := by
  rw [ruleAt, hin]
  simp only [ho, hk, Bool.false_eq_true, ↓reduceIte]

theorem ruleAt_freeze_of_ne (h : t.Alike (t.freeze id)) {other : NodeId} (hne : id ≠ other) :
    (t.freeze id).ruleAt other = t.ruleAt other := by
  rw [ruleAt, ruleAt, h.inEffect?_eq, h.keys, isCompiled_freeze_of_ne hne]

/-! ### Keeping expressions -/

/-- The rule is compiled, and its expressions are those of `c`. -/
structure Expresses (t : Table) (id : NodeId) (c : CompiledRule) : Prop where
  compiled : (t.node id).isCompiled = true
  inEffect : ∃ c', t.inEffect? id = some c' ∧ c'.ignoresCase = c.ignoresCase ∧
    ∀ complete, c'.regex complete = c.regex complete

namespace Expresses

theorem of_compiled (hc : (t.node id).isCompiled = true) (hin : t.inEffect? id = some c) :
    t.Expresses id c := ⟨hc, c, hin, rfl, fun _ ↦ rfl⟩

theorem alike (h : t.Expresses id c) (ha : t.Alike s) : s.Expresses id c where
  compiled := ha.compiled id h.compiled
  inEffect := by
    rw [ha.inEffect?_eq]
    exact h.inEffect

theorem exists_rule (h : t.Expresses id c) (ht : t.Grounded) : ∃ r, (t.node id).rule? = some r ∧
    (t.compiledRule (t.node id) r).ignoresCase = c.ignoresCase ∧
    ∀ complete, (t.compiledRule (t.node id) r).regex complete = c.regex complete := by
  obtain ⟨c', hin, hcase, hregex⟩ := h.inEffect
  cases hr : (t.node id).rule? with
  | none => simp [inEffect?, hr] at hin
  | some r =>
    rw [inEffect?_of_compiled ht hr h.compiled, Option.some.injEq] at hin
    subst hin
    exact ⟨r, rfl, hcase, hregex⟩

end Expresses

def withExpression (n : Node) (r : Rule) (key : Bool × Bool) (x : Regex) : Node :=
  { n with body := .rule { r with expressions := (key, x) :: r.expressions } }

theorem same_keepExpression (h : t.Sound) (hc : t.Expresses id c) (hr : (t.node id).rule? = some r)
    (hx : c.regex complete = .ok x) :
    t.Same (t.setNode id (withExpression (t.node id) r (complete, c.ignoresCase) x)) := by
  obtain ⟨label, h⟩ := h
  have hn := h.fits id
  have hmembers : (t.node id).members = [] := by rw [Node.members, Node.body_of_rule? hr]
  have hsound : (t.setNode id (withExpression (t.node id) r (complete, c.ignoresCase) x)).SoundFor
      label := by
    refine h.setNode ?_ (fun hnone ↦ ?_) fun _ ↦ ⟨hc.compiled, hmembers.symm⟩
    · exact
        { router_lt := hn.router_lt
          parent_lt := hn.parent_lt
          parent_group := hn.parent_group
          group_parent_lt := fun hnone ↦ by cases hnone
          member_lt := fun hm ↦ by cases hm
          own := hn.own
          snapshot := hn.snapshot
          keeps := by
            intro r' hr' complete' folds y hy
            obtain ⟨r'', hr'', hcase, hregex⟩ := hc.exists_rule h.grounded
            rw [hr, Option.some.injEq] at hr''
            subst hr''
            cases hr'
            rw [List.lookup_cons] at hy
            split at hy
            next hkey =>
              rw [beq_iff_eq, Prod.mk.injEq] at hkey
              obtain ⟨rfl, rfl⟩ := hkey
              cases hy
              exact ⟨hc.compiled, hcase, (hregex complete').trans hx⟩
            next => exact hn.keeps r hr complete' folds y hy }
    · rw [hr] at hnone
      cases hnone
  have hshows : t.Shows id (withExpression (t.node id) r (complete, c.ignoresCase) x) := by
    refine ⟨?_, .inl rfl⟩
    rw [Node.bare, Node.bare, Node.body_of_rule? hr]
    rfl
  refine (advanced_setNode h.grounded hsound.grounded hshows).same ⟨label, hsound⟩ ?_
  refine forall_node_setNode (motive := fun other n ↦ n.isCompiled = (t.node other).isCompiled)
    ?_ fun _ ↦ rfl
  rfl

end Table

namespace Action

variable {α : Type} {a : Except Fault α}

theorem run_rule (hr : (t.node id).rule? = some r) : (rule id).run t = .ok r t := by
  simp only [rule, node, EStateM.run_bind, EStateM.run_get, EStateM.run_pure, hr]

theorem Answers.rule_bind {f : Rule → Action α} (hr : (t.node id).rule? = some r)
    (h : (f r).Answers t a) : (rule id >>= f).Answers t a := by
  have hrun : (rule id >>= f).run t = (f r).run t := by rw [EStateM.run_bind, run_rule hr]
  rwa [Answers, hrun]

theorem expression_answers (h : t.Sound) (hc : t.Expresses id c) (complete : Bool) :
    (expression id c complete).Answers t (c.regex complete) := by
  obtain ⟨r, hr, hcase, hregex⟩ := hc.exists_rule h.grounded
  rw [expression]
  refine .rule_bind hr ?_
  cases hl : r.expressions.lookup (complete, c.ignoresCase) with
  | some x =>
    obtain ⟨label, hl'⟩ := h
    have hx := ((hl'.fits id).keeps r hr complete c.ignoresCase x hl).2.2
    rw [← hregex, hx]
    exact .pure ⟨label, hl'⟩ x
  | none =>
    have hmade : c.regex complete =
        c.expression complete >>= fun text ↦ c.read text >>= fun x ↦ .ok () >>= fun _ ↦
          .ok () >>= fun _ ↦ .ok x := by
      rw [CompiledRule.regex]
      congr 1
      funext text
      cases c.read text <;> rfl
    rw [hmade]
    refine (Answers.ofExcept h _).bind fun text s htext hs ↦ ?_
    refine (Answers.ofExcept hs.sound _).bind fun x s' hx hs' ↦ ?_
    refine (Answers.log hs'.sound _).bind fun _ u _ hu ↦ ?_
    have hx : c.regex complete = .ok x := by
      rw [CompiledRule.regex, htext]
      exact hx
    have hcu := hc.alike ((hs.trans hs').trans hu).alike
    obtain ⟨r', hr', -, -⟩ := hcu.exists_rule hu.sound.grounded
    have hsame := Table.same_keepExpression hu.sound hcu hr' hx
    have hrun : (modifyRule id fun rule ↦
        { rule with expressions := ((complete, c.ignoresCase), x) :: rule.expressions }).run u =
          .ok ()
            (u.setNode id (Table.withExpression (u.node id) r' (complete, c.ignoresCase) x)) := by
      rw [modifyRule, modifyNode, EStateM.run_modify, Node.body_of_rule? hr']
      rfl
    exact (Answers.of_run_ok hrun rfl hsame).bind fun _ v _ hv ↦ .pure hv.sound x

/-! ### Compiling nodes -/

theorem run_freeze (id : NodeId) (t : Table) : (freeze id).run t =
    if t.namesAreKeys (t.lineage id) then .ok () (t.freeze id) else .error .wrongType t := by
  cases hk : t.namesAreKeys (t.lineage id) <;>
    simp only [freeze, effectiveSlots, EStateM.run_bind, EStateM.run_get, hk, Bool.false_eq_true,
      ↓reduceIte] <;> rfl

theorem run_compiledRule (hr : (t.node id).rule? = some r) :
    (compiledRule id).run t = .ok (t.compiledRule (t.node id) r) t := by
  simp only [compiledRule, node, EStateM.run_bind, EStateM.run_get, EStateM.run_pure, run_rule hr]

theorem run_compileRule (hr : (t.node id).rule? = some r) : (compileRule id).run t =
    if (t.node id).isCompiled then .ok () t
    else EStateM.run (do
      freeze id
      let c ← compiledRule id
      discard (expression id c (c.isComplete false))) t := by
  cases hc : (t.node id).isCompiled <;>
    simp only [compileRule, EStateM.run_bind, run_discard, run_rule hr, node, EStateM.run_get,
      EStateM.run_pure, hc, Bool.false_eq_true, ↓reduceIte]

/-- A rule that is not compiled is frozen and asks for its expression. -/
theorem run_compileRule_of_open (h : t.Sound) (hr : (t.node id).rule? = some r)
    (ho : (t.node id).isCompiled = false) (hk : t.namesAreKeys (t.lineage id) = true)
    (hin : t.inEffect? id = some c) : (compileRule id).run t =
      (discard (expression id c (c.isComplete false))).run (t.freeze id) ∧
      (t.freeze id).Expresses id c := by
  have hsound := Table.sound_freeze h ho
  have hc : ((t.freeze id).node id).isCompiled = true :=
    Table.isCompiled_freeze (Table.lt_of_rule? hr)
  have hr' : ((t.freeze id).node id).rule? = some r := by
    rw [Table.freeze, Table.node_setNode_self (Table.lt_of_rule? hr)]
    exact hr
  have hin' : (t.freeze id).inEffect? id = some c :=
    ((Table.advanced_freeze h ho hk).inEffect?_eq id).trans hin
  have hrule : (t.freeze id).compiledRule ((t.freeze id).node id) r = c := by
    rw [Table.inEffect?_of_compiled hsound.grounded hr' hc, Option.some.injEq] at hin'
    exact hin'
  refine ⟨?_, .of_compiled hc hin'⟩
  rw [run_compileRule hr, ho]
  simp only [Bool.false_eq_true, ↓reduceIte, EStateM.run_bind, run_freeze, hk,
    run_compiledRule hr', hrule]

/-- The expression that a rule asks for when it is compiled may be malformed. -/
theorem compileRule_of_open (h : t.Sound) (hr : (t.node id).rule? = some r)
    (ho : (t.node id).isCompiled = false) (hk : t.namesAreKeys (t.lineage id) = true)
    (hin : t.inEffect? id = some c) :
    (∃ s, t.ruleAt id = .ok c ∧ (compileRule id).run t = .ok () s ∧ t.Same s ∧
      s.Expresses id c) ∨
    ∃ e s, t.ruleAt id = .error e ∧ (compileRule id).run t = .error e s ∧ s.Sound ∧
      t.Advanced s := by
  have hsound := Table.sound_freeze h ho
  have hadvanced := Table.advanced_freeze h ho hk
  obtain ⟨hrun, hex⟩ := run_compileRule_of_open h hr ho hk hin
  have hanswer := (expression_answers hsound hex (c.isComplete false)).ignoring
  have hat := Table.ruleAt_of_open ho hk hin
  cases hx : c.regex (c.isComplete false) with
  | error e =>
    rw [hx] at hanswer hat
    obtain ⟨s, hs, hs', ha⟩ := hanswer.exists_run_error
    exact .inr ⟨e, s, hat, hrun.trans hs, hs', hadvanced.trans ha⟩
  | ok x =>
    rw [hx] at hanswer hat
    obtain ⟨s, hs, hs'⟩ := hanswer.exists_run_ok
    refine .inl ⟨s, hat, hrun.trans hs, ⟨hs'.sound, hadvanced.trans hs'.advanced, fun other ↦ ?_⟩,
      hex.alike hs'.alike⟩
    rw [hs'.ruleAt]
    by_cases he : id = other
    · subst he
      rw [hat, Table.ruleAt_of_compiled hex.compiled ((hadvanced.inEffect?_eq id).trans hin)]
      rfl
    · exact Table.ruleAt_freeze_of_ne hadvanced.toAlike he

/-- Compiling a rule succeeds, and leaves it compiled, where the table determines what to. -/
theorem compileRule_ends (h : t.Sound) (id : NodeId) :
    (∃ c s, t.ruleAt id = .ok c ∧ (compileRule id).run t = .ok () s ∧ t.Same s ∧
      s.Expresses id c) ∨
    ∃ e s, t.ruleAt id = .error e ∧ (compileRule id).run t = .error e s ∧ s.Sound ∧
      t.Advanced s := by
  cases hr : (t.node id).rule? with
  | none =>
    refine .inr ⟨.missingAttribute, t, ?_, ?_, h, .refl t⟩
    · rw [Table.ruleAt, Table.inEffect?, hr]
      rfl
    · simp only [compileRule, EStateM.run_bind, run_discard, rule, node, EStateM.run_get,
        EStateM.run_pure, hr]
      rfl
  | some r =>
    obtain ⟨c, hin⟩ : ∃ c, t.inEffect? id = some c := by simp [Table.inEffect?, hr]
    cases hc : (t.node id).isCompiled with
    | true =>
      refine .inl ⟨c, t, Table.ruleAt_of_compiled hc hin, ?_, .refl h, .of_compiled hc hin⟩
      rw [run_compileRule hr, hc]
      rfl
    | false =>
      cases hk : t.namesAreKeys (t.lineage id) with
      | true =>
        rcases compileRule_of_open h hr hc hk hin with ⟨s, hs⟩ | hs
        · exact .inl ⟨c, s, hs⟩
        · exact .inr hs
      | false =>
        refine .inr ⟨.wrongType, t, ?_, ?_, h, .refl t⟩
        · rw [Table.ruleAt, hin]
          simp only [hc, hk, Bool.false_eq_true, ↓reduceIte]
        · rw [run_compileRule hr, hc]
          simp only [Bool.false_eq_true, ↓reduceIte, EStateM.run_bind, run_freeze, hk]

theorem compileRule_answers (h : t.Sound) (id : NodeId) :
    (compileRule id).Answers t ((t.ruleAt id).map fun _ ↦ ()) := by
  rcases compileRule_ends h id with ⟨c, s, hat, hrun, hs, -⟩ | ⟨e, s, hat, hrun, hs, ha⟩
  · exact .of_run_ok hrun (by rw [hat]; rfl) hs
  · exact .of_run_error hrun (by rw [hat]; rfl) hs ha

/-- Where compiling a rule succeeds, the rest goes on with what the table determines. -/
theorem run_compiled_bind {f : CompiledRule → Action α} (hat : t.ruleAt id = .ok c)
    (hrun : (compileRule id).run t = .ok () s) (hs : t.Same s) (hex : s.Expresses id c) :
    EStateM.run (do
      compileRule id
      let c ← compiledRule id
      f c) t = (f c).run s := by
  have hin : s.inEffect? id = some c := Table.inEffect?_of_ruleAt ((hs.ruleAt id).trans hat)
  obtain ⟨r, hr, -, -⟩ := hex.exists_rule hs.sound.grounded
  rw [Table.inEffect?_of_compiled hs.sound.grounded hr hex.compiled, Option.some.injEq] at hin
  simp only [EStateM.run_bind, hrun, run_compiledRule hr, hin]

theorem Answers.compiled_bind {f : CompiledRule → Action α} {g : CompiledRule → Except Fault α}
    (h : t.Sound)
    (hf : ∀ c s, t.ruleAt id = .ok c → t.Same s → s.Expresses id c → (f c).Answers s (g c)) :
    Answers (do
      compileRule id
      let c ← compiledRule id
      f c) t (t.ruleAt id >>= g) := by
  rcases compileRule_ends h id with ⟨c, s, hat, hrun, hs, hex⟩ | ⟨e, s, hat, hrun, hs, ha⟩
  · rw [hat]
    exact (hf c s hat hs hex).after hs (run_compiled_bind hat hrun hs hex)
  · rw [hat]
    exact .of_run_error (by simp only [EStateM.run_bind, hrun]) rfl hs ha

end Action

namespace Table

/-- Whether a node can be compiled, its members apart. -/
def compiling (t : Table) (id : NodeId) : Except Fault Unit :=
  if t.isRule id then (t.ruleAt id).map fun _ ↦ ()
  else if t.namesAreKeys (t.lineage id) then .ok () else .error .wrongType

/-- Whether nodes can be compiled, one after the other. -/
def compilingAll (t : Table) : List NodeId → Except Fault Unit
  | [] => .ok ()
  | id :: rest => t.compiling id >>= fun _ ↦ t.compilingAll rest

theorem Same.compiling_eq (h : t.Same s) (id : NodeId) : s.compiling id = t.compiling id := by
  rw [compiling, compiling, h.alike.isRule_eq, h.ruleAt, h.alike.keys]

theorem Same.compilingAll_eq (h : t.Same s) (ids : List NodeId) :
    s.compilingAll ids = t.compilingAll ids := by
  induction ids with
  | nil => rfl
  | cons id rest ih => rw [compilingAll, compilingAll, h.compiling_eq, ih]

theorem same_freeze_group (h : t.Sound) (hr : (t.node id).rule? = none)
    (ho : (t.node id).isCompiled = false) (hk : t.namesAreKeys (t.lineage id) = true) :
    t.Same (t.freeze id) := by
  have hadvanced := advanced_freeze h ho hk
  refine ⟨sound_freeze h ho, hadvanced, fun other ↦ ?_⟩
  by_cases he : id = other
  · subst he
    have hnone : t.inEffect? id = none := by rw [inEffect?, hr, Option.map_none]
    rw [ruleAt, ruleAt, hadvanced.inEffect?_eq, hnone]
  · exact ruleAt_freeze_of_ne hadvanced.toAlike he

theorem same_close (h : t.Sound) {id : RouterId}
    (hsealed : id < t.routers.length → t.Sealed (t.router id).root) :
    t.Same (t.setRouter id { t.router id with compiled := true }) := by
  rcases Nat.lt_or_ge id t.routers.length with hlt | hle
  rotate_left
  · rw [setRouter, List.set_eq_of_length_le hle]
    exact .refl h
  obtain ⟨label, h⟩ := h
  have hadvanced : t.Advanced (t.setRouter id { t.router id with compiled := true }) := by
    refine advanced_of_nodes rfl rfl (by simp [setRouter]) (forall_router_setRouter
      (motive := fun other r ↦ r = { t.router other with compiled := r.compiled }) rfl
      fun _ ↦ rfl) ?_
    exact forall_router_setRouter
      (motive := fun other r ↦ (t.router other).compiled = true → r.compiled = true)
      (fun _ ↦ rfl) fun _ hc ↦ hc
  exact hadvanced.same ⟨label, h.setRouter rfl rfl fun _ ↦ hsealed hlt⟩ fun _ ↦ rfl

end Table

namespace Action

theorem run_compileNode_of_rule {r : Rule} (hr : (t.node id).rule? = some r) :
    (compileNode id).run t = (compileRule id).run t := by
  simp only [compileNode, node, EStateM.run_bind, EStateM.run_get, EStateM.run_pure,
    Node.body_of_rule? hr]

theorem run_compileNode_of_group {g : Group} (hb : (t.node id).body = .group g) :
    (compileNode id).run t =
      if (t.node id).isCompiled then .ok () t
      else if t.namesAreKeys (t.lineage id) then .ok () (t.freeze id)
      else .error .wrongType t := by
  simp only [compileNode, node, EStateM.run_bind, EStateM.run_get, EStateM.run_pure, hb]
  cases (t.node id).isCompiled with
  | true => rfl
  | false => exact run_freeze id t

theorem run_compileNodes_cons {ids : List NodeId} (hfirst : (compileNode id).run t = .ok () s) :
    (compileNodes (id :: ids)).run t = (compileNodes ids).run s := by
  rw [compileNodes, EStateM.run_bind, hfirst]

theorem compileNode_answers (h : t.Sound) (id : NodeId) :
    (compileNode id).Answers t (t.compiling id) := by
  rw [compileNode, Table.compiling, Table.isRule]
  refine .node_bind ?_
  cases hb : (t.node id).body with
  | rule r =>
    have hr : (t.node id).rule? = some r := by rw [Node.rule?, hb]
    simp only [hr, Option.isSome_some, ↓reduceIte]
    exact compileRule_answers h id
  | group g =>
    have hr : (t.node id).rule? = none := by rw [Node.rule?, hb]
    simp only [hr, Option.isSome_none, Bool.false_eq_true, ↓reduceIte]
    cases hc : (t.node id).isCompiled with
    | true =>
      rw [Table.namesAreKeys_lineage h.grounded, hc]
      exact .pure h ()
    | false =>
      cases hk : t.namesAreKeys (t.lineage id) with
      | true =>
        have hrun : (freeze id).run t = .ok () (t.freeze id) := by rw [run_freeze, if_pos hk]
        exact .of_run_ok hrun rfl (Table.same_freeze_group h hr hc hk)
      | false =>
        have hrun : (freeze id).run t = .error .wrongType t := by simp [run_freeze, hk]
        exact .of_run_error hrun rfl h (.refl t)

theorem compileNodes_answers (h : t.Sound) (ids : List NodeId) :
    (compileNodes ids).Answers t (t.compilingAll ids) := by
  induction ids generalizing t with
  | nil => exact .pure h ()
  | cons id rest ih =>
    refine (compileNode_answers h id).bind fun _ s _ hs ↦ ?_
    rw [← hs.compilingAll_eq]
    exact ih hs.sound

theorem compile_answers (h : t.Sound) (id : NodeId) :
    (compile id).Answers t (t.compilingAll (t.subtree id)) :=
  .get_bind (compileNodes_answers h _)

theorem isCompiled_of_compileNode (h : t.Sound) (hid : id < t.nodes.length)
    (hrun : (compileNode id).run t = .ok () s) : (s.node id).isCompiled = true := by
  cases hb : (t.node id).body with
  | rule r =>
    have hr : (t.node id).rule? = some r := by rw [Node.rule?, hb]
    rw [run_compileNode_of_rule hr] at hrun
    rcases compileRule_ends h id with ⟨c, u, -, hrun', -, hex⟩ | ⟨e, u, -, hrun', -⟩
    · rw [hrun'] at hrun
      cases hrun
      exact hex.compiled
    · rw [hrun'] at hrun
      cases hrun
  | group g =>
    rw [run_compileNode_of_group hb] at hrun
    split at hrun
    next hc =>
      cases hrun
      exact hc
    next =>
      split at hrun
      · cases hrun
        exact Table.isCompiled_freeze hid
      · cases hrun

theorem isCompiled_of_compileNodes (h : t.Sound) {ids : List NodeId}
    (hids : ∀ id ∈ ids, id < t.nodes.length) (hrun : (compileNodes ids).run t = .ok () s) :
    ∀ id ∈ ids, (s.node id).isCompiled = true := by
  induction ids generalizing t with
  | nil => exact nofun
  | cons first rest ih =>
    cases hr : (compileNode first).run t with
    | error e u =>
      rw [compileNodes, EStateM.run_bind, hr] at hrun
      cases hrun
    | ok x u =>
      rw [run_compileNodes_cons hr] at hrun
      have hu := ((compileNode_answers h first).run_ok hr).2
      have hs := ((compileNodes_answers hu.sound rest).run_ok hrun).2
      have hrest : ∀ id ∈ rest, id < u.nodes.length := by
        intro id hid
        rw [hu.alike.length]
        exact hids id (List.mem_cons_of_mem _ hid)
      intro id hid
      rcases List.mem_cons.mp hid with rfl | hid
      · exact hs.alike.compiled _ (isCompiled_of_compileNode h (hids _ List.mem_cons_self) hr)
      · exact ih hu.sound hrest hrun id hid

/-- A node that has been compiled is sealed. -/
theorem sealed_of_compile (h : t.Sound) (hid : id < t.nodes.length)
    (hrun : (compile id).run t = .ok () s) : s.Sealed id := by
  have hs := ((compile_answers h id).run_ok hrun).2
  intro other hwithin
  have hmem := (Table.mem_subtree hs.sound.nested).mpr hwithin
  rw [hs.alike.subtree_eq] at hmem
  exact isCompiled_of_compileNodes h (fun _ ↦ Table.lt_of_mem_subtree h.nested hid) hrun other hmem

theorem compileRouter_answers (h : t.Sound) (id : RouterId) :
    (compileRouter id).Answers t (t.compilingAll (t.subtree (t.router id).root)) := by
  have hend : t.compilingAll (t.subtree (t.router id).root) =
      t.compilingAll (t.subtree (t.router id).root) >>= fun _ ↦ .ok () >>= fun _ ↦ .ok () := by
    cases t.compilingAll (t.subtree (t.router id).root) <;> rfl
  rw [hend]
  refine .router_bind ((compile_answers h _).run_bind fun _ s hcompile _ hs ↦ ?_)
  have hsealed : id < s.routers.length → s.Sealed (s.router id).root := by
    intro hid
    have hroot : (s.router id).root = (t.router id).root := by rw [hs.alike.router]
    obtain ⟨label, hsound⟩ := hs.sound
    have hlt := hsound.root_lt hid
    rw [hroot, hs.alike.length] at hlt
    rw [hroot]
    exact sealed_of_compile h hlt hcompile
  have hrun : (modifyRouter id fun r ↦ { r with compiled := true }).run s =
      .ok () (s.setRouter id { s.router id with compiled := true }) := rfl
  refine (Answers.of_run_ok hrun rfl (Table.same_close hs.sound hsealed)).bind fun _ u _ hu ↦ ?_
  exact .get_bind (.log hu.sound _)

end Action

end UrlRouting

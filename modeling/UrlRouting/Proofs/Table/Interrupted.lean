import UrlRouting.Proofs.Table.Touched

/-!
What a failed compilation leaves behind. A rule is marked as compiled before its expression is made,
and the nodes before it in a tree are compiled by then. If its expression is malformed, nothing that
was declared or configured has changed, but these nodes stay compiled (`Table.Stopped`): compiling
the same nodes again goes on after the rule, and compiling the rule again does nothing.
-/

namespace UrlRouting

variable {t s u : Table} {id bad : NodeId} {ids more before after : List NodeId}
  {c : CompiledRule} {complete : Bool} {e : Fault} {text : Text}

theorem CompiledRule.text_of_regex (h : c.regex complete = .error (.badPattern text)) :
    c.text = text := by
  rcases bind_eq_error_iff.mp h with h | ⟨expression, -, h⟩
  · rw [expression, Template.Setting.withMaps] at h
    split at h <;> cases h
  · rw [read] at h
    split at h <;> cases h
    rfl

namespace Table

/-- Some nodes have been compiled, and no router has been closed. -/
structure Marked (t s : Table) (ids : List NodeId) : Prop where
  routers : ∀ id, (s.router id).compiled = (t.router id).compiled
  compiled : ∀ id, (s.node id).isCompiled = true ↔ (t.node id).isCompiled = true ∨ id ∈ ids

namespace Marked

theorem trans (h : t.Marked u ids) (h' : u.Marked s more) : t.Marked s (ids ++ more) where
  routers id := (h'.routers id).trans (h.routers id)
  compiled id := by rw [h'.compiled, h.compiled, List.mem_append, or_assoc]

theorem freeze (h : id < t.nodes.length) : t.Marked (t.freeze id) [id] := by
  refine ⟨fun _ ↦ rfl, fun other ↦ ?_⟩
  by_cases he : id = other
  · subst he
    simp [isCompiled_freeze h]
  · rw [isCompiled_freeze_of_ne he, List.mem_singleton]
    exact ⟨.inl, fun hc ↦ hc.resolve_right (Ne.symm he)⟩

end Marked

/-- The expression of a compiled rule is not asked for again, malformed or not. -/
theorem ruleAt_eq_badPattern (h : t.ruleAt id = .error (.badPattern text)) :
    (t.node id).isCompiled = false ∧ t.namesAreKeys (t.lineage id) = true ∧
      ∃ c, t.inEffect? id = some c ∧
        c.regex (c.isComplete false) = .error (.badPattern text) := by
  rw [ruleAt] at h
  cases hin : t.inEffect? id with
  | none =>
    rw [hin] at h
    cases h
  | some c =>
    rw [hin] at h
    dsimp only at h
    split at h
    next => cases h
    next ho =>
      split at h
      next hk =>
        cases hx : c.regex (c.isComplete false) with
        | ok x =>
          rw [hx] at h
          cases h
        | error e =>
          rw [hx] at h
          cases h
          exact ⟨Bool.eq_false_iff.mpr ho, hk, c, rfl, hx⟩
      next => cases h

/-- Compiling has come to a rule whose expression is malformed, past the nodes before it. -/
structure Stopped (t s : Table) (before : List NodeId) (bad : NodeId) (text : Text) : Prop where
  isOpen : (t.node bad).isCompiled = false
  malformed : ∃ c, t.inEffect? bad = some c ∧ c.text = text ∧
    c.regex (c.isComplete false) = .error (.badPattern text)
  advanced : t.Advanced s
  marked : t.Marked s (before ++ [bad])

end Table

namespace Action

open Table

/-! ### Nodes that are compiled -/

theorem run_compileNode_of_isCompiled (hc : (t.node id).isCompiled = true) :
    (compileNode id).run t = .ok () t := by
  cases hb : (t.node id).body with
  | rule r =>
    have hr : (t.node id).rule? = some r := by rw [Node.rule?, hb]
    rw [run_compileNode_of_rule hr, run_compileRule hr, if_pos hc]
  | group g => rw [run_compileNode_of_group hb, if_pos hc]

/-- Nodes that are compiled are passed over. -/
theorem run_compileNodes_append (h : ∀ id ∈ before, (t.node id).isCompiled = true) :
    (compileNodes (before ++ after)).run t = (compileNodes after).run t := by
  induction before with
  | nil => rfl
  | cons id rest ih =>
    rw [List.cons_append, run_compileNodes_cons
      (run_compileNode_of_isCompiled (h id List.mem_cons_self))]
    exact ih fun other hmem ↦ h other (List.mem_cons_of_mem _ hmem)

theorem subtree_of_rule {r : Rule} (hr : (t.node id).rule? = some r) : t.subtree id = [id] := by
  have hmembers : (t.node id).members = [] := by rw [Node.members, Node.body_of_rule? hr]
  rw [subtree]
  cases t.nodes.length with
  | zero => rfl
  | succ depth => rw [subtreeOf_succ, hmembers, List.flatMap_nil]

theorem run_compile_of_rule {r : Rule} (hr : (t.node id).rule? = some r) :
    (compile id).run t = (compileRule id).run t := by
  have hrun : (compile id).run t = (compileNodes (t.subtree id)).run t := rfl
  rw [hrun, subtree_of_rule hr, compileNodes, EStateM.run_bind, run_compileNode_of_rule hr]
  cases (compileRule id).run t <;> rfl

theorem compileNodes_marks (h : t.Sound) (hids : ∀ id ∈ ids, id < t.nodes.length)
    (hrun : (compileNodes ids).run t = .ok () s) : t.Marked s ids := by
  have htouched : t.Touched (· ∈ ids) (fun _ ↦ False) s := by
    have hends : (compileNodes ids).Ends t (fun _ ↦ t.Touched (· ∈ ids) fun _ ↦ False)
        (t.Touched (· ∈ ids) fun _ ↦ False) :=
      touches_compileNodes (fun _ hmem ↦ hmem) t (.refl t)
    rwa [Ends, hrun] at hends
  have hs := ((compileNodes_answers h ids).run_ok hrun).2
  refine ⟨fun id ↦ htouched.router id not_false, fun id ↦ ⟨fun hc ↦ ?_, ?_⟩⟩
  · by_cases hmem : id ∈ ids
    · exact .inr hmem
    · exact .inl ((htouched.node id hmem).symm.trans hc)
  · rintro (hc | hmem)
    · exact hs.alike.compiled id hc
    · exact isCompiled_of_compileNodes h hids hrun id hmem

/-! ### Malformed expressions -/

/-- An expression that cannot be made is not kept, and nothing is noted in the log. -/
theorem run_expression_of_error (h : t.Sound) (hc : t.Expresses id c)
    (hbad : c.regex complete = .error e) : (expression id c complete).run t = .error e t := by
  obtain ⟨r, hr, -, hregex⟩ := hc.exists_rule h.grounded
  rw [expression, EStateM.run_bind, run_rule hr]
  dsimp only
  cases hl : r.expressions.lookup (complete, c.ignoresCase) with
  | some x =>
    obtain ⟨label, h⟩ := h
    have hx := ((h.fits id).keeps r hr complete c.ignoresCase x hl).2.2
    rw [hregex, hbad] at hx
    cases hx
  | none =>
    rw [CompiledRule.regex] at hbad
    dsimp only
    cases hexpression : c.expression complete with
    | error e' =>
      rw [hexpression] at hbad
      cases hbad
      rfl
    | ok text =>
      rw [hexpression] at hbad
      change c.read text = .error e at hbad
      simp only [ofExcept, EStateM.run_bind, EStateM.run_pure, hbad]
      rfl

/-- The rule of a malformed expression is frozen all the same. -/
theorem compileRule_eq_badPattern (h : t.Sound)
    (hrun : (compileRule id).run t = .error (.badPattern text) s) :
    id < t.nodes.length ∧ (t.node id).isCompiled = false ∧ s = t.freeze id ∧ t.Advanced s ∧
      ∃ c, t.inEffect? id = some c ∧ c.text = text ∧
        c.regex (c.isComplete false) = .error (.badPattern text) := by
  have hat : t.ruleAt id = .error (.badPattern text) := by
    have hmap := ((compileRule_answers h id).run_error hrun).1
    cases hat : t.ruleAt id with
    | ok c =>
      rw [hat] at hmap
      cases hmap
    | error e =>
      rw [hat] at hmap
      cases hmap
      rfl
  obtain ⟨ho, hk, c, hin, hbad⟩ := ruleAt_eq_badPattern hat
  obtain ⟨r, hr, -⟩ := Option.map_eq_some_iff.mp hin
  obtain ⟨hgo, hex⟩ := run_compileRule_of_open h hr ho hk hin
  rw [hgo, run_discard, run_expression_of_error (sound_freeze h ho) hex hbad] at hrun
  cases hrun
  exact ⟨lt_of_rule? hr, ho, rfl, advanced_freeze h ho hk, c, hin, CompiledRule.text_of_regex hbad,
    hbad⟩

theorem compileRule_of_compileNode
    (hrun : (compileNode id).run t = .error (.badPattern text) s) :
    (compileRule id).run t = .error (.badPattern text) s := by
  cases hb : (t.node id).body with
  | rule r =>
    have hr : (t.node id).rule? = some r := by rw [Node.rule?, hb]
    rwa [run_compileNode_of_rule hr] at hrun
  | group g =>
    rw [run_compileNode_of_group hb] at hrun
    split at hrun
    · cases hrun
    · split at hrun <;> cases hrun

theorem exists_split_of_error (hrun : (compileNodes ids).run t = .error e s) :
    ∃ before bad after u, ids = before ++ bad :: after ∧
      (compileNodes before).run t = .ok () u ∧ (compileNode bad).run u = .error e s := by
  induction ids generalizing t with
  | nil => cases hrun
  | cons id rest ih =>
    cases hr : (compileNode id).run t with
    | error e' u =>
      rw [compileNodes, EStateM.run_bind, hr] at hrun
      cases hrun
      exact ⟨[], id, rest, t, rfl, rfl, hr⟩
    | ok x v =>
      rw [run_compileNodes_cons hr] at hrun
      obtain ⟨before, bad, after, u, rfl, hbefore, hbad⟩ := ih hrun
      exact ⟨id :: before, bad, after, u, rfl, (run_compileNodes_cons hr).trans hbefore, hbad⟩

/-- Compiling stops at the rule, and goes on after it when it is tried again. -/
theorem stopped_of_compileNodes (h : t.Sound) (hids : ∀ id ∈ ids, id < t.nodes.length)
    (hrun : (compileNodes ids).run t = .error (.badPattern text) s) :
    ∃ before bad after, ids = before ++ bad :: after ∧ t.Stopped s before bad text ∧
      (compileNodes ids).run s = (compileNodes after).run s := by
  obtain ⟨before, bad, after, u, rfl, hbefore, hbad⟩ := exists_split_of_error hrun
  have hu := ((compileNodes_answers h before).run_ok hbefore).2
  have hmarked := compileNodes_marks h (fun id hid ↦ hids id (List.mem_append_left _ hid)) hbefore
  obtain ⟨hlt, ho, rfl, hadvanced, c, hin, htext, hregex⟩ :=
    compileRule_eq_badPattern hu.sound (compileRule_of_compileNode hbad)
  have hmarks := hmarked.trans (.freeze hlt)
  rw [hu.alike.inEffect?_eq] at hin
  refine ⟨before, bad, after, rfl, ⟨?_, ⟨c, hin, htext, hregex⟩, hu.advanced.trans hadvanced,
    hmarks⟩, ?_⟩
  · -- The rule was open when its turn came, and compiling opens no node.
    rw [Bool.eq_false_iff]
    intro hc
    rw [hu.alike.compiled bad hc] at ho
    cases ho
  · rw [List.append_cons]
    exact run_compileNodes_append fun id hid ↦ (hmarks.compiled id).mpr (.inr hid)

end Action

end UrlRouting

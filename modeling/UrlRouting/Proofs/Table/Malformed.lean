import UrlRouting.Proofs.Table.Interrupted
import UrlRouting.Proofs.Table.Reachable
import UrlRouting.Proofs.Table.Refusal

/-!
Rules whose expression is malformed. Whatever asks for such an expression fails and declares or
configures nothing, but the rule is compiled by then, and so are the nodes that were compiled before
it. It is not compiled anew: what was broken off goes on after the rule when it is tried again
(`stopped_of_badPattern`).
-/

namespace UrlRouting

open Http

variable {α β : Type} {t s u : Table} {id bad : NodeId} {ids : List NodeId} {c : CompiledRule}
  {text : Text}

/-- An expression of a rule is malformed, and the rule is compiled all the same. -/
structure Table.Halted (t s : Table) (bad : NodeId) (text : Text) : Prop where
  advanced : t.Advanced s
  compiled : (s.node bad).isCompiled = true
  malformed : ∃ c complete, t.inEffect? bad = some c ∧ c.text = text ∧
    c.regex complete = .error (.badPattern text)

theorem Table.Halted.of_same (h : u.Halted s bad text) (hu : t.Same u) : t.Halted s bad text where
  advanced := hu.advanced.trans h.advanced
  compiled := h.compiled
  malformed := by
    rw [← hu.alike.inEffect?_eq]
    exact h.malformed

namespace Action

open Table

/-- An action that fails because of a malformed expression leaves the rule compiled. -/
def Halts (a : Action α) (t : Table) : Prop :=
  ∀ text s, a.run t = .error (.badPattern text) s → ∃ bad, t.Halted s bad text

namespace Halts

variable {a : Action α} {f : α → Action β} {x : Except Fault α}

theorem pure (y : α) : Halts (Pure.pure y) t := nofun

theorem throw {fault : Fault} (h : fault.malformed? = none) :
    Halts (α := α) (MonadExcept.throw fault) t := by
  intro text s hrun
  cases hrun
  cases h

theorem log (entry : Text) : (Action.log entry).Halts t := nofun

theorem ofExcept (hx : Confined Fault.IsPlain x) : (Action.ofExcept x).Halts t := by
  cases x with
  | ok y => exact .pure y
  | error fault => exact .throw (hx fault rfl).2

theorem bind (h : a.Answers t x) (ha : a.Halts t) (hf : ∀ y u, t.Same u → (f y).Halts u) :
    (a >>= f).Halts t := by
  intro text s hrun
  rw [EStateM.run_bind] at hrun
  cases hr : a.run t with
  | ok y u =>
    rw [hr] at hrun
    have hu := (h.run_ok hr).2
    obtain ⟨bad, hbad⟩ := hf y u hu text s hrun
    exact ⟨bad, hbad.of_same hu⟩
  | error e u =>
    rw [hr] at hrun
    cases hrun
    exact ha text s hr

theorem get_bind {f : Table → Action β} (h : (f t).Halts t) : (get >>= f).Halts t := h

theorem node_bind {f : Node → Action β} (h : (f (t.node id)).Halts t) :
    (Action.node id >>= f).Halts t := h

theorem router_bind {id : RouterId} {f : Router → Action β} (h : (f (t.router id)).Halts t) :
    (Action.router id >>= f).Halts t := h

theorem effectiveOptions_bind {f : Mapping → Action β} (h : (f (t.effectiveOptions id)).Halts t) :
    (effectiveOptions id >>= f).Halts t := by
  intro text s hrun
  simp only [effectiveOptions, effectiveSlots, EStateM.run_bind, EStateM.run_get] at hrun
  cases hk : t.namesAreKeys (t.lineage id) with
  | true =>
    rw [hk] at hrun
    exact h text s hrun
  | false =>
    rw [hk] at hrun
    cases hrun

end Halts

theorem exists_run_of_malformed? {a : Action α}
    (h : (a.fault? t).bind Fault.malformed? = some text) :
    ∃ s, a.run t = .error (.badPattern text) s := by
  obtain ⟨fault, hfault, htext⟩ := Option.bind_eq_some_iff.mp h
  rw [Fault.eq_badPattern_of_malformed? htext] at hfault
  exact exists_run_of_fault? hfault

/-! ### Rules -/

theorem halts_compileRule (h : t.Sound) (id : NodeId) : (compileRule id).Halts t := by
  intro text s hrun
  obtain ⟨hlt, -, rfl, hadvanced, c, hin, htext, hregex⟩ := compileRule_eq_badPattern h hrun
  exact ⟨id, hadvanced, isCompiled_freeze hlt, c, _, hin, htext, hregex⟩

theorem halts_expression (h : t.Sound) (hc : t.Expresses id c) (complete : Bool) :
    (expression id c complete).Halts t := by
  intro text s hrun
  have hbad := ((expression_answers h hc complete).run_error hrun).1
  rw [run_expression_of_error h hc hbad] at hrun
  cases hrun
  obtain ⟨c', hin, -, hregex⟩ := hc.inEffect
  have hbad' := (hregex complete).trans hbad
  exact ⟨id, .refl t, hc.compiled, c', complete, hin, CompiledRule.text_of_regex hbad', hbad'⟩

theorem halts_capture (h : t.Sound) (hc : t.Expresses id c) (url : Text) (complete : Bool) :
    (capture id c url complete).Halts t := by
  rw [capture]
  cases c.decided? url complete with
  | some outcome => exact .pure outcome
  | none =>
    exact .bind (expression_answers h hc complete) (halts_expression h hc complete)
      fun x _ _ ↦ .pure _

theorem Halts.compiled_bind {f : CompiledRule → Action α} (h : t.Sound)
    (hf : ∀ c s, t.Same s → s.Expresses id c → (f c).Halts s) :
    Halts (do
      compileRule id
      let c ← compiledRule id
      f c) t := by
  intro text s hrun
  rcases compileRule_ends h id with ⟨c, u, hat, hcompile, hu, hex⟩ | ⟨e, u, -, hcompile, -⟩
  · rw [run_compiled_bind hat hcompile hu hex] at hrun
    obtain ⟨bad, hbad⟩ := hf c u hu hex text s hrun
    exact ⟨bad, hbad.of_same hu⟩
  · rw [EStateM.run_bind, hcompile] at hrun
    cases hrun
    exact halts_compileRule h id text s hcompile

theorem halts_matchPath (h : t.Sound) (id : NodeId) (url : Text) (asked : Bool) :
    (matchPath id url asked).Halts t :=
  .compiled_bind h fun _ _ hs hex ↦ halts_capture hs.sound hex _ _

theorem halts_checkRule (h : t.Sound) (id : NodeId) (request : Request) (url : Text)
    (asked anyDomain : Bool) : (checkRule id request url asked anyDomain).Halts t := by
  refine .compiled_bind h fun c s hs hex ↦ ?_
  refine .bind (.ofExcept hs.sound _) (.ofExcept (Check.plain_firstFailure _ _ _ _))
    fun failure u hu ↦ ?_
  cases failure with
  | some failure => exact .bind (.log hu.sound _) (.log _) fun _ _ _ ↦ .pure none
  | none =>
    have hexpresses := (hex.on anyDomain).alike hu.alike
    refine .bind (capture_answers hu.sound hexpresses _ _) (halts_capture hu.sound hexpresses _ _)
      fun captures v hv ↦ ?_
    cases captures with
    | none => exact .pure none
    | some captures =>
      exact .bind (.ofExcept hv.sound _) (.ofExcept (CompiledRule.plain_decision _ _ _ _ _))
        fun d _ _ ↦ .pure _

/-! ### Walks -/

theorem halts_firstDecision {decide : NodeId → Action (Option Dispatch)} (h : t.Sound)
    (hanswers : ∀ {s}, s.Sound → ∀ id, ∃ x, (decide id).Answers s x)
    (hhalts : ∀ {s}, s.Sound → ∀ id, (decide id).Halts s) (ids : List NodeId) :
    (firstDecision decide ids).Halts t := by
  induction ids generalizing t with
  | nil => exact .pure none
  | cons id rest ih =>
    obtain ⟨x, hx⟩ := hanswers h id
    refine .bind hx (hhalts h id) fun d s hs ↦ ?_
    cases d with
    | some d => exact .pure _
    | none => exact ih hs.sound

theorem halts_checkWithin (h : t.Sound) (request : Request) (url : Text) (asked : Bool)
    (depth : Nat) (id : NodeId) : (checkWithin request url asked depth id).Halts t := by
  induction depth generalizing t id with
  | zero => exact .pure none
  | succ depth ih =>
    rw [checkWithin]
    refine .node_bind ?_
    cases hb : (t.node id).body with
    | rule r => exact halts_checkRule h id request url asked false
    | group g =>
      refine halts_firstDecision h (fun hs id ↦ ?_) (fun hs id ↦ ih hs id) g.members
      -- Down to no depth at all nobody is asked, which `checkWithin_answers` leaves out.
      cases depth with
      | zero => exact ⟨_, .pure hs none⟩
      | succ depth => exact ⟨_, checkWithin_answers hs request url asked depth id⟩

theorem halts_firstAnywhere (h : t.Sound) (request : Request) (url : Text) (ids : List NodeId) :
    (firstAnywhere request url ids).Halts t := by
  induction ids generalizing t with
  | nil => exact .pure none
  | cons id rest ih =>
    rw [firstAnywhere]
    refine .node_bind ?_
    cases hr : (t.node id).rule? with
    | none => exact .throw rfl
    | some r =>
      refine .bind (checkRule_answers h id request url false true)
        (halts_checkRule h id request url false true) fun d s hs ↦ ?_
      cases d with
      | some d => exact .bind (.log hs.sound _) (.log _) fun _ _ _ ↦ .pure _
      | none => exact ih hs.sound

theorem halts_allowedMethods (h : t.Sound) (url : Text) (ids : List NodeId) :
    (allowedMethods url ids).Halts t := by
  induction ids generalizing t with
  | nil => exact .pure _
  | cons id rest ih =>
    refine .bind (matchPath_answers h id url false) (halts_matchPath h id url false)
      fun captures s hs ↦ ?_
    cases captures with
    | none => exact ih hs.sound
    | some captures =>
      refine .effectiveOptions_bind ?_
      cases Check.listedMethods? ((s.effectiveOptions id).named "method") with
      | none => exact .pure none
      | some methods =>
        refine .bind (allowedMethods_answers hs.sound url rest) (ih hs.sound) fun more _ _ ↦ ?_
        cases more with
        | none => exact .pure none
        | some more => exact .pure _

theorem halts_compileNode (h : t.Sound) (id : NodeId) : (compileNode id).Halts t :=
  fun text s hrun ↦ halts_compileRule h id text s (compileRule_of_compileNode hrun)

theorem halts_compileNodes (h : t.Sound) (ids : List NodeId) : (compileNodes ids).Halts t := by
  induction ids generalizing t with
  | nil => exact .pure ()
  | cons id rest ih =>
    exact .bind (compileNode_answers h id) (halts_compileNode h id) fun _ _ hs ↦ ih hs.sound

theorem halts_compile (h : t.Sound) (id : NodeId) : (compile id).Halts t :=
  .get_bind (halts_compileNodes h _)

theorem halts_compileRouter (h : t.Sound) (id : RouterId) : (compileRouter id).Halts t := by
  refine .router_bind (.bind (compile_answers h _) (halts_compile h _) fun _ s _ ↦ ?_)
  rintro text u hrun
  cases hrun

theorem halts_routed (h : t.Sound) (r : Router) (request : Request) (url : Text) :
    Halts (do
      match ← check r.root request url false with
      | some d => return d
      | none =>
        match ← firstAnywhere request url r.everywhere with
        | some d => return d
        | none =>
          let allowed ← allowedMethods url ((← get).routes id)
          throw (.refusal request (allowed.getD []))) t := by
  refine .bind (check_answers h _ _ _ _) (.get_bind (halts_checkWithin h _ _ _ _ _)) fun d s hs ↦ ?_
  cases d with
  | some d => exact .pure d
  | none =>
    refine .bind (firstAnywhere_answers hs.sound _ _ _) (halts_firstAnywhere hs.sound _ _ _)
      fun d u hu ↦ ?_
    cases d with
    | some d => exact .pure d
    | none =>
      refine .get_bind (.bind (allowedMethods_answers hu.sound _ _)
        (halts_allowedMethods hu.sound _ _) fun allowed v _ ↦ .throw ?_)
      rw [Fault.refusal]
      split <;> rfl

theorem halts_route (h : t.Sound) (id : RouterId) (request : Request) :
    (route id request).Halts t := by
  refine .router_bind ?_
  cases hc : (t.router id).compiled with
  | true => exact .router_bind (halts_routed h _ _ _)
  | false =>
    exact .bind (compileRouter_answers h id) (halts_compileRouter h id) fun _ s hs ↦
      .router_bind (halts_routed hs.sound _ _ _)

end Action

/-! ### Operations -/

namespace Operation

open UrlRouting.Action

/-- The operations that compile nodes. -/
def compiles : Operation → Bool
  | .compile _ | .compileRouter _ | .check .. | .matchPath .. | .route .. => true
  | _ => false

/-- The nodes that an operation asks or compiles. -/
def Asks (op : Operation) (t : Table) (id : NodeId) : Prop :=
  match op with
  | .compile node | .check node _ _ _ _ | .matchPath node _ _ => t.Within node id
  | .compileRouter router => t.Within (t.router router).root id
  | .route router _ => t.Within (t.router router).root id ∨ id ∈ (t.router router).everywhere
  | _ => False

/-- The nodes that an operation compiles before all else. -/
def compiledFirst (op : Operation) (t : Table) : List NodeId :=
  match op with
  | .compile node => t.subtree node
  | .compileRouter router => t.subtree (t.router router).root
  | .check node _ _ _ _ | .matchPath node _ _ => if t.isRule node then [node] else []
  | .route router _ =>
    if (t.router router).compiled then [] else t.subtree (t.router router).root
  | _ => []

theorem halts {op : Operation} (h : t.Sound) (hop : op.compiles = true) : op.run.Halts t := by
  cases op with
  | compile node => exact .bind (compile_answers h node) (halts_compile h node) fun _ _ _ ↦ .pure _
  | compileRouter router =>
    exact .bind (compileRouter_answers h router) (halts_compileRouter h router) fun _ _ _ ↦ .pure _
  | check node request url complete anyDomain =>
    refine .get_bind ?_
    split
    · exact .bind (checkRule_answers h _ _ _ _ _) (halts_checkRule h _ _ _ _ _) fun _ _ _ ↦ .pure _
    · exact .bind (check_answers h _ _ _ _) (.get_bind (halts_checkWithin h _ _ _ _ _))
        fun _ _ _ ↦ .pure _
  | matchPath rule url complete =>
    exact .bind (matchPath_answers h _ _ _) (halts_matchPath h _ _ _) fun _ _ _ ↦ .pure _
  | route router request =>
    exact .bind (route_answers h _ _) (halts_route h _ _) fun _ _ _ ↦ .pure _
  | _ => cases hop

theorem touches {op : Operation} (hop : op.compiles = true) :
    Maintains (t.Touched (op.Asks t) fun _ ↦ True) op.run := by
  cases op with
  | compile node => exact (touches_compile fun _ hother ↦ hother).bind fun _ ↦ .pure _
  | compileRouter router =>
    exact (touches_compileRouter trivial fun _ hother ↦ hother).bind fun _ ↦ .pure _
  | check node request url complete anyDomain =>
    refine .get_bind fun s ↦ ?_
    split
    · exact (touches_checkRule .self request url complete anyDomain).bind fun _ ↦ .pure _
    · exact (touches_check request url complete fun _ hother ↦ hother).bind fun _ ↦ .pure _
  | matchPath rule url complete =>
    exact (touches_matchPath .self url complete).bind fun _ ↦ .pure _
  | route router request =>
    exact (touches_route request trivial (fun _ ↦ .inl) fun _ ↦ .inr).bind fun _ ↦ .pure _
  | _ => cases hop

theorem compiledFirst_eq (op : Operation) (h : t.Alike s)
    (hrouters : ∀ id, (s.router id).compiled = (t.router id).compiled) :
    op.compiledFirst s = op.compiledFirst t := by
  have hrouter : s.router = t.router := by
    funext id
    rw [h.router, hrouters]
  cases op <;> simp only [compiledFirst, h.subtree_eq, h.isRule_eq, hrouter]

theorem lt_of_mem_compiledFirst {op : Operation} (h : t.Sound) (hop : op.isFor t = true)
    (hid : id ∈ op.compiledFirst t) : id < t.nodes.length := by
  have hroot : ∀ {router}, t.hasRouter router = true → id ∈ t.subtree (t.router router).root →
      id < t.nodes.length := by
    intro router hrouter
    have hnested : t.Nested := h.nested
    obtain ⟨label, hsound⟩ := h
    exact Table.lt_of_mem_subtree hnested (hsound.root_lt (of_decide_eq_true hrouter))
  have hrule : ∀ {node}, t.hasNode node = true → id ∈ (if t.isRule node then [node] else []) →
      id < t.nodes.length := by
    intro node hnode hid
    split at hid
    · obtain rfl := List.mem_singleton.mp hid
      exact of_decide_eq_true hnode
    · cases hid
  cases op with
  | compile node => exact Table.lt_of_mem_subtree h.nested (of_decide_eq_true hop) hid
  | compileRouter router => exact hroot hop hid
  | check node request url complete anyDomain => exact hrule hop hid
  | matchPath node url complete => exact hrule hop hid
  | route router request =>
    rw [compiledFirst] at hid
    split at hid
    · cases hid
    · exact hroot hop hid
  | _ => cases hid

theorem run_compileRule_of_compileNodes {e : Fault} (hrule : t.isRule id = true)
    (h : (compileNodes [id]).run t = .error e s) : (compileRule id).run t = .error e s := by
  obtain ⟨r, hr⟩ := Option.isSome_iff_exists.mp hrule
  rw [compileNodes, EStateM.run_bind, run_compileNode_of_rule hr] at h
  cases hc : (compileRule id).run t with
  | ok x u =>
    rw [hc] at h
    cases h
  | error e u =>
    rw [hc] at h
    cases h
    rfl

/-- An operation fails where the nodes that it compiles first cannot be compiled. -/
theorem run_of_compiledFirst {op : Operation} {e : Fault}
    (h : (compileNodes (op.compiledFirst t)).run t = .error e s) : op.run.run t = .error e s := by
  have hrouter : ∀ {router}, (compileNodes (t.subtree (t.router router).root)).run t = .error e s →
      (Action.compileRouter router).run t = .error e s := by
    intro router h
    have hcompile : (Action.compile (t.router router).root).run t = .error e s := h
    simp only [Action.compileRouter, Action.router, EStateM.run_bind, EStateM.run_get,
      EStateM.run_pure, hcompile]
  cases op with
  | compile node =>
    have hcompile : (Action.compile node).run t = .error e s := h
    rw [run, EStateM.run_bind, hcompile]
  | compileRouter router => rw [run, EStateM.run_bind, hrouter h]
  | check node request url complete anyDomain =>
    rw [compiledFirst] at h
    split at h
    next hrule =>
      have hcompile := run_compileRule_of_compileNodes hrule h
      simp only [run, Action.checkRule, EStateM.run_bind, EStateM.run_get, hrule, ↓reduceIte,
        hcompile]
    next => cases h
  | matchPath node url complete =>
    rw [compiledFirst] at h
    split at h
    next hrule =>
      have hcompile := run_compileRule_of_compileNodes hrule h
      simp only [run, Action.matchPath, EStateM.run_bind, hcompile]
    next => cases h
  | route router request =>
    rw [compiledFirst] at h
    split at h
    next => cases h
    next ho =>
      have hcompile := hrouter h
      simp only [run, Action.route, Action.router, EStateM.run_bind, EStateM.run_get,
        EStateM.run_pure, ho, Bool.false_eq_true, ↓reduceIte, hcompile]
  | _ => cases h

end Operation

/-! ### Trying again -/

theorem Action.outcome_compile_eq_ok (h : t.Sound) (hrule : t.isRule id = true) :
    (compile id).outcome t = .ok () ↔ (t.node id).isCompiled = true ∨
      t.namesAreKeys (t.lineage id) = true ∧
        ∃ c x, t.inEffect? id = some c ∧ c.regex (c.isComplete false) = .ok x := by
  obtain ⟨r, hr⟩ := Option.isSome_iff_exists.mp hrule
  obtain ⟨c, hin⟩ : ∃ c, t.inEffect? id = some c := by simp [Table.inEffect?, hr]
  have hends : (compile id).outcome t = .ok () ↔ ∃ c, t.ruleAt id = .ok c := by
    rw [(compile_answers h id).outcome_eq, subtree_of_rule hr, Table.compilingAll,
      Table.compiling, if_pos hrule]
    cases t.ruleAt id with
    | error e =>
      constructor
      · intro h
        cases h
      · rintro ⟨c, hc⟩
        cases hc
    | ok c => exact ⟨fun _ ↦ ⟨c, rfl⟩, fun _ ↦ rfl⟩
  rw [hends, Table.ruleAt, hin]
  cases (t.node id).isCompiled with
  | true => simp
  | false =>
    cases t.namesAreKeys (t.lineage id) with
    | false => simp
    | true =>
      cases hx : c.regex (c.isComplete false) with
      | error e => simp [hx, Except.map]
      | ok x => simp [hx, Except.map]

/-- A rule is compiled without a fault if it is compiled already, or if its expression is well
formed. If it is not, an operation stops at the rule: nothing is declared or configured, but the
rule is compiled like the nodes before it, and the operation goes on after it when it is tried
again. Whatever operation fails because of a malformed expression compiles no node that it does not
ask, but the rule is compiled, and compiling it does nothing. -/
theorem stopped_of_badPattern (ht : t.Reachable) :
    (∀ id, t.isRule id = true → ((Action.compile id).outcome t = .ok () ↔
      (t.node id).isCompiled = true ∨ t.namesAreKeys (t.lineage id) = true ∧
        ∃ c x, t.inEffect? id = some c ∧ c.regex (c.isComplete false) = .ok x)) ∧
    (∀ (op : Operation) text s, op.isFor t = true →
      (Action.compileNodes (op.compiledFirst t)).run t = .error (.badPattern text) s →
        op.run.run t = .error (.badPattern text) s ∧
        ∃ before bad after, op.compiledFirst t = before ++ bad :: after ∧
          t.Stopped s before bad text ∧
          (Action.compileNodes (op.compiledFirst s)).run s = (Action.compileNodes after).run s) ∧
    ∀ (op : Operation) text s, op.compiles = true → op.run.run t = .error (.badPattern text) s →
      (∀ other, ¬op.Asks t other → (s.node other).isCompiled = (t.node other).isCompiled) ∧
      ∃ bad, t.Halted s bad text ∧ (Action.compile bad).run s = .ok () s := by
  refine ⟨fun id hrule ↦ Action.outcome_compile_eq_ok ht.sound hrule, fun op text s hop hrun ↦ ?_,
    fun op text s hop hrun ↦ ?_⟩
  · obtain ⟨before, bad, after, hsplit, hstopped, hagain⟩ := Action.stopped_of_compileNodes ht.sound
      (fun id ↦ Operation.lt_of_mem_compiledFirst ht.sound hop) hrun
    refine ⟨Operation.run_of_compiledFirst hrun, before, bad, after, hsplit, hstopped, ?_⟩
    rwa [op.compiledFirst_eq hstopped.advanced.toAlike hstopped.marked.routers]
  · have htouched := Operation.touches hop t (.refl t)
    rw [Action.Ends, hrun] at htouched
    obtain ⟨bad, hbad⟩ := Operation.halts ht.sound hop text s hrun
    obtain ⟨c, -, hin, -⟩ := hbad.malformed
    rw [← hbad.advanced.inEffect?_eq] at hin
    cases hr : (s.node bad).rule? with
    | none => simp [Table.inEffect?, hr] at hin
    | some r =>
      refine ⟨htouched.node, bad, hbad, ?_⟩
      rw [Action.run_compile_of_rule hr, Action.run_compileRule hr, if_pos hbad.compiled]

/-- A router with a rule whose pattern is no expression, between two other rules. -/
def Table.jammedRouter : Table := empty.afterAll
  [.addRouter [], .routeOn 0 { rule := "a", target := "x" },
    .routeOn 0 { rule := "b/<id>", target := "y", patterns := [("id", "(")] },
    .routeOn 0 { rule := "c", target := "z" }]

theorem reachable_jammedRouter : Table.jammedRouter.Reachable :=
  ⟨_, by decide, rfl⟩

/-- The router cannot be compiled because of its second rule, although the first one can be. -/
theorem stopped_jammedRouter : ∃ s before bad after, Table.jammedRouter.Reachable ∧
    (∃ c x, Table.jammedRouter.inEffect? 1 = some c ∧ c.regex (c.isComplete false) = .ok x) ∧
    (Operation.compileRouter 0).run.run Table.jammedRouter = .error (.badPattern "b/<id>") s ∧
    [0, 1, 2, 3] = before ++ bad :: after ∧ Table.jammedRouter.Stopped s before bad "b/<id>" ∧
    (Action.compileNodes ((Operation.compileRouter 0).compiledFirst s)).run s =
      (Action.compileNodes after).run s ∧
    ∃ rule, Table.jammedRouter.Halted s rule "b/<id>" ∧ (Action.compile rule).run s = .ok () s := by
  obtain ⟨hrule, hfirst, hany⟩ := stopped_of_badPattern reachable_jammedRouter
  have hnodes : (Operation.compileRouter 0).compiledFirst Table.jammedRouter = [0, 1, 2, 3] := by
    decide
  have hmade : (Action.compile 1).answer? Table.jammedRouter = some () := by decide
  have hopen : (Table.jammedRouter.node 1).isCompiled ≠ true := by decide
  have hexpression := (hrule 1 (by decide)).mp (Action.outcome_of_answer? hmade)
  obtain ⟨s, hs⟩ : ∃ s, (Action.compileNodes ((Operation.compileRouter 0).compiledFirst
      Table.jammedRouter)).run Table.jammedRouter = .error (.badPattern "b/<id>") s :=
    Action.exists_run_of_malformed? (by decide)
  obtain ⟨hrun, before, bad, after, hsplit, hstopped, hagain⟩ := hfirst _ _ _ (by decide) hs
  exact ⟨s, before, bad, after, reachable_jammedRouter, (hexpression.resolve_left hopen).2, hrun,
    hnodes ▸ hsplit, hstopped, hagain, (hany _ _ _ rfl hrun).2⟩

/-- The rule is compiled after the fault, so that compiling it again does nothing. -/
theorem not_forall_unchanged_of_badPattern : ¬∀ (t : Table) (id : NodeId) (text : Text) (s : Table),
    t.Reachable → (Action.compile id).run t = .error (.badPattern text) s →
    (∀ other, (s.node other).isCompiled = (t.node other).isCompiled) ∧
    (Action.compile id).fault? s = some (.badPattern text) := by
  intro h
  obtain ⟨s, hs⟩ : ∃ s, (Action.compile 2).run Table.jammedRouter =
      .error (.badPattern "b/<id>") s := Action.exists_run_of_malformed? (by decide)
  obtain ⟨-, hagain⟩ := h _ _ _ _ reachable_jammedRouter hs
  have hafter : (match (Action.compile 2).run Table.jammedRouter with
      | .ok _ _ => false
      | .error _ s => ((Action.compile 2).fault? s).isNone) = true := by decide
  rw [hs] at hafter
  dsimp only at hafter
  rw [hagain] at hafter
  cases hafter

end UrlRouting

import UrlRouting.Proofs.Table.Compiling

/-!
Routing as a function of what is in effect. What a rule captures, what it decides and what a router
answers are determined by the table at the start (`route_answers`), although rules are compiled and
expressions are kept on the way.
-/

namespace UrlRouting

open Http

variable {t s : Table} {id : NodeId} {c : CompiledRule} {url : Text} {asked : Bool}
  {request : Request}

namespace CompiledRule

theorem named_onAnyDomain {name : Text} (h : name ≠ "domain") (c : CompiledRule) :
    Mapping.named c.onAnyDomain.options name = Mapping.named c.options name :=
  Mapping.named_erase_of_ne h c.options

theorem dropsEnd_onAnyDomain (c : CompiledRule) : c.onAnyDomain.dropsEnd = c.dropsEnd := by
  rw [dropsEnd, dropsEnd, named_onAnyDomain (by decide)]
  rfl

theorem ignoresCase_onAnyDomain (c : CompiledRule) :
    c.onAnyDomain.ignoresCase = c.ignoresCase := by
  rw [ignoresCase, ignoresCase, named_onAnyDomain (by decide)]

theorem regex_onAnyDomain (c : CompiledRule) (complete : Bool) :
    c.onAnyDomain.regex complete = c.regex complete := by
  have htext : c.onAnyDomain.text = c.text := rfl
  exact regex_congr htext rfl rfl rfl c.dropsEnd_onAnyDomain c.ignoresCase_onAnyDomain complete

/-- The rule as it is tried: on its domain, or on any. -/
def on (c : CompiledRule) (anyDomain : Bool) : CompiledRule :=
  if anyDomain then c.onAnyDomain else c

end CompiledRule

namespace Table

theorem Expresses.on (h : t.Expresses id c) (anyDomain : Bool) :
    t.Expresses id (c.on anyDomain) := by
  cases anyDomain with
  | false => exact h
  | true =>
    obtain ⟨c', hin, hcase, hregex⟩ := h.inEffect
    exact ⟨h.compiled, c', hin, hcase.trans c.ignoresCase_onAnyDomain.symm,
      fun complete ↦ (hregex complete).trans (c.regex_onAnyDomain complete).symm⟩

/-- What the path of a rule captures from a URL, options apart. -/
def capturesAt (t : Table) (id : NodeId) (url : Text) (asked : Bool) :
    Except Fault (Option Captures) :=
  t.ruleAt id >>= fun c ↦ c.capture (c.trimmed [] url) (c.isComplete asked)

def decisionAt (t : Table) (id : NodeId) (request : Request) (url : Text)
    (asked anyDomain : Bool) : Except Fault (Option Dispatch) :=
  t.ruleAt id >>= fun c ↦ (c.on anyDomain).decide request url asked

/-- The first decision that is made on some nodes, one after the other. -/
def firstOf (decide : NodeId → Except Fault (Option Dispatch)) :
    List NodeId → Except Fault (Option Dispatch)
  | [] => .ok none
  | id :: rest =>
    decide id >>= fun
      | some d => .ok (some d)
      | none => firstOf decide rest

theorem firstOf_append (decide : NodeId → Except Fault (Option Dispatch)) (ids more : List NodeId) :
    firstOf decide (ids ++ more) = firstOf decide ids >>= fun
      | some d => .ok (some d)
      | none => firstOf decide more := by
  induction ids with
  | nil => rfl
  | cons id rest ih =>
    rw [List.cons_append, firstOf, firstOf]
    rcases decide id with fault | _ | d
    · rfl
    · exact ih
    · rfl

theorem firstOf_none (ids : List NodeId) : firstOf (fun _ ↦ .ok none) ids = .ok none := by
  induction ids with
  | nil => rfl
  | cons id rest ih => exact ih

/-- Going through groups of nodes one after the other is going through all of the nodes. -/
theorem firstOf_flatMap (decide : NodeId → Except Fault (Option Dispatch))
    (f : NodeId → List NodeId) (ids : List NodeId) :
    firstOf decide (ids.flatMap f) = firstOf (fun id ↦ firstOf decide (f id)) ids := by
  induction ids with
  | nil => rfl
  | cons id rest ih =>
    rw [List.flatMap_cons, firstOf_append, firstOf, ih]

def firstDecisionOf (t : Table) (request : Request) (url : Text) (asked : Bool)
    (ids : List NodeId) : Except Fault (Option Dispatch) :=
  firstOf (fun id ↦ t.decisionAt id request url asked false) ids

/-- What a rule decides on any domain, which a group does not. -/
def anywhereAt (t : Table) (id : NodeId) (request : Request) (url : Text) :
    Except Fault (Option Dispatch) :=
  if t.isRule id then t.decisionAt id request url false true else .error .wrongType

def firstAnywhereOf (t : Table) (request : Request) (url : Text) (ids : List NodeId) :
    Except Fault (Option Dispatch) :=
  firstOf (fun id ↦ t.anywhereAt id request url) ids

/-- The methods that the rules whose path matches a URL allow; `none` as soon as one allows all. -/
def allowedOf (t : Table) (url : Text) : List NodeId → Except Fault (Option (List Text))
  | [] => .ok (some [])
  | id :: rest =>
    t.capturesAt id url false >>= fun
      | none => t.allowedOf url rest
      | some _ =>
        match Check.listedMethods? (Mapping.named (t.effectiveOptions id) "method") with
        | none => .ok none
        | some methods => t.allowedOf url rest >>= fun more ↦ .ok (more.map (methods ++ ·))

/-- What a router whose rules are compiled answers to a complete request. -/
def answering (t : Table) (id : RouterId) (request : Request) (url : Text) :
    Except Fault Dispatch :=
  t.firstDecisionOf request url false (t.routes id) >>= fun
    | some d => .ok d
    | none =>
      t.firstAnywhereOf request url (t.router id).everywhere >>= fun
        | some d => .ok d
        | none => t.allowedOf url (t.routes id) >>= fun allowed ↦
          .error (.refusal request (allowed.getD []))

def completed (t : Table) (id : RouterId) (request : Request) : Request :=
  (t.router id).config.complete request

def urlOf (t : Table) (id : RouterId) (request : Request) : Text :=
  (t.router id).config.urlOf request

def routed (t : Table) (id : RouterId) (request : Request) : Except Fault Dispatch :=
  t.answering id (t.completed id request) (t.urlOf id request)

theorem completed_eq (t : Table) (id : RouterId) (request : Request) :
    ∃ root, t.completed id request = { request with rootDomain := root } := by
  rw [completed, Config.complete]
  split
  · split
    · exact ⟨request.rootDomain, rfl⟩
    · exact ⟨_, rfl⟩
  · exact ⟨request.rootDomain, rfl⟩

theorem urlOf_completed (t : Table) (id : RouterId) (request : Request) :
    t.urlOf id (t.completed id request) = t.urlOf id request := by
  obtain ⟨root, h⟩ := t.completed_eq id request
  rw [h]
  rfl

/-- Whether a router can be compiled, if it is not. -/
def readying (t : Table) (id : RouterId) : Except Fault Unit :=
  if (t.router id).compiled then .ok () else t.compilingAll (t.subtree (t.router id).root)

/-- What a router answers. -/
def routing (t : Table) (id : RouterId) (request : Request) : Except Fault Dispatch :=
  t.readying id >>= fun _ ↦ t.routed id request

namespace Same

theorem capturesAt_eq (h : t.Same s) (id : NodeId) (url : Text) (asked : Bool) :
    s.capturesAt id url asked = t.capturesAt id url asked := by
  rw [capturesAt, capturesAt, h.ruleAt]

theorem decisionAt_eq (h : t.Same s) (id : NodeId) (request : Request) (url : Text)
    (asked anyDomain : Bool) :
    s.decisionAt id request url asked anyDomain = t.decisionAt id request url asked anyDomain := by
  rw [decisionAt, decisionAt, h.ruleAt]

theorem firstDecisionOf_eq (h : t.Same s) (request : Request) (url : Text) (asked : Bool)
    (ids : List NodeId) :
    s.firstDecisionOf request url asked ids = t.firstDecisionOf request url asked ids := by
  simp only [firstDecisionOf, h.decisionAt_eq]

theorem anywhereAt_eq (h : t.Same s) (id : NodeId) (request : Request) (url : Text) :
    s.anywhereAt id request url = t.anywhereAt id request url := by
  rw [anywhereAt, anywhereAt, h.alike.isRule_eq, h.decisionAt_eq]

theorem firstAnywhereOf_eq (h : t.Same s) (request : Request) (url : Text) (ids : List NodeId) :
    s.firstAnywhereOf request url ids = t.firstAnywhereOf request url ids := by
  simp only [firstAnywhereOf, h.anywhereAt_eq]

theorem allowedOf_eq (h : t.Same s) (url : Text) (ids : List NodeId) :
    s.allowedOf url ids = t.allowedOf url ids := by
  induction ids with
  | nil => rfl
  | cons id rest ih =>
    rw [allowedOf, allowedOf, h.capturesAt_eq, h.alike.effectiveOptions, ih]

theorem routed_eq (h : t.Same s) (id : RouterId) (request : Request) :
    s.routed id request = t.routed id request := by
  have hrouter := h.alike.router id
  have hconfig := h.alike.config id
  have heverywhere : (s.router id).everywhere = (t.router id).everywhere := by rw [hrouter]
  simp only [routed, answering, completed, urlOf, hconfig, heverywhere, h.firstDecisionOf_eq,
    h.firstAnywhereOf_eq, h.allowedOf_eq, h.alike.routes_eq]

end Same

end Table

namespace Action

theorem capture_answers (h : t.Sound) (hc : t.Expresses id c) (url : Text) (complete : Bool) :
    (capture id c url complete).Answers t (c.capture url complete) := by
  rw [capture, CompiledRule.capture]
  cases c.decided? url complete with
  | some outcome => exact .pure h outcome
  | none =>
    have hmap : (c.regex complete).map (fun r ↦ c.captured r url) =
        c.regex complete >>= fun r ↦ .ok (c.captured r url) := by
      cases c.regex complete <;> rfl
    simp only [hmap]
    exact (expression_answers h hc complete).bind fun x s _ hs ↦ .pure hs.sound _

theorem matchPath_answers (h : t.Sound) (id : NodeId) (url : Text) (asked : Bool) :
    (matchPath id url asked).Answers t (t.capturesAt id url asked) :=
  .compiled_bind h fun _ _ _ hs hex ↦ capture_answers hs.sound hex _ _

theorem checkRule_answers (h : t.Sound) (id : NodeId) (request : Request) (url : Text)
    (asked anyDomain : Bool) : (checkRule id request url asked anyDomain).Answers t
      (t.decisionAt id request url asked anyDomain) := by
  refine .compiled_bind h fun c s _ hs hex ↦ ?_
  refine (Answers.ofExcept hs.sound _).bind fun failure u _ hu ↦ ?_
  cases failure with
  | some failure =>
    exact (Answers.log hu.sound _).bind fun _ v _ hv ↦ .pure hv.sound none
  | none =>
    have hcapture := capture_answers hu.sound ((hex.on anyDomain).alike hu.alike)
      ((c.on anyDomain).trimmed request.ext url) ((c.on anyDomain).isComplete asked)
    refine hcapture.bind fun captures v _ hv ↦ ?_
    cases captures with
    | none => exact .pure hv.sound none
    | some captures =>
      exact (Answers.ofExcept hv.sound _).bind fun d w _ hw ↦ .pure hw.sound (some d)

/-- Where each node answers what the table determines, so does the first decision on some. -/
theorem firstDecision_answers {decide : NodeId → Action (Option Dispatch)}
    {x : Table → NodeId → Except Fault (Option Dispatch)} (h : t.Sound)
    (hdecide : ∀ {s}, s.Sound → ∀ id, (decide id).Answers s (x s id))
    (hsame : ∀ {s u}, s.Same u → x u = x s) (ids : List NodeId) :
    (firstDecision decide ids).Answers t (Table.firstOf (x t) ids) := by
  induction ids generalizing t with
  | nil => exact .pure h none
  | cons id rest ih =>
    refine (hdecide h id).bind fun d s _ hs ↦ ?_
    cases d with
    | some d => exact .pure hs.sound (some d)
    | none =>
      have hrest := ih hs.sound
      rwa [hsame hs] at hrest

/-- What a rule decides is the first decision of the rule alone. -/
theorem Answers.single {a : Action (Option Dispatch)} {r : Rule}
    (h : a.Answers t (t.decisionAt id request url asked false)) (hb : (t.node id).body = .rule r) :
    a.Answers t (t.firstDecisionOf request url asked ([id].filter t.isRule)) := by
  have hrule : t.isRule id = true := by rw [Table.isRule, Node.rule?, hb]; rfl
  rw [List.filter_cons_of_pos hrule, List.filter_nil, Table.firstDecisionOf, Table.firstOf]
  rcases hd : t.decisionAt id request url asked false with fault | _ | d
  all_goals rwa [hd] at h

/-- A walk through the groups inside a node comes to the same decision as its rules in a row. -/
theorem checkWithin_answers (h : t.Sound) (request : Request) (url : Text) (asked : Bool)
    (depth : Nat) (id : NodeId) : (checkWithin request url asked (depth + 1) id).Answers t
      (t.firstDecisionOf request url asked ((t.subtreeOf depth id).filter t.isRule)) := by
  induction depth generalizing t id with
  | zero =>
    rw [checkWithin, Table.subtreeOf]
    refine .node_bind ?_
    cases hb : (t.node id).body with
    | rule r => exact (checkRule_answers h id request url asked false).single hb
    | group g =>
      have hrule : t.isRule id = false := by rw [Table.isRule, Node.rule?, hb]; rfl
      rw [List.filter_cons_of_neg (by simp [hrule])]
      have hnone : (firstDecision (checkWithin request url asked 0) g.members).Answers t
          (Table.firstOf (fun _ ↦ .ok none) g.members) :=
        firstDecision_answers (x := fun _ _ ↦ .ok none) h (fun hs _ ↦ .pure hs none) (fun _ ↦ rfl) _
      rwa [Table.firstOf_none] at hnone
  | succ depth ih =>
    rw [checkWithin, Table.subtreeOf]
    refine .node_bind ?_
    cases hb : (t.node id).body with
    | rule r => exact (checkRule_answers h id request url asked false).single hb
    | group g =>
      have hrule : t.isRule id = false := by rw [Table.isRule, Node.rule?, hb]; rfl
      have hmembers := firstDecision_answers (x := fun t id ↦ t.firstDecisionOf request url asked
        ((t.subtreeOf depth id).filter t.isRule)) h (fun hs id ↦ ih hs id) ?_ g.members
      · simp only [hrule, Bool.false_eq_true, not_false_eq_true, List.filter_cons_of_neg,
          List.filter_flatMap, Table.firstDecisionOf, Table.firstOf_flatMap]
        exact hmembers
      · intro s u hu
        funext other
        simp only [hu.firstDecisionOf_eq, hu.alike.subtreeOf_eq, funext hu.alike.isRule_eq]

theorem check_answers (h : t.Sound) (id : NodeId) (request : Request) (url : Text)
    (asked : Bool) : (check id request url asked).Answers t
      (t.firstDecisionOf request url asked (t.rulesIn id)) :=
  .get_bind (checkWithin_answers h request url asked _ id)

theorem firstAnywhere_answers (h : t.Sound) (request : Request) (url : Text)
    (ids : List NodeId) :
    (firstAnywhere request url ids).Answers t (t.firstAnywhereOf request url ids) := by
  induction ids generalizing t with
  | nil => exact .pure h none
  | cons id rest ih =>
    rw [firstAnywhere, Table.firstAnywhereOf, Table.firstOf, Table.anywhereAt, Table.isRule]
    refine .node_bind ?_
    cases hr : (t.node id).rule? with
    | none => exact .throw h _
    | some r =>
      refine (checkRule_answers h id request url false true).bind fun d s _ hs ↦ ?_
      cases d with
      | some d => exact (Answers.log hs.sound _).bind fun _ u _ hu ↦ .pure hu.sound (some d)
      | none =>
        have hrest := ih hs.sound
        rwa [hs.firstAnywhereOf_eq] at hrest

theorem Answers.effectiveOptions_bind {α : Type} {f : Mapping → Action α} {x : Except Fault α}
    (hk : t.namesAreKeys (t.lineage id) = true) (h : (f (t.effectiveOptions id)).Answers t x) :
    (effectiveOptions id >>= f).Answers t x := by
  have hrun : (effectiveOptions id >>= f).run t = (f (t.effectiveOptions id)).run t := by
    simp only [effectiveOptions, effectiveSlots, EStateM.run_bind, EStateM.run_get, hk, ↓reduceIte,
      EStateM.run_pure]
    rfl
  rwa [Answers, hrun]

theorem allowedMethods_answers (h : t.Sound) (url : Text) (ids : List NodeId) :
    (allowedMethods url ids).Answers t (t.allowedOf url ids) := by
  induction ids generalizing t with
  | nil => exact .pure h (some [])
  | cons id rest ih =>
    refine (matchPath_answers h id url false).bind fun captures s hcs hs ↦ ?_
    cases captures with
    | none =>
      rw [← hs.allowedOf_eq]
      exact ih hs.sound
    | some captures =>
      obtain ⟨c, hat, -⟩ := bind_eq_ok_iff.mp hcs
      have hk := Table.keys_of_ruleAt hs.sound.grounded ((hs.ruleAt id).trans hat)
      refine .effectiveOptions_bind hk ?_
      simp only [hs.alike.effectiveOptions]
      cases Check.listedMethods? ((t.effectiveOptions id).named "method") with
      | none => exact .pure hs.sound none
      | some methods =>
        rw [← hs.allowedOf_eq]
        refine (ih hs.sound).bind fun more u _ hu ↦ ?_
        cases more with
        | none => exact .pure hu.sound none
        | some more => exact .pure hu.sound (some (methods ++ more))

theorem routed_answers (h : t.Sound) (id : RouterId) (request : Request) :
    Answers (do
      let r ← router id
      let request := r.config.complete request
      let url := r.config.urlOf request
      match ← check r.root request url false with
      | some d => return d
      | none =>
        match ← firstAnywhere request url r.everywhere with
        | some d => return d
        | none =>
          let allowed ← allowedMethods url ((← get).routes id)
          throw (.refusal request (allowed.getD []))) t (t.routed id request) := by
  refine .router_bind ?_
  rw [Table.routed, ← t.urlOf_completed]
  refine (check_answers h _ _ _ _).bind fun d s _ hs ↦ ?_
  cases d with
  | some d => exact .pure hs.sound d
  | none =>
    simp only [← hs.firstAnywhereOf_eq]
    refine (firstAnywhere_answers hs.sound _ _ _).bind fun d u _ hu ↦ ?_
    cases d with
    | some d => exact .pure hu.sound d
    | none =>
      refine .get_bind ?_
      rw [(hs.trans hu).alike.routes_eq, ← (hs.trans hu).allowedOf_eq]
      exact (allowedMethods_answers hu.sound _ _).bind fun allowed v _ hv ↦ .throw hv.sound _

/-- What a router answers, and whether it fails, is determined by the table. -/
theorem route_answers (h : t.Sound) (id : RouterId) (request : Request) :
    (route id request).Answers t (t.routing id request) := by
  rw [Table.routing, Table.readying]
  refine .router_bind ?_
  cases hc : (t.router id).compiled with
  | true => exact routed_answers h id request
  | false =>
    refine (compileRouter_answers h id).bind fun _ s _ hs ↦ ?_
    rw [← hs.routed_eq]
    exact routed_answers hs.sound id request

end Action

end UrlRouting

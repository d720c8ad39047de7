import UrlRouting.Proofs.Table.Configuring
import UrlRouting.Session

/-!
Reachable tables are sound: `Reachable.sound`. Nodes are declared under parents that are groups of
the table, and every operation that is given nodes and routers of the table keeps the invariant,
also one that fails. What such a table answers is therefore a function of what is in effect in it.
Operations leave compiled nodes and closed routers alone, and of the cells there are, each edits at
most one: `Operation.run_ends`, and for all of a session `follows_afterAll`.
-/

namespace UrlRouting

open Http

variable {α : Type} {start t s : Table} {edited : List Nat} {label label' : Nat → Option Text}
  {id : NodeId} {n : Node} {router : Option RouterId} {parent : Option NodeId}

namespace Action

open Table

/-! ### Declaring -/

theorem pathOf_ends (t : Table) (parent : Option NodeId) : (pathOf parent).Ends t
    (fun _ s ↦ s = t ∧ ∀ p, parent = some p → (t.node p).rule? = none) (fun s ↦ s = t) := by
  cases parent with
  | none => exact ⟨rfl, fun p hp ↦ by cases hp⟩
  | some p =>
    rw [pathOf, ends_bind, group]
    refine .node_bind ?_
    cases hg : (t.node p).group? with
    | none => exact rfl
    | some g =>
      refine ⟨rfl, fun p' hp ↦ ?_⟩
      obtain rfl := Option.some.inj hp
      cases hb : (t.node p).body with
      | rule r => simp [Node.group?, hb] at hg
      | group g' => rw [Node.rule?, hb]

end Action

namespace Table

/-- A node has been added to a table that is sound with it. -/
structure Added (start : Table) (edited : List Nat) (t s : Table) (new : NodeId) : Prop where
  follows : start.Follows edited s
  length : s.nodes.length = t.nodes.length + 1
  new : new = t.nodes.length
  node : ∀ id, id < t.nodes.length → s.node id = t.node id

end Table

namespace Action

open Table

/-- A new node is added that is not compiled and has neither expressions nor members. -/
theorem addNode_ends (ht : t.SoundFor label) (hlater : Later edited start t)
    (hg : Grown label label' t s) (hrouter : ∀ r, n.router = some r → t.hasRouter r = true)
    (hparent : ∀ p, n.parent = some p → t.hasNode p = true ∧ (t.node p).rule? = none)
    (hexpr : ∀ r, n.rule? = some r → r.expressions = []) (hmembers : n.members = [])
    (hsnapshot : n.snapshot = none) (hown : Labelled label' s.cells.length n.options) :
    (addNode n).Ends s (fun new u ↦ start.Added edited t u new) (start.Follows edited) := by
  have hlt : ∀ p, n.parent = some p → p < s.nodes.length := by
    intro p hp
    rw [hg.nodes]
    exact of_decide_eq_true (hparent p hp).1
  have hfits : s.Fits label' s.nodes.length n :=
    { router_lt := by
        intro r hr
        rw [hg.routers]
        exact of_decide_eq_true (hrouter r hr)
      parent_lt := hlt _
      parent_group := by
        intro p hp
        rw [hg.node_eq]
        exact (hparent p hp).2
      group_parent_lt := fun _ hp ↦ hlt _ hp
      member_lt := by simp [hmembers]
      own := hown
      snapshot := by simp [hsnapshot]
      keeps := by
        intro r hr complete folds x hx
        simp [hexpr r hr] at hx }
  have hfollows : start.Follows edited { s with nodes := s.nodes ++ [n] } :=
    ⟨⟨label', hg.sound.addNode hfits⟩, (hlater.trans (hg.later ht)).trans (.addNode s n)⟩
  refine ⟨hfollows, ?_, congrArg List.length hg.nodes, fun id hid ↦ ?_⟩
  · simp [hg.nodes]
  · rw [← hg.node_eq]
    exact node_append_of_lt (by rwa [hg.nodes]) n

theorem labelled_declaredOptions {count : Nat} {given : Entries Slot}
    (h : Labelled label count given) (complete : Bool) (method : Text) :
    Labelled label count (Rule.declaredOptions given complete method) := by
  have hoptions : Labelled label count
      (if complete then given.set "complete_match" (.fixed (.bool true)) else given) := by
    split
    · exact h.set_fixed _ _
    · exact h
  rw [Rule.declaredOptions]
  split
  · exact hoptions
  · exact hoptions.set_fixed _ _

theorem newRule_ends (h : start.Follows edited t) (hrouter : router.all t.hasRouter = true)
    (hparent : parent.all t.hasNode = true) (d : Declared) :
    (newRule router parent d).Ends t (fun new s ↦ start.Added edited t s new)
      (start.Follows edited) := by
  refine ((pathOf_ends t parent).mono_error fun s hs ↦ hs ▸ h).bind ?_
  rintro path _ ⟨rfl, hgroup⟩
  obtain ⟨⟨label, h⟩, hlater⟩ := h
  refine (keepAll_ends h d.options).bind_of_safe ?_
  rintro slots s ⟨label', hgrown, hslots⟩
  refine addNode_ends h hlater hgrown ?_ ?_ ?_ rfl rfl ?_
  · exact (Option.all_eq_true _ _).mp hrouter
  · exact fun p hp ↦ ⟨(Option.all_eq_true _ _).mp hparent p hp, hgroup p hp⟩
  · rintro r hr
    cases hr
    rfl
  · exact labelled_declaredOptions hslots _ _

theorem newGroup_ends (h : start.Follows edited t) (hrouter : router.all t.hasRouter = true)
    (hparent : parent.all t.hasNode = true) (d : DeclaredGroup) :
    (newGroup router parent d).Ends t (fun new s ↦ start.Added edited t s new)
      (start.Follows edited) := by
  refine ((pathOf_ends t parent).mono_error fun s hs ↦ hs ▸ h).bind ?_
  rintro path _ ⟨rfl, hgroup⟩
  obtain ⟨⟨label, h⟩, hlater⟩ := h
  refine (keepAll_ends h d.options).bind_of_safe ?_
  rintro slots s ⟨label', hgrown, hslots⟩
  refine addNode_ends h hlater hgrown ?_ ?_ nofun rfl rfl hslots
  · exact (Option.all_eq_true _ _).mp hrouter
  · exact fun p hp ↦ ⟨(Option.all_eq_true _ _).mp hparent p hp, hgroup p hp⟩

/-- A node that was declared later becomes a member of an open group. -/
theorem addMember_ends (h : start.Open edited id t) {member : NodeId} (hlt : id < member)
    (hmember : member < t.nodes.length) : (addMember id member).Ends t
      (fun _ s ↦ start.Follows edited s ∧ s.nodes.length = t.nodes.length)
      (start.Follows edited) := by
  obtain ⟨label, h⟩ := h
  have hfits := h.sound.fits id
  have hsnapshot : (t.node id).snapshot = none := by
    simpa [Node.isCompiled] using h.isOpen
  have hset : ∀ n, n.form = (t.node id).form → (t.setNode id n).SoundFor label →
      start.Follows edited (t.setNode id n) ∧ (t.setNode id n).nodes.length = t.nodes.length :=
    fun n hform hn ↦
      ⟨⟨⟨label, hn⟩, h.later.trans (.setNode h.isOpen hform)⟩, length_setNode t id n⟩
  cases hb : (t.node id).body with
  | rule r =>
    have hrun : (addMember id member).run t = .ok () (t.setNode id (t.node id)) := by
      simp only [addMember, modifyNode, EStateM.run_modify, hb]
    rw [Ends, hrun]
    exact hset _ rfl (h.reconfigure ⟨rfl, rfl, rfl, rfl, rfl, rfl⟩ hfits.own).sound
  | group g =>
    have hrun : (addMember id member).run t = .ok () (t.setNode id
        { t.node id with body := .group { g with members := g.members ++ [member] } }) := by
      simp only [addMember, modifyNode, EStateM.run_modify, hb]
    rw [Ends, hrun]
    refine hset _ (by rw [Node.form, Node.form, hb]) (h.sound.setOpen h.isOpen
      (by simp [Node.rule?, hb]) hsnapshot hfits.router_lt
      hfits.parent_lt hfits.parent_group ?_ ?_ hfits.own)
    · exact fun _ hp ↦ hfits.group_parent_lt (by rw [Node.rule?, hb]) hp
    · intro m hm
      rcases List.mem_append.mp hm with hm | hm
      · exact hfits.member_lt (by rwa [Node.members, hb])
      · obtain rfl := List.mem_singleton.mp hm
        exact ⟨hlt, hmember⟩

theorem declared_ends (h : start.Follows edited t) (hid : t.hasNode id = true)
    {make : Option RouterId → Action NodeId} (hmake : ∀ router, router.all t.hasRouter = true →
      (make router).Ends t (fun new s ↦ start.Added edited t s new) (start.Follows edited)) :
    Ends (do
      discard (group id)
      ensureOpen id
      let member ← make (← node id).router
      addMember id member
      return member) t
      (fun new s ↦ start.Follows edited s ∧ t.nodes.length ≤ s.nodes.length ∧
        s.hasNode new = true) (start.Follows edited) := by
  have hgroup : (discard (group id)).Ends t (fun _ s ↦ s = t) fun s ↦ s = t :=
    (Maintains.group id).ignoring t rfl
  refine (hgroup.mono_error fun s hs ↦ hs ▸ h).bind ?_
  rintro _ _ rfl
  refine (ensureOpen_ends h id).bind ?_
  rintro _ s ⟨rfl, label, hopen⟩
  have hrouter : (s.node id).router.all s.hasRouter = true :=
    (Option.all_eq_true _ _).mpr fun r hr ↦ decide_eq_true ((hopen.sound.fits id).router_lt hr)
  refine (hmake _ hrouter).bind ?_
  rintro new u ⟨⟨⟨label', hu⟩, hlater⟩, hlength, rfl, hnode⟩
  have hlt : id < s.nodes.length := of_decide_eq_true hid
  have hopen' : start.Open edited id u :=
    ⟨label', hu, hlater, by rw [hnode id hlt, hopen.isOpen]⟩
  refine (addMember_ends hopen' hlt (hlength ▸ Nat.lt_succ_self _)).bind ?_
  rintro _ v ⟨hv, hlength'⟩
  rw [hlength] at hlength'
  refine ⟨hv, ?_, decide_eq_true ?_⟩
  · rw [hlength']
    exact Nat.le_succ _
  · rw [hlength']
    exact Nat.lt_succ_self _

theorem declareRule_ends (h : start.Follows edited t) (hid : t.hasNode id = true) (d : Declared) :
    (declareRule id d).Ends t
      (fun new s ↦ start.Follows edited s ∧ t.nodes.length ≤ s.nodes.length ∧ s.hasNode new = true)
      (start.Follows edited) :=
  have hparent : (some id).all t.hasNode = true := hid
  declared_ends h hid fun _ hrouter ↦ newRule_ends h hrouter hparent d

theorem declareGroup_ends (h : start.Follows edited t) (hid : t.hasNode id = true)
    (d : DeclaredGroup) : (declareGroup id d).Ends t
      (fun new s ↦ start.Follows edited s ∧ t.nodes.length ≤ s.nodes.length ∧ s.hasNode new = true)
      (start.Follows edited) :=
  have hparent : (some id).all t.hasNode = true := hid
  declared_ends h hid fun _ hrouter ↦ newGroup_ends h hrouter hparent d

theorem declareRules_ends (h : start.Follows edited t) (hid : t.hasNode id = true)
    (ds : List Declared) :
    (declareRules id ds).Ends t (fun _ ↦ start.Follows edited) (start.Follows edited) := by
  induction ds generalizing t with
  | nil => exact h
  | cons d rest ih =>
    have hfirst : (discard (declareRule id d)).Ends t
        (fun _ s ↦ start.Follows edited s ∧ t.nodes.length ≤ s.nodes.length)
        (start.Follows edited) :=
      ends_discard.mpr ((declareRule_ends h hid d).mono (fun _ _ hs ↦ ⟨hs.1, hs.2.1⟩) fun _ hs ↦ hs)
    refine hfirst.bind ?_
    rintro _ s ⟨hs, hle⟩
    exact ih hs (decide_eq_true (Nat.lt_of_lt_of_le (of_decide_eq_true hid) hle))

theorem addRouter_ends (h : start.Follows edited t) (settings : Mapping) :
    (addRouter settings).Ends t (fun _ ↦ start.Follows edited) (start.Follows edited) := by
  refine ends_bind.mpr (ends_ofExcept (fun config ↦ ?_) h)
  obtain ⟨⟨label, h⟩, hlater⟩ := h
  exact ⟨⟨label, h.addRouter rfl rfl rfl rfl rfl rfl rfl rfl⟩,
    (hlater.trans (.addNode t _)).trans (.addRouter _ _)⟩

theorem onRouter_ends (h : start.Follows edited t) {id : RouterId} (hid : t.hasRouter id = true)
    {make : NodeId → Action α} {Q : α → Table → Prop}
    (hmake : ∀ root, t.hasNode root = true → (make root).Ends t Q (start.Follows edited)) :
    Ends (do ensureRouterOpen id; make (← Action.router id).root) t Q (start.Follows edited) := by
  rw [ensureRouterOpen, ends_bind, ends_bind]
  change Ends (if (t.router id).compiled then _ else _) t _ _
  split
  · exact h
  · obtain ⟨label, h⟩ := h.sound
    exact hmake _ (decide_eq_true (h.root_lt (of_decide_eq_true hid)))

theorem routeOn_ends (h : start.Follows edited t) {id : RouterId} (hid : t.hasRouter id = true)
    (d : Declared) :
    (routeOn id d).Ends t (fun _ ↦ start.Follows edited) (start.Follows edited) :=
  onRouter_ends h hid fun _ hroot ↦
    (declareRule_ends h hroot d).mono (fun _ _ hs ↦ hs.1) fun _ hs ↦ hs

theorem groupOn_ends (h : start.Follows edited t) {id : RouterId} (hid : t.hasRouter id = true)
    (d : DeclaredGroup) : (groupOn id d).Ends t
      (fun new s ↦ start.Follows edited s ∧ s.hasNode new = true) (start.Follows edited) :=
  onRouter_ends h hid fun _ hroot ↦
    (declareGroup_ends h hroot d).mono (fun _ _ hs ↦ ⟨hs.1, hs.2.2⟩) fun _ hs ↦ hs

/-! ### Moving and restoring -/

theorem bind_ends (h : start.Follows edited t) (hrouter : router.all t.hasRouter = true)
    (hparent : parent.all t.hasGroup = true) :
    (bind id router parent).Ends t (fun _ ↦ start.Follows edited) (start.Follows edited) := by
  cases hr : (t.node id).rule? with
  | none =>
    have hrun : (discard (rule id)).run t = .error .missingAttribute t := by
      simp only [run_discard, rule, node, EStateM.run_bind, EStateM.run_get, EStateM.run_pure, hr]
      rfl
    rw [bind, ends_bind, Ends, hrun]
    exact h
  | some r =>
    have hrun : (discard (rule id)).run t = .ok () t := by rw [run_discard, run_rule hr]
    rw [bind, ends_bind, Ends, hrun]
    refine (ensureOpen_ends h id).bind ?_
    rintro _ s ⟨rfl, label, h⟩
    have hsnapshot : (s.node id).snapshot = none := by
      simpa [Node.isCompiled] using h.isOpen
    have hgroup : ∀ p, parent = some p → p < s.nodes.length ∧ (s.node p).rule? = none := by
      intro p hp
      have hall := (Option.all_eq_true _ _).mp hparent p hp
      simpa [hasGroup, hasNode, isRule] using hall
    refine ⟨⟨label, h.sound.setOpen h.isOpen rfl hsnapshot ?_ ?_ ?_ ?_ (h.sound.fits id).member_lt
      (h.sound.fits id).own⟩, h.later.trans (.setNode h.isOpen rfl)⟩
    · exact fun hr' ↦ of_decide_eq_true ((Option.all_eq_true _ _).mp hrouter _ hr')
    · exact fun hp ↦ (hgroup _ hp).1
    · exact fun hp ↦ (hgroup _ hp).2
    · intro p hnone
      change (s.node id).rule? = none at hnone
      rw [hr] at hnone
      cases hnone

theorem restore_ends (ht : t.SoundFor label) (hlater : Later edited start t)
    (h : Grown label label' t s) {state : RuleState}
    (hown : Labelled label' s.cells.length state.options) :
    (restore state).Ends s (fun _ ↦ start.Follows edited) (start.Follows edited) := by
  refine (addNode_ends ht hlater h ?_ ?_ ?_ rfl rfl hown).mono (fun _ _ hu ↦ hu.follows)
    fun _ hu ↦ hu
  · rintro r hr
    cases hr
  · rintro p hp
    cases hp
  · rintro r hr
    cases hr
    rfl

theorem stateOf_ends (t : Table) (id : NodeId) : (stateOf id).Ends t
    (fun state s ↦ s = t ∧ state.options = (t.node id).options) (fun s ↦ s = t) := by
  have hrule : (rule id).Ends t (fun _ s ↦ s = t) fun s ↦ s = t := Maintains.rule id t rfl
  exact ends_bind.mpr (hrule.bind fun _ _ hs ↦ ⟨hs, rfl⟩)

theorem copy_ends (h : start.Follows edited t) (id : NodeId) (f : NodeId → α) :
    Ends (do return f (← restore (← stateOf id))) t (fun _ ↦ start.Follows edited)
      (start.Follows edited) := by
  refine ((stateOf_ends t id).mono_error fun s hs ↦ hs ▸ h).bind ?_
  rintro state _ ⟨rfl, hoptions⟩
  obtain ⟨⟨label, h⟩, hlater⟩ := h
  exact (restore_ends h hlater (.refl h) (hoptions ▸ (h.fits id).own)).bind fun _ _ hs ↦ hs

theorem maintains_member (P : Table → Prop) (m : Mapping) (name : Text) :
    Maintains P (member m name) := by
  rw [member]
  split
  · exact .pure _
  · exact .throw _

/-- An action that maintains everything leaves the table alone. -/
theorem Maintains.still {a : Action α} (h : ∀ P, Maintains P a) {E : Table → Prop} (ht : E t) :
    a.Ends t (fun _ s ↦ s = t) E :=
  (h (· = t) t rfl).mono_error fun _ hs ↦ hs ▸ ht

theorem readState_ends (h : t.SoundFor label) (m : Mapping) : (readState m).Ends t
    (fun state s ↦ ∃ label', Grown label label' t s ∧
      Labelled label' s.cells.length state.options)
    (fun s ↦ ∃ label', Grown label label' t s) := by
  have ht : ∃ label', Grown label label' t t := ⟨label, .refl h⟩
  refine (Maintains.still (maintains_member · m _) ht).bind ?_
  rintro options _ rfl
  refine (Maintains.still (maintains_member · m _) ht).bind ?_
  rintro patterns t rfl
  refine (Maintains.still (fun _ ↦ .ofExcept _) ht).bind ?_
  rintro entries t rfl
  refine (keepAll_ends h entries).bind_of_safe ?_
  rintro slots s ⟨label', hgrown, hslots⟩
  have hs : ∃ label', Grown label label' t s := ⟨label', hgrown⟩
  refine (Maintains.still (fun _ ↦ .ofExcept _) hs).bind ?_
  rintro patterns _ rfl
  refine (Maintains.still (maintains_member · m _) hs).bind ?_
  rintro name _ rfl
  refine (Maintains.still (maintains_member · m _) hs).bind ?_
  rintro text _ rfl
  refine (Maintains.still (maintains_member · m _) hs).bind ?_
  rintro target _ rfl
  refine (Maintains.still (maintains_member · m _) hs).bind ?_
  rintro method s rfl
  cases text with
  | str text => exact ⟨label', hgrown, hslots⟩
  | _ => exact hs

theorem restoreFrom_ends (h : start.Follows edited t) (m : Mapping) (f : NodeId → α) :
    Ends (do return f (← restore (← readState m))) t (fun _ ↦ start.Follows edited)
      (start.Follows edited) := by
  obtain ⟨⟨label, h⟩, hlater⟩ := h
  refine ((readState_ends h m).mono_error ?_).bind ?_
  · rintro s ⟨label', hgrown⟩
    exact ⟨⟨label', hgrown.sound⟩, hlater.trans (hgrown.later h)⟩
  · rintro state s ⟨label', hgrown, hown⟩
    exact (restore_ends h hlater hgrown hown).bind fun _ _ hs ↦ hs

/-! ### Calls -/

theorem maintains_callNamed {P : Table → Prop} {callees : List (Text × Callee)}
    (h : ∀ entry ∈ callees, ∀ args, Maintains P (entry.2 args)) (name : Text) (args : Arguments) :
    Maintains P (callNamed callees name args) := by
  rw [callNamed]
  cases hl : callees.lookup name with
  | none => exact .throw _
  | some callee =>
    obtain ⟨front, back, rfl, -⟩ := List.lookup_eq_some_iff.mp hl
    exact h (name, callee) (by simp) args

theorem maintains_plain {P : Table → Prop} {answer : Action CallAnswer} (h : Maintains P answer)
    (args : Arguments) : Maintains P (Callee.plain answer args) :=
  (Maintains.ofExcept _).ignoring.bind fun _ ↦ h

theorem maintains_named {P : Table → Prop} {answer : Value → Action CallAnswer}
    (h : ∀ name, Maintains P (answer name)) (args : Arguments) :
    Maintains P (Callee.named answer args) :=
  (Maintains.ofExcept _).bind fun _ ↦ h _

theorem maintains_look {P : Table → Prop} (m : Mapping) (name default : Value) :
    Maintains P (Callee.look m name default) := by
  rw [Callee.look]
  split
  · exact .pure _
  · exact .throw _

theorem maintains_onNode {P : Table → Prop} (hP : Steady P) (id : NodeId) (entry : Text × Callee)
    (h : entry ∈ Callee.onNode id) (args : Arguments) : Maintains P (entry.2 args) := by
  simp only [Callee.onNode, List.mem_cons, List.not_mem_nil, or_false] at h
  rcases h with rfl | rfl | rfl | rfl | rfl | rfl <;> dsimp only
  · exact maintains_plain ((Maintains.effectiveOptions id).bind fun _ ↦ .pure _) args
  · exact maintains_plain (.get_bind fun _ ↦ .pure _) args
  · exact (Maintains.ofExcept _).bind fun _ ↦
      (Maintains.effectiveOptions id).bind fun _ ↦ maintains_look _ _ _
  · refine maintains_named (fun name ↦ ?_) args
    exact .get_bind fun _ ↦ maintains_look _ _ _
  · refine maintains_named (fun name ↦ ?_) args
    exact .get_bind fun t ↦ .node_bind fun n ↦ (Maintains.ofExcept _).bind fun _ ↦ .pure _
  · exact maintains_plain ((hP fun t ht ↦ compile_answers ht id).bind fun _ ↦ .pure _) args

end Action

/-- The cell that an operation edits, which only a directive does. -/
def Operation.cellEdited? (op : Operation) (t : Table) : Option Nat :=
  match op with
  | .call node name args =>
    match Directive.reader? (t.isRule node) name with
    | some reader =>
      match reader args with
      | .ok d => t.cellEdited? d node
      | .error _ => none
    | none => none
  | _ => none

namespace Action

theorem call_ends (h : start.Follows edited t) (id : NodeId) (name : Text) (args : Arguments)
    (hedited : ∀ cell, (Operation.call id name args).cellEdited? t = some cell →
      cell < start.cells.length → cell ∈ edited) :
    (call id name args).Ends t (fun _ ↦ start.Follows edited) (start.Follows edited) := by
  rw [call, ends_bind]
  change Ends (match Directive.reader? (t.isRule id) name with | some _ => _ | none => _) t _ _
  rw [Operation.cellEdited?] at hedited
  cases hr : Directive.reader? (t.isRule id) name with
  | none => exact maintains_callNamed (maintains_onNode steady_follows id) name args t h
  | some reader =>
    rw [hr] at hedited
    dsimp only at hedited ⊢
    cases hd : reader args with
    | error e => exact h
    | ok d =>
      rw [hd] at hedited
      exact (apply_ends h d id hedited).bind fun _ _ hs ↦ hs

theorem maintains_onRouter {P : Table → Prop} (hP : Steady P) (id : RouterId)
    (entry : Text × Callee) (h : entry ∈ Callee.onRouter id) (args : Arguments) :
    Maintains P (entry.2 args) := by
  simp only [Callee.onRouter, List.mem_cons, List.not_mem_nil, or_false] at h
  rcases h with rfl | rfl | rfl <;> dsimp only
  · refine maintains_named (fun name ↦ ?_) args
    exact .get_bind fun t ↦ (Maintains.ofExcept _).bind fun _ ↦ .pure _
  · refine maintains_named (fun name ↦ ?_) args
    refine .get_bind fun t ↦ ?_
    cases t.find? id name with
    | none => exact .pure _
    | some rule => exact (Maintains.ofExcept _).bind fun _ ↦ .pure _
  · exact maintains_plain ((hP fun t ht ↦ compileRouter_answers ht id).bind fun _ ↦ .pure _) args

end Action

/-! ### Operations -/

namespace Operation

open UrlRouting.Action

/-- The operation compiles or asks, and neither declares nor configures anything. -/
def asks (op : Operation) (t : Table) : Bool :=
  match op with
  | call node name _ => (Directive.reader? (t.isRule node) name).isNone
  | callRouter _ _ _ | compile _ | compileRouter _ | check _ _ _ _ _ | matchPath _ _ _
  | route _ _ => true
  | _ => false

theorem run_asking {P : Table → Prop} (hP : Steady P) (op : Operation) (hop : op.asks t = true)
    (h : P t) : op.run.Ends t (fun _ ↦ P) P := by
  cases op with
  | call node name args =>
    have hnone := Option.isNone_iff_eq_none.mp hop
    refine (?_ : (Action.call node name args).Ends t (fun _ ↦ P) P).bind fun _ _ hs ↦ hs
    rw [Action.call, ends_bind]
    change Ends (match Directive.reader? (t.isRule node) name with | some _ => _ | none => _) t _ _
    rw [hnone]
    exact maintains_callNamed (maintains_onNode hP node) name args t h
  | callRouter router name args =>
    exact (maintains_callNamed (maintains_onRouter hP router) name args t h).bind fun _ _ hs ↦ hs
  | compile node => exact (hP (fun t ht ↦ compile_answers ht node) t h).bind fun _ _ hs ↦ hs
  | compileRouter router =>
    exact (hP (fun t ht ↦ compileRouter_answers ht router) t h).bind fun _ _ hs ↦ hs
  | check node request url complete anyDomain =>
    refine Maintains.get_bind (fun s ↦ ?_) t h
    split
    · exact (hP fun t ht ↦ checkRule_answers ht node request url complete anyDomain).bind
        fun _ ↦ .pure _
    · exact (hP fun t ht ↦ check_answers ht node request url complete).bind fun _ ↦ .pure _
  | matchPath rule url complete =>
    exact (hP (fun t ht ↦ matchPath_answers ht rule url complete) t h).bind fun _ _ hs ↦ hs
  | route router request =>
    exact (hP (fun t ht ↦ route_answers ht router request) t h).bind fun _ _ hs ↦ hs
  | _ => cases hop

/-- Every operation keeps the invariant and changes nothing that is to stay, whether it ends or
fails. -/
theorem run_ends (op : Operation) (h : start.Follows edited t) (hop : op.isFor t = true)
    (hedited : ∀ cell, op.cellEdited? t = some cell → cell < start.cells.length →
      cell ∈ edited) :
    op.run.Ends t (fun _ ↦ start.Follows edited) (start.Follows edited) := by
  have hend : ∀ {α β : Type} {a : Action α} {Q : α → Table → Prop} (f : α → β),
      a.Ends t Q (start.Follows edited) → (∀ x s, Q x s → start.Follows edited s) →
      Ends (do return f (← a)) t (fun _ ↦ start.Follows edited) (start.Follows edited) :=
    fun f ha hq ↦ ha.bind fun x s hs ↦ hq x s hs
  cases op with
  | addRouter settings => exact hend _ (addRouter_ends h settings) fun _ _ hs ↦ hs
  | newRule router parent d =>
    obtain ⟨hrouter, hparent⟩ := Bool.and_eq_true_iff.mp hop
    exact hend _ (newRule_ends h hrouter hparent d) fun _ _ hs ↦ hs.follows
  | newGroup router parent d =>
    obtain ⟨hrouter, hparent⟩ := Bool.and_eq_true_iff.mp hop
    exact hend _ (newGroup_ends h hrouter hparent d) fun _ _ hs ↦ hs.follows
  | declareRule group d => exact hend _ (declareRule_ends h hop d) fun _ _ hs ↦ hs.1
  | declareGroup group d rules =>
    refine (declareGroup_ends h hop d).bind fun inner s hs ↦ ?_
    exact (declareRules_ends hs.1 hs.2.2 rules).bind fun _ _ hu ↦ hu
  | routeOn router d => exact hend _ (routeOn_ends h hop d) fun _ _ hs ↦ hs
  | groupOn router d rules =>
    refine (groupOn_ends h hop d).bind fun inner s hs ↦ ?_
    exact (declareRules_ends hs.1 hs.2 rules).bind fun _ _ hu ↦ hu
  | call node name args => exact hend _ (call_ends h node name args hedited) fun _ _ hs ↦ hs
  | addEverywhere router rule =>
    exact (maintains_addEverywhere router rule t h).bind fun _ _ hs ↦ hs
  | bind rule router parent =>
    obtain ⟨hfirst, hparent⟩ := Bool.and_eq_true_iff.mp hop
    obtain ⟨-, hrouter⟩ := Bool.and_eq_true_iff.mp hfirst
    exact (bind_ends h hrouter hparent).bind fun _ _ hs ↦ hs
  | copy rule => exact copy_ends h rule _
  | restore state => exact restoreFrom_ends h state _
  | _ => exact run_asking steady_follows _ rfl h

theorem after_of_run {op : Operation} {t s : Table} {x : Outcome}
    (h : op.run.run t = .ok x s) : op.after t = s := by
  rw [after]
  rw [EStateM.run] at h
  rw [h]

theorem after_of_ends {P : Table → Prop} {op : Operation} (h : op.run.Ends t (fun _ ↦ P) P) :
    P (op.after t) := by
  rw [after]
  rw [Ends] at h
  cases hr : op.run t with
  | ok x s =>
    rw [EStateM.run, hr] at h
    exact h
  | error e s =>
    rw [EStateM.run, hr] at h
    exact h

/-- An operation leaves behind a table that follows, in which it has edited its cell. -/
theorem follows_after (op : Operation) (h : t.Sound) (hop : op.isFor t = true) :
    t.Follows (op.cellEdited? t).toList (op.after t) :=
  after_of_ends (op.run_ends ⟨h, .refl t⟩ hop fun cell hcell _ ↦ by simp [hcell])

end Operation

namespace Table

/-- The cells that operations edit, one after the other. -/
def cellsEdited (t : Table) : List Operation → List Nat
  | [] => []
  | op :: rest => (op.cellEdited? t).toList ++ (op.after t).cellsEdited rest

theorem follows_afterAll (ops : List Operation) (h : t.Sound) (hops : t.admits ops = true) :
    t.Follows (t.cellsEdited ops) (t.afterAll ops) := by
  induction ops generalizing t with
  | nil => exact ⟨h, .refl t⟩
  | cons op rest ih =>
    obtain ⟨hop, hrest⟩ := Bool.and_eq_true_iff.mp hops
    have hfirst := op.follows_after h hop
    have hlast := ih hfirst.sound hrest
    exact ⟨hlast.sound, (hfirst.later.mono (List.subset_append_left _ _)).trans
      (hlast.later.mono (List.subset_append_right _ _))⟩

theorem admits_append (t : Table) (ops more : List Operation) :
    t.admits (ops ++ more) = (t.admits ops && (t.afterAll ops).admits more) := by
  induction ops generalizing t with
  | nil => rfl
  | cons op rest ih =>
    rw [List.cons_append, admits, admits, ih, Bool.and_assoc]
    rfl

theorem Reachable.after {op : Operation} (h : t.Reachable) (hop : op.isFor t = true) :
    (op.after t).Reachable := by
  obtain ⟨ops, hops, rfl⟩ := h
  refine ⟨ops ++ [op], ?_, ?_⟩
  · rw [admits_append, hops, admits, hop]
    rfl
  · rw [afterAll, afterAll, List.foldl_append]
    rfl

theorem Reachable.sound (h : t.Reachable) : t.Sound := by
  obtain ⟨ops, hops, rfl⟩ := h
  exact (follows_afterAll ops sound_empty hops).sound

end Table

def Http.Request.bare (method path : Text) : Request where
  method := method
  path := path
  host := "localhost"
  scheme := "http"
  headers := .none
  query := ⟨[], []⟩
  pathParams := []
  rootDomain := none

end UrlRouting

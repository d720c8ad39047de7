import UrlRouting.Proofs.Table.Declaring
import UrlRouting.Proofs.Table.Twins
import UrlRouting.Proofs.Template.Nesting

/-!
Groups are notation. A rule that is declared inside groups has the rule string of one outside of all
groups that is declared with their prefixes, and decides like it once that one is given what is in
effect at the first: `decides_as_flattened`.
-/

namespace UrlRouting

open Http

variable {t s u : Table} {id outer : NodeId} {router : Option RouterId} {parent : Option NodeId}
  {path : Text} {prefixes : List Text}

namespace Action

variable {α β : Type}

theorem exists_of_bind_ok {a : Action α} {f : α → Action β} {y : β}
    (h : (a >>= f).run t = .ok y u) : ∃ x s, a.run t = .ok x s ∧ (f x).run s = .ok y u := by
  rw [EStateM.run_bind] at h
  cases hr : a.run t with
  | ok x s =>
    rw [hr] at h
    exact ⟨x, s, rfl, h⟩
  | error e s =>
    rw [hr] at h
    cases h

/-! ### Declaring in a group -/

theorem exists_group (hform : (t.node id).form = (false, path)) :
    ∃ members, (t.node id).body = .group ⟨path, members⟩ := by
  rw [Node.form] at hform
  cases hb : (t.node id).body with
  | rule r =>
    rw [hb] at hform
    cases hform
  | group g =>
    rw [hb] at hform
    cases hform
    exact ⟨g.members, rfl⟩

theorem run_pathOf (hform : (t.node id).form = (false, path)) :
    (pathOf (some id)).run t = .ok path t := by
  obtain ⟨members, hb⟩ := exists_group hform
  simp only [pathOf, group, node, Node.group?, EStateM.run_bind, EStateM.run_get, EStateM.run_pure,
    hb]

theorem run_newGroup (router : Option RouterId) (hpath : (pathOf parent).run t = .ok path t)
    (d : DeclaredGroup) :
    ∃ n kept, n.form = (false, Group.pathInside path d.rule) ∧
      (newGroup router parent d).run t =
        .ok t.nodes.length { t with nodes := t.nodes ++ [n], cells := kept } := by
  obtain ⟨slots, kept, -, hslots⟩ := run_keepAll d.options t.cells
  refine ⟨⟨router, parent, .null, slots, d.patterns, [], none, .group ⟨_, []⟩⟩, kept, rfl, ?_⟩
  rw [newGroup, EStateM.run_bind, hpath]
  dsimp only
  rw [EStateM.run_bind, hslots t rfl]
  rfl

theorem run_newRule (router : Option RouterId) (hpath : (pathOf parent).run t = .ok path t)
    (d : Declared) :
    ∃ n kept, n.form = (true, Rule.fullText path (Rule.withoutEndMark d.rule).1) ∧
      (newRule router parent d).run t =
        .ok t.nodes.length { t with nodes := t.nodes ++ [n], cells := kept } := by
  obtain ⟨slots, kept, -, hslots⟩ := run_keepAll d.options t.cells
  refine ⟨⟨router, parent, .null, Rule.declaredOptions slots (Rule.withoutEndMark d.rule).2
    (if d.method.isEmpty then ['*'] else d.method), d.patterns, [], none, .rule ⟨d.name, _,
      d.target, .str (if d.method.isEmpty then ['*'] else d.method), Template.builtIn, []⟩⟩,
    kept, rfl, ?_⟩
  rw [newRule, EStateM.run_bind, hpath]
  dsimp only
  rw [EStateM.run_bind, hslots t rfl]
  rfl

/-- Nothing is declared in a compiled group. -/
theorem run_inGroup (hform : (t.node id).form = (false, path)) : ∃ e, ∀ f : Action α,
    EStateM.run (do
      discard (group id)
      ensureOpen id
      f) t = if (t.node id).isCompiled then .error e t else f.run t := by
  obtain ⟨members, hb⟩ := exists_group hform
  refine ⟨.frozen (Group.shown ⟨path, members⟩), fun f ↦ ?_⟩
  have hgroup : (discard (group id)).run t = .ok () t := by
    simp only [run_discard, group, node, Node.group?, EStateM.run_bind, EStateM.run_get,
      EStateM.run_pure, hb]
  have hensure : (ensureOpen id).run t =
      if (t.node id).isCompiled then .error (.frozen (Group.shown ⟨path, members⟩)) t
      else .ok () t := by
    rw [ensureOpen, EStateM.run_bind]
    change EStateM.run (if (t.node id).isCompiled then _ else _) t = _
    split
    · rw [Node.shown, hb]
      rfl
    · rfl
  rw [EStateM.run_bind, hgroup]
  dsimp only
  rw [EStateM.run_bind, hensure]
  cases (t.node id).isCompiled <;> rfl

theorem run_addMember (id member : NodeId) : ∃ s,
    EStateM.run (do
      addMember id member
      return member) t = .ok member s ∧ ∀ other, (s.node other).form = (t.node other).form := by
  refine ⟨_, rfl, Table.forall_node_setNode
    (motive := fun other n ↦ n.form = (t.node other).form) ?_ fun _ ↦ rfl⟩
  rw [Node.form, Node.form]
  cases hb : (t.node id).body <;> simp only [hb]

/-- What is declared in an open group is the latest node. -/
theorem run_declared (make : Option RouterId → Action NodeId) {n : Node} {kept : List Value}
    (hopen : (t.node id).isCompiled = false) (hform : (t.node id).form = (false, path))
    (hmake : (make (t.node id).router).run t =
      .ok t.nodes.length { t with nodes := t.nodes ++ [n], cells := kept }) : ∃ s,
    EStateM.run (do
      discard (group id)
      ensureOpen id
      let member ← make (← node id).router
      addMember id member
      return member) t = .ok t.nodes.length s ∧ (s.node t.nodes.length).form = n.form := by
  obtain ⟨e, hrun⟩ := run_inGroup (α := NodeId) hform
  obtain ⟨s, hadd, hforms⟩ := run_addMember (t := { t with nodes := t.nodes ++ [n], cells := kept })
    id t.nodes.length
  refine ⟨s, ?_, ?_⟩
  · have hnode : (node id).run t = .ok (t.node id) t := rfl
    rw [hrun, hopen, if_neg Bool.false_ne_true, EStateM.run_bind, hnode]
    dsimp only
    rw [EStateM.run_bind, hmake]
    exact hadd
  · rw [hforms]
    exact congrArg Node.form (Table.node_append_length t n)

end Action

/-! ### Chains of groups -/

/-- The group that an operation makes, and the one that it is made in. -/
def Operation.grouping? (op : Operation) (t : Table) : Option (Option NodeId × DeclaredGroup) :=
  match op with
  | newGroup _ parent d => some (parent, d)
  | declareGroup outer d _ => some (some outer, d)
  | groupOn router d _ => some (some (t.router router).root, d)
  | _ => none

namespace Table

/-- The group is the innermost one of groups with some prefixes, outermost first, one made inside
the other. Anything else may have been done in between, and the groups of a router lie in one that
has no prefix. -/
inductive Nests : Table → NodeId → List Text → Prop where
  | router {t s : Table} {settings : Mapping} {rid : RouterId} : t.Reachable →
    (Operation.addRouter settings).run.run t = .ok (.router rid) s →
    Nests s (s.router rid).root []
  | outermost {t s : Table} {op : Operation} {id : NodeId} {d : DeclaredGroup} : t.Reachable →
    op.isFor t = true → op.grouping? t = some (none, d) → op.run.run t = .ok (.node id) s →
    Nests s id [d.rule]
  | inner {t s : Table} {op : Operation} {outer id : NodeId} {prefixes : List Text}
    {d : DeclaredGroup} : Nests t outer prefixes → op.isFor t = true →
    op.grouping? t = some (some outer, d) → op.run.run t = .ok (.node id) s →
    Nests s id (prefixes ++ [d.rule])
  | later {t : Table} {id : NodeId} {prefixes : List Text} {op : Operation} :
    Nests t id prefixes → op.isFor t = true → Nests (op.after t) id prefixes

theorem form_declareGroup {d : DeclaredGroup} (ht : t.Sound) (hid : t.hasNode outer = true)
    (hform : (t.node outer).form = (false, path))
    (hrun : (Action.declareGroup outer d).run t = .ok id s) :
    s.Sound ∧ s.hasNode id = true ∧ (s.node id).form = (false, Group.pathInside path d.rule) := by
  have hself : t.Follows [] t := ⟨ht, .refl t⟩
  have hends := Action.declareGroup_ends hself hid d
  rw [Action.Ends, hrun] at hends
  refine ⟨hends.1.sound, hends.2.2, ?_⟩
  obtain ⟨e, hclosed⟩ := Action.run_inGroup (α := NodeId) hform
  cases hc : (t.node outer).isCompiled with
  | true =>
    rw [Action.declareGroup, hclosed, hc, if_pos rfl] at hrun
    cases hrun
  | false =>
    obtain ⟨n, kept, hn, hmake⟩ := Action.run_newGroup (t.node outer).router
      (Action.run_pathOf hform) d
    obtain ⟨u, hrun', hu⟩ := Action.run_declared
      (fun router ↦ Action.newGroup router (some outer) d) hc hform hmake
    rw [Action.declareGroup, hrun'] at hrun
    cases hrun
    exact hu.trans hn

/-- What is declared in a group at once with it does not change its path. -/
theorem form_declareRules {rules : List Declared} (ht : t.Sound) (hid : t.hasNode id = true)
    (hrun : (Action.declareRules id rules).run t = .ok () s) :
    s.hasNode id = true ∧ (s.node id).form = (t.node id).form := by
  have hself : t.Follows [] t := ⟨ht, .refl t⟩
  have hends := Action.declareRules_ends hself hid rules
  rw [Action.Ends, hrun] at hends
  have hlt : id < t.nodes.length := of_decide_eq_true hid
  exact ⟨decide_eq_true (Nat.lt_of_lt_of_le hlt hends.later.nodes), hends.later.form hlt⟩

theorem run_groupOn {rid : RouterId} {d : DeclaredGroup}
    (hrun : (Action.groupOn rid d).run t = .ok id s) :
    (Action.declareGroup (t.router rid).root d).run t = .ok id s := by
  have hensure : (Action.ensureRouterOpen rid).run t =
      if (t.router rid).compiled then .error .closed t else .ok () t := by
    rw [Action.ensureRouterOpen, EStateM.run_bind]
    change EStateM.run (if (t.router rid).compiled then _ else _) t = _
    split <;> rfl
  rw [Action.groupOn, EStateM.run_bind, hensure] at hrun
  cases hc : (t.router rid).compiled with
  | true =>
    rw [hc] at hrun
    cases hrun
  | false =>
    rw [hc] at hrun
    exact hrun

theorem form_grouping {op : Operation} {d : DeclaredGroup} (ht : t.Sound)
    (hd : op.grouping? t = some (parent, d)) (hnone : parent = none → path = [])
    (hsome : ∀ p, parent = some p → t.hasNode p = true ∧ (t.node p).form = (false, path))
    (hrun : op.run.run t = .ok (.node id) s) :
    s.hasNode id = true ∧ (s.node id).form = (false, Group.pathInside path d.rule) := by
  have hdeclare : ∀ outer rules, parent = some outer → EStateM.run (do
      let inner ← Action.declareGroup outer d
      Action.declareRules inner rules
      return Outcome.node inner) t = .ok (.node id) s →
      s.hasNode id = true ∧ (s.node id).form = (false, Group.pathInside path d.rule) := by
    intro outer rules hp hrun
    obtain ⟨hid, hform⟩ := hsome outer hp
    obtain ⟨inner, u, hgroup, hrun⟩ := Action.exists_of_bind_ok hrun
    obtain ⟨_, v, hrules, hrun⟩ := Action.exists_of_bind_ok hrun
    cases hrun
    obtain ⟨hu, hinner, hpath⟩ := form_declareGroup ht hid hform hgroup
    obtain ⟨hv, hkept⟩ := form_declareRules hu hinner hrules
    exact ⟨hv, hkept.trans hpath⟩
  cases op with
  | newGroup router parent' d' =>
    cases hd
    have hpath : (Action.pathOf parent).run t = .ok path t := by
      cases parent with
      | none =>
        rw [hnone rfl]
        rfl
      | some p => exact Action.run_pathOf (hsome p rfl).2
    obtain ⟨n, kept, hn, hmake⟩ := Action.run_newGroup router hpath d
    rw [Operation.run, EStateM.run_bind, hmake] at hrun
    cases hrun
    refine ⟨by simp [hasNode], ?_⟩
    exact (congrArg Node.form (node_append_length t n)).trans hn
  | declareGroup outer d' rules =>
    cases hd
    exact hdeclare outer rules rfl hrun
  | groupOn router d' rules =>
    cases hd
    obtain ⟨inner, u, hgroup, hrun⟩ := Action.exists_of_bind_ok hrun
    refine hdeclare _ rules rfl ?_
    rw [EStateM.run_bind, run_groupOn hgroup]
    exact hrun
  | _ => cases hd

/-- A group of a reachable table that has the path of a chain of groups. -/
structure HasPath (t : Table) (id : NodeId) (prefixes : List Text) : Prop where
  reachable : t.Reachable
  hasNode : t.hasNode id = true
  form : (t.node id).form = (false, Group.pathAlong prefixes)

theorem hasPath_of_run {op : Operation} (ht : t.Reachable) (hop : op.isFor t = true)
    (hrun : op.run.run t = .ok (.node id) s)
    (h : s.hasNode id = true ∧ (s.node id).form = (false, Group.pathAlong prefixes)) :
    s.HasPath id prefixes :=
  ⟨Operation.after_of_run hrun ▸ ht.after hop, h.1, h.2⟩

theorem Nests.hasPath (h : t.Nests id prefixes) : t.HasPath id prefixes := by
  induction h with
  | @router t s settings rid ht hrun =>
    have hafter : ((Operation.addRouter settings).after t).Reachable := ht.after rfl
    have hreachable := Operation.after_of_run hrun ▸ hafter
    obtain ⟨router, u, hadd, hdone⟩ := Action.exists_of_bind_ok hrun
    cases hdone
    rw [Action.addRouter] at hadd
    cases hsettings : Config.ofMapping settings with
    | error e =>
      rw [hsettings] at hadd
      cases hadd
    | ok config =>
      rw [hsettings] at hadd
      cases hadd
      refine ⟨hreachable, by simp [Table.router, hasNode], ?_⟩
      simp only [Table.router, Table.node, List.getElem?_concat_length, Option.getD_some]
      rfl
  | outermost ht hop hd hrun =>
    refine hasPath_of_run ht hop hrun ?_
    exact form_grouping ht.sound hd (fun _ ↦ rfl) (fun _ hp ↦ by cases hp) hrun
  | inner _ hop hd hrun ih =>
    refine hasPath_of_run ih.reachable hop hrun ?_
    rw [Group.pathAlong_append]
    refine form_grouping ih.reachable.sound hd (fun hp ↦ by cases hp) (fun p hp ↦ ?_) hrun
    cases hp
    exact ⟨ih.hasNode, ih.form⟩
  | @later t id prefixes op _ hop ih =>
    have hfollows := op.follows_after ih.reachable.sound hop
    have hlt : id < t.nodes.length := of_decide_eq_true ih.hasNode
    exact ⟨ih.reachable.after hop, decide_eq_true (Nat.lt_of_lt_of_le hlt hfollows.later.nodes),
      (hfollows.later.form hlt).trans ih.form⟩

/-! ### Rules outside of groups -/

/-- The second rule lies outside of all groups, and has as its own what is in effect at the first
one. Neither has got further names for patterns. -/
structure Flattens (t : Table) (nested flat : NodeId) : Prop where
  isOpen : (t.node flat).isCompiled = false
  router : (t.node flat).router = (t.node nested).router
  parent : (t.node flat).parent = none
  target : (t.node flat).rule?.map Rule.target = (t.node nested).rule?.map Rule.target
  aliases : ∀ id ∈ [nested, flat], (t.node id).rule?.map Rule.aliases = some Template.builtIn
  options : (Action.effectiveOptions nested).outcome t = .ok (t.readAll (t.node flat).options)
  patterns : (t.node flat).patterns = t.effectivePatterns nested

theorem keys_of_effectiveOptions {m : Mapping}
    (h : (Action.effectiveOptions id).outcome t = .ok m) :
    t.namesAreKeys (t.lineage id) = true ∧ m = t.effectiveOptions id := by
  cases hk : t.namesAreKeys (t.lineage id) with
  | true =>
    rw [Action.outcome_effectiveOptions_of_keys hk] at h
    exact ⟨rfl, (Except.ok.inj h).symm⟩
  | false =>
    simp only [Action.outcome, Action.effectiveOptions, Action.effectiveSlots, EStateM.run_bind,
      EStateM.run_get, hk, Bool.false_eq_true, ↓reduceIte] at h
    cases h

theorem Flattens.twins {nested flat : NodeId} (h : t.Flattens nested flat) (ht : t.Grounded)
    (hform : (t.node flat).form = (t.node nested).form) : t.Twins nested flat := by
  obtain ⟨r, hr, ha⟩ := Option.map_eq_some_iff.mp (h.aliases nested (by simp))
  obtain ⟨r', hr', ha'⟩ := Option.map_eq_some_iff.mp (h.aliases flat (by simp))
  obtain ⟨hkeys, hoptions⟩ := keys_of_effectiveOptions h.options
  have hsnapshot : (t.node flat).snapshot = none := by simpa [Node.isCompiled] using h.isOpen
  have htext : r'.text = r.text := by
    rw [Node.form, Node.form, Node.body_of_rule? hr, Node.body_of_rule? hr'] at hform
    exact (Prod.mk.inj hform).2
  have htarget : r'.target = r.target := by
    have htarget := h.target
    rw [hr, hr'] at htarget
    exact Option.some.inj htarget
  have heffective : t.effectiveOptions flat = t.effectiveOptions nested := by
    rw [← hoptions, effectiveOptions, effectiveSlots_eq ht, hsnapshot, h.parent]
  have hpatterns : t.effectivePatterns flat = t.effectivePatterns nested := by
    rw [← h.patterns, effectivePatterns_eq ht, hsnapshot, h.parent]
  have hconfig : t.configOf (t.node flat) = t.configOf (t.node nested) := by
    rw [configOf, configOf, h.router]
  refine ⟨⟨_, _, by rw [inEffect?, hr, Option.map_some], by rw [inEffect?, hr', Option.map_some],
    ⟨r'.shownWith (Text.lower r'.method.plain), r.aliases, ?_⟩, fun complete ↦ ?_⟩, ?_⟩
  · rw [htext, htarget, heffective, hpatterns, hconfig, ha, ha']
  · rw [htext, htarget, heffective, hpatterns, hconfig, ha, ha']
    rfl
  · rw [hkeys, namesAreKeys_lineage ht, h.parent, Bool.or_true]

theorem exists_declareRule (ht : t.Sound) (hid : t.hasNode outer = true)
    (hopen : (t.node outer).isCompiled = false) (hform : (t.node outer).form = (false, path))
    (d : Declared) : ∃ rule s, (Action.declareRule outer d).run t = .ok rule s ∧ t.Follows [] s ∧
      s.hasNode rule = true ∧
      (s.node rule).form = (true, Rule.fullText path (Rule.withoutEndMark d.rule).1) := by
  obtain ⟨n, kept, hn, hmake⟩ := Action.run_newRule (t.node outer).router
    (Action.run_pathOf hform) d
  obtain ⟨s, hrun, hs⟩ := Action.run_declared
    (fun router ↦ Action.newRule router (some outer) d) hopen hform hmake
  have hself : t.Follows [] t := ⟨ht, .refl t⟩
  have hends := Action.declareRule_ends hself hid d
  rw [Action.declareRule, Action.Ends, hrun] at hends
  exact ⟨_, s, hrun, hends.1, hends.2.2, hs.trans hn⟩

theorem exists_newRule (ht : t.Sound) (hrouter : router.all t.hasRouter = true) (f : Declared) :
    ∃ rule s, (Action.newRule router none f).run t = .ok rule s ∧ t.Follows [] s ∧
      s.hasNode rule = true ∧
      (s.node rule).form = (true, Rule.fullText [] (Rule.withoutEndMark f.rule).1) := by
  have hpath : (Action.pathOf none).run t = .ok [] t := rfl
  have hself : t.Follows [] t := ⟨ht, .refl t⟩
  have hnone : (none : Option NodeId).all t.hasNode = true := rfl
  obtain ⟨n, kept, hn, hrun⟩ := Action.run_newRule router hpath f
  have hends := Action.newRule_ends hself hrouter hnone f
  rw [Action.Ends, hrun] at hends
  refine ⟨_, _, hrun, hends.follows, by simp [hasNode], ?_⟩
  exact (congrArg Node.form (node_append_length t n)).trans hn

/-- A rule that is declared in a group, and then the one that is declared outside of all groups. -/
theorem exists_flattened {inner : NodeId} {d f : Declared} (h : t.Nests inner prefixes)
    (hopen : (t.node inner).isCompiled = false)
    (hrule : Text.trim (· == '/') (Rule.withoutEndMark d.rule).1 ≠ [])
    (hf : f.rule = Rule.flattened prefixes d.rule) :
    ∃ nested s flat u text, (Action.declareRule inner d).run t = .ok nested s ∧
      (Action.newRule (t.node inner).router none f).run s = .ok flat u ∧ u.Sound ∧
      ∀ id ∈ [nested, flat], u.hasNode id = true ∧ (u.node id).form = (true, text) := by
  obtain ⟨ht, hinner, hform⟩ := h.hasPath
  obtain ⟨nested, s, hnested, hs, hid, htext⟩ :=
    exists_declareRule ht.sound hinner hopen hform d
  have hrouter : (t.node inner).router.all s.hasRouter = true := by
    obtain ⟨label, hlabel⟩ := ht.sound
    refine (Option.all_eq_true _ _).mpr fun r hr ↦ decide_eq_true ?_
    exact Nat.lt_of_lt_of_le ((hlabel.fits inner).router_lt hr) hs.later.routers
  obtain ⟨flat, u, hflat, hu, hid', htext'⟩ := exists_newRule hs.sound hrouter f
  rw [hf, Rule.withoutEndMark_flattened prefixes hrule, Rule.fullText_flattened prefixes hrule]
    at htext'
  refine ⟨nested, s, flat, u, Rule.fullText (Group.pathAlong prefixes)
    (Rule.withoutEndMark d.rule).1, hnested, hflat, hu.sound, ?_⟩
  intro id hmem
  rcases List.mem_pair.mp hmem with rfl | rfl
  · have hlt : id < s.nodes.length := of_decide_eq_true hid
    exact ⟨decide_eq_true (Nat.lt_of_lt_of_le hlt hu.later.nodes), (hu.later.form hlt).trans htext⟩
  · exact ⟨hid', htext'⟩

end Table

/-- Films by year, in two groups of which the inner one knows what a year is. -/
def Table.yearGroups : Table := empty.afterAll
  [.addRouter [], .groupOn 0 { rule := "/films/", options := [("cache", "60")] } [],
    .declareGroup 1 { rule := ":year", patterns := [("year", "int")] } []]

theorem nests_yearGroups : Table.yearGroups.Nests 2 ["/films/", ":year"] := by
  let films : Operation := .groupOn 0 { rule := "/films/", options := [("cache", "60")] } []
  let years : Operation := .declareGroup 1 { rule := ":year", patterns := [("year", "int")] } []
  let t : Table := (Operation.addRouter []).after .empty
  have hrouter : (Operation.addRouter []).run.run .empty = .ok (.router 0) t := rfl
  have hfilms : films.run.run t = .ok (.node 1) (films.after t) := rfl
  have hyears : years.run.run (films.after t) = .ok (.node 2) (years.after (films.after t)) := rfl
  exact ((Table.Nests.router ⟨[], rfl, rfl⟩ hrouter).inner rfl rfl hfilms).inner rfl rfl hyears

def Declared.film : Declared := { rule := ":id/$", target := "films/show" }

/-- The rule with everything that is in effect at it inside the groups. -/
def Declared.flatFilm : Declared where
  rule := "films/:year/:id/$"
  target := "films/show"
  options := [("cache", "60"), ("complete_match", .bool true)]
  patterns := [("year", "int")]

def Table.filmInGroups : Table := (Operation.declareRule 2 .film).after yearGroups

def Table.filmTwice : Table := (Operation.newRule (some 0) none .flatFilm).after filmInGroups

end UrlRouting

import UrlRouting.Proofs.Table.Domains
import UrlRouting.Proofs.Table.Failing

/-!
Sessions that give domains to some nodes in one way only: by the directive for domains, as texts
that are not empty, while nothing below is compiled. There both views of a domain agree, at open
nodes and at compiled ones, and admission goes by the domain that a node shows
(`domain_eq_option`). A compiled node then keeps the option, while the domain that it shows goes on
following its ancestors.
-/

namespace UrlRouting

open Http

variable {t s u : Table} {id : NodeId} {d : Directive} {moved : Option NodeId} {S : NodeId → Prop}

/-! ### Single changes -/

namespace Action

open Table

variable {router : Option RouterId} {parent : Option NodeId}

/-- A directive that does not name the domain leaves it alone. -/
theorem settled_apply (hd : S id → "domain".toList ∉ d.names) :
    Maintains (Settled S moved t) (d.apply id) := by
  refine Directive.Keeps.apply ⟨fun _ _ hs ↦ hs.of_nodes, fun s n hs hn ↦ ?_⟩
  have hdomain (hid : S id) : n.domain = (s.node id).domain := by
    refine hn.domain.resolve_right ?_
    rintro rfl
    exact hd hid (List.mem_singleton_self _)
  exact hs.setNode (fun hid p hp ↦ hs.closed id p hid (hn.parent ▸ hp))
    (fun hid ↦ (hs.own id hid).congr (hdomain hid) (hn.bindings _ (hd hid))) hn.snapshot
    fun hid ↦ .inr ⟨hdomain hid, hn.parent⟩

/-- The directive for domains binds the option to what it makes the domain of the node. -/
theorem settled_domain (h : t.DomainsAgree S) (hlt : id < t.nodes.length)
    (hopen : (t.node id).isCompiled = false) {name : Text} (hname : name ≠ []) :
    ((Directive.domain (.str name)).apply id).Ends t (fun _ ↦ Settled S (some id) t)
      (Settled S (some id) t) := by
  refine ends_open hopen ?_
  let given : Node := { t.node id with domain := .str name }
  let bound : Node := { given with options := given.options.set "domain" (.fixed (.str name)) }
  have hbound (hid : S id) : bound.KeepsDomain := by
    have honce : ((t.node id).options.bindings "domain").tail = [] :=
      List.eq_nil_of_length_eq_zero
        (by rw [List.length_tail, Nat.sub_eq_zero_of_le (h.own id hid).once])
    exact .inr ⟨name, hname, rfl, (Entries.bindings_set_self _ _ _).trans (by rw [honce])⟩
  -- Between the two writes the domain is in one place only, which no one sees.
  have hset : (t.setNode id given).setNode id bound = t.setNode id bound := by
    rw [Table.setNode, Table.setNode, List.set_set]
    rfl
  change Settled S (some id) t ((t.setNode id given).setNode id
    { (t.setNode id given).node id with
      options := ((t.setNode id given).node id).options.set "domain" (.fixed (.str name)) })
  rw [node_setNode_self hlt, hset]
  exact (Settled.refl h _).setNode (fun hid p hp ↦ h.closed id p hid hp) hbound rfl
    fun _ ↦ .inl rfl

/-! ### Declarations -/

theorem bindings_declaredOptions {given : Entries Slot} {name : Text}
    (hcomplete : name ≠ "complete_match".toList) (hmethod : name ≠ "method".toList)
    (complete : Bool) (method : Text) :
    (Rule.declaredOptions given complete method).bindings name = given.bindings name := by
  have hoptions : Entries.bindings
      (if complete then given.set "complete_match" (.fixed (.bool true)) else given) name =
        given.bindings name := by
    split
    · exact Entries.bindings_set_of_ne (fun he ↦ hcomplete (Value.str.inj he).symm) _ _
    · rfl
  rw [Rule.declaredOptions]
  split
  · exact hoptions
  · exact (Entries.bindings_set_of_ne (fun he ↦ hmethod (Value.str.inj he).symm) _ _).trans hoptions

/-- The next node is declared under the parent with the options: if it is one of the given nodes, so
is the parent, and the options name no domain. -/
def KeepsNext (S : NodeId → Prop) (count : Nat) (parent : Option NodeId) (options : Mapping) :
    Prop := S count → (∀ p ∈ parent, S p) ∧ "domain".toList ∉ Entries.textKeys options

/-- The table has settled, with so many nodes. -/
def SettledWith (S : NodeId → Prop) (moved : Option NodeId) (t : Table) (count : Nat) (s : Table) :
    Prop := Settled S moved t s ∧ s.nodes.length = count

theorem SettledWith.of_nodes {count : Nat} (hs : SettledWith S moved t count s)
    (hn : u.nodes = s.nodes) : SettledWith S moved t count u := ⟨hs.1.of_nodes hn, hn ▸ hs.2⟩

theorem Maintains.settled {count : Nat} {α : Type} {a : Action α}
    (ha : Maintains (SettledWith S moved t count) a) (hs : SettledWith S moved t count s) :
    a.Ends s (fun _ ↦ SettledWith S moved t count) (Settled S moved t) :=
  (ha s hs).mono_error fun _ h ↦ h.1

theorem settled_addMember {count : Nat} (hs : SettledWith S moved t count s) (id member : NodeId) :
    (addMember id member).Ends s (fun _ ↦ SettledWith S moved t count) (Settled S moved t) := by
  refine ⟨hs.1.reshape ?_, (length_setNode s id _).trans hs.2⟩
  dsimp only
  split <;> exact ⟨rfl, rfl, rfl, rfl⟩

theorem settled_add {count : Nat} (hs : SettledWith S moved t count s) {options : Mapping}
    (hnext : KeepsNext S count parent options) {f : Entries Slot → Node}
    (hf : ∀ slots, (f slots).parent = parent ∧ (f slots).domain = .null ∧
      (f slots).snapshot = none ∧
      (f slots).options.bindings "domain" = slots.bindings "domain") :
    (keepAll options >>= fun slots ↦ addNode (f slots)).Ends s
      (fun new u ↦ new = count ∧ SettledWith S moved t (count + 1) u) (Settled S moved t) := by
  refine ((keepAll_ends_textKeys (fun _ _ h ↦ h.of_nodes) hs options).mono_error
    fun _ h ↦ h.1).bind ?_
  rintro slots u ⟨⟨hu, hcount⟩, hslots⟩
  obtain ⟨hparent, hdomain, hsnapshot, hoptions⟩ := hf slots
  refine ⟨hcount, hu.addNode (fun hid p hp ↦ ?_) (fun hid ↦ .inl ⟨hdomain, ?_⟩) hsnapshot, ?_⟩
  · exact (hnext (hcount ▸ hid)).1 p (hparent ▸ hp)
  · exact hoptions.trans (Entries.bindings_of_not_mem (hslots ▸ (hnext (hcount ▸ hid)).2))
  · rw [List.length_append, hcount]
    rfl

theorem settled_newRule {count : Nat} (hs : SettledWith S moved t count s) {d : Declared}
    (hnext : KeepsNext S count parent d.options) : (newRule router parent d).Ends s
      (fun new u ↦ new = count ∧ SettledWith S moved t (count + 1) u) (Settled S moved t) := by
  refine ((Maintains.pathOf parent).settled hs).bind fun path u hu ↦ ?_
  exact settled_add hu hnext fun slots ↦
    ⟨rfl, rfl, rfl, bindings_declaredOptions (by decide) (by decide) _ _⟩

theorem settled_newGroup {count : Nat} (hs : SettledWith S moved t count s) {d : DeclaredGroup}
    (hnext : KeepsNext S count parent d.options) : (newGroup router parent d).Ends s
      (fun new u ↦ new = count ∧ SettledWith S moved t (count + 1) u) (Settled S moved t) := by
  refine ((Maintains.pathOf parent).settled hs).bind fun path u hu ↦ ?_
  exact settled_add hu hnext fun slots ↦ ⟨rfl, rfl, rfl, rfl⟩

theorem settled_declared {count : Nat} (hs : SettledWith S moved t count s)
    {f : Option RouterId → Action NodeId} (hf : ∀ router u, SettledWith S moved t count u →
      (f router).Ends u (fun new v ↦ new = count ∧ SettledWith S moved t (count + 1) v)
        (Settled S moved t)) :
    Ends (do
      discard (group id)
      ensureOpen id
      let member ← f (← node id).router
      addMember id member
      return member) s (fun new u ↦ new = count ∧ SettledWith S moved t (count + 1) u)
        (Settled S moved t) := by
  refine ((Maintains.group id).ignoring.settled hs).bind fun _ u hu ↦ ?_
  refine ((Maintains.ensureOpen id).settled hu).bind fun _ v hv ↦ .node_bind ?_
  refine (hf _ v hv).bind fun member w hw ↦ ?_
  exact (settled_addMember hw.2 id member).bind fun _ _ hx ↦ ⟨hw.1, hx⟩

theorem settled_declareRule {count : Nat} (hs : SettledWith S moved t count s) {d : Declared}
    (hnext : KeepsNext S count (some id) d.options) : (declareRule id d).Ends s
      (fun new u ↦ new = count ∧ SettledWith S moved t (count + 1) u) (Settled S moved t) :=
  settled_declared (f := fun router ↦ newRule router (some id) d) hs
    fun _ _ hu ↦ settled_newRule hu hnext

theorem settled_declareRules {count : Nat} (hs : SettledWith S moved t count s)
    {ds : List Declared} (hds : ∀ i d, ds[i]? = some d →
      KeepsNext S (count + i) (some id) d.options) :
    (declareRules id ds).Ends s (fun _ ↦ Settled S moved t) (Settled S moved t) := by
  induction ds generalizing s count with
  | nil => exact hs.1
  | cons d rest ih =>
    have hfirst : (discard (declareRule id d)).Ends s (fun _ ↦ SettledWith S moved t (count + 1))
        (Settled S moved t) := ends_discard.mpr
      ((settled_declareRule hs (hds 0 d rfl)).mono (fun _ _ h ↦ h.2) fun _ h ↦ h)
    refine hfirst.bind fun _ u hu ↦ ih hu fun i d hd ↦ ?_
    rw [Nat.add_right_comm]
    exact hds (i + 1) d hd

theorem settled_declareGroup {count : Nat} (hs : SettledWith S moved t count s)
    {d : DeclaredGroup} (hnext : KeepsNext S count (some id) d.options) : (declareGroup id d).Ends s
      (fun new u ↦ new = count ∧ SettledWith S moved t (count + 1) u) (Settled S moved t) :=
  settled_declared (f := fun router ↦ newGroup router (some id) d) hs
    fun _ _ hu ↦ settled_newGroup hu hnext

theorem settled_addRouter {count : Nat} (hs : SettledWith S moved t count s) (settings : Mapping) :
    (addRouter settings).Ends s (fun _ ↦ Settled S moved t) (Settled S moved t) := by
  refine ends_bind.mpr (ends_ofExcept (fun config ↦ ?_) hs.1)
  have hnext : KeepsNext S count none [] := fun _ ↦ ⟨nofun, List.not_mem_nil⟩
  exact .get_bind ((settled_newGroup hs hnext).bind fun root u hu ↦ hu.2.1.of_nodes rfl)

/-! ### Moving and restoring -/

/-- A rule takes its own domain along. -/
theorem settled_bind (hparent : S id → ∀ p ∈ parent, S p) :
    Maintains (Settled S (some id) t) (bind id router parent) :=
  (Maintains.rule id).ignoring.bind fun _ ↦ (Maintains.ensureOpen id).bind fun _ _ hs ↦
    hs.setNode hparent (fun hid ↦ (hs.own id hid).congr rfl rfl) rfl fun _ ↦ .inl rfl

/-- A restored rule has no domain as a part of it. -/
theorem settled_restore {count : Nat} (hs : SettledWith S moved t count s) {state : RuleState}
    (hnext : S count → "domain".toList ∉ state.options.textKeys) :
    (restore state).Ends s (fun _ ↦ Settled S moved t) (Settled S moved t) :=
  hs.1.addNode (fun _ _ hp ↦ absurd hp nofun)
    (fun hid ↦ .inl ⟨rfl, Entries.bindings_of_not_mem (hnext (hs.2 ▸ hid))⟩) rfl

theorem settled_readState {count : Nat} (hs : SettledWith S moved t count s) {m : Mapping}
    (hm : S count → ∀ given options, m.named? "option" = some given →
      given.orEmpty.toMapping = .ok options → "domain".toList ∉ options.textKeys) :
    (readState m).Ends s (fun state u ↦ SettledWith S moved t count u ∧
      (S count → "domain".toList ∉ state.options.textKeys)) (SettledWith S moved t count) := by
  rw [readState, ends_bind, member]
  cases hgiven : m.named? "option" with
  | none => exact hs
  | some given =>
    refine (maintains_member _ m _ s hs).bind fun patterns u hu ↦ ends_bind.mpr ?_
    cases hoptions : given.orEmpty.toMapping with
    | error e => exact hu
    | ok options =>
      refine (keepAll_ends_textKeys (fun _ _ h ↦ h.of_nodes) hu options).bind fun slots u hu ↦ ?_
      have hslots (hcount : S count) : "domain".toList ∉ slots.textKeys :=
        hu.2 ▸ hm hcount given options hgiven hoptions
      refine (Maintains.ofExcept _ u hu.1).bind fun patterns u hu ↦ ?_
      refine (maintains_member _ m _ u hu).bind fun name u hu ↦ ?_
      refine (maintains_member _ m _ u hu).bind fun text u hu ↦ ?_
      refine (maintains_member _ m _ u hu).bind fun target u hu ↦ ?_
      refine (maintains_member _ m _ u hu).bind fun method u hu ↦ ?_
      cases text with
      | str text => exact ⟨hu, hslots⟩
      | _ => exact hu

end Action

/-! ### Operations -/

/-- A directive that the node is given: domains are given as texts that are not empty, while no
given node is compiled below, and no other directive names the option. -/
def Directive.KeepsDomains (d : Directive) (S : NodeId → Prop) (t : Table) (id : NodeId) : Prop :=
  match d with
  | domain given => (∃ name : Text, name ≠ [] ∧ given = .str name) ∧
      ∀ other, S other → t.Above id other → (t.node other).isCompiled = false
  | _ => "domain".toList ∉ d.names

/-- The operation gives domains to the given nodes by the directive for them only: if it configures
one that is open, by a directive that keeps domains, and if it adds, restores or moves one, to a
parent among them and with options that name no domain. -/
def Operation.KeepsDomains (op : Operation) (S : NodeId → Prop) (t : Table) : Prop :=
  match op with
  | newRule _ parent d => Action.KeepsNext S t.nodes.length parent d.options
  | newGroup _ parent d => Action.KeepsNext S t.nodes.length parent d.options
  | declareRule group d => Action.KeepsNext S t.nodes.length (some group) d.options
  | routeOn router d =>
    Action.KeepsNext S t.nodes.length (some (t.router router).root) d.options
  | declareGroup group d rules =>
    Action.KeepsNext S t.nodes.length (some group) d.options ∧
      ∀ i r, rules[i]? = some r →
        Action.KeepsNext S (t.nodes.length + 1 + i) (some t.nodes.length) r.options
  | groupOn router d rules =>
    Action.KeepsNext S t.nodes.length (some (t.router router).root) d.options ∧
      ∀ i r, rules[i]? = some r →
        Action.KeepsNext S (t.nodes.length + 1 + i) (some t.nodes.length) r.options
  | call node word args => S node → (t.node node).isCompiled = false →
      ∀ d, t.directive? node word args = some d → d.KeepsDomains S t node
  | bind rule _ parent => S rule → ∀ p ∈ parent, S p
  | copy rule => S t.nodes.length → "domain".toList ∉ (t.node rule).options.textKeys
  | restore state => S t.nodes.length → ∀ given options, state.named? "option" = some given →
      given.orEmpty.toMapping = .ok options → "domain".toList ∉ Entries.textKeys options
  | _ => True

/-- Each operation keeps domains, one after the other. -/
def Table.KeepsDomains (S : NodeId → Prop) (t : Table) : List Operation → Prop
  | [] => True
  | op :: rest => op.KeepsDomains S t ∧ (op.after t).KeepsDomains S rest

/-- The table has settled but for one node at most, with nothing compiled below that one. -/
def Table.Settles (S : NodeId → Prop) (t s : Table) : Prop := ∃ moved, Settled S moved t s ∧
  ∀ node ∈ moved, ∀ other, S other → t.Above node other → (t.node other).isCompiled = false

theorem Table.Settled.settles (h : Table.Settled S none t s) : Table.Settles S t s :=
  ⟨none, h, nofun⟩

namespace Action

open Table

theorem Ends.settles {α : Type} {a : Action α}
    (h : a.Ends t (fun _ ↦ Settled S none t) (Settled S none t)) :
    a.Ends t (fun _ ↦ Settles S t) (Settles S t) :=
  h.mono (fun _ _ hs ↦ hs.settles) fun _ hs ↦ hs.settles

/-- The domains of other nodes and of compiled ones do not matter here: the latter are refused. -/
theorem settles_apply (h : t.DomainsAgree S) (hlt : id < t.nodes.length)
    (hrule : d.isForRules = true → t.isRule id = true)
    (hd : S id → (t.node id).isCompiled = false → d.KeepsDomains S t id) :
    (d.apply id).Ends t (fun _ ↦ Settles S t) (Settles S t) := by
  have hrefl : Settled S none t t := .refl h none
  cases hc : (t.node id).isCompiled with
  | true =>
    -- What is for the router is not refused, and leaves the node alone.
    cases hrouter : d.isForRouter with
    | true =>
      cases d with
      | everywhere => exact (settled_apply (fun _ ↦ List.not_mem_nil) t hrefl).settles
      | _ => cases hrouter
    | false =>
      obtain ⟨e, he, -⟩ := apply_of_isCompiled hc d hrouter hrule
      rw [Ends, he]
      exact hrefl.settles
  | false =>
    by_cases hid : S id
    · have hkeeps := hd hid hc
      cases d with
      | domain given =>
        obtain ⟨⟨name, hname, rfl⟩, hopen⟩ := hkeeps
        have hsettled (s : Table) (hs : Settled S (some id) t s) : Settles S t s :=
          ⟨_, hs, fun node hnode ↦ Option.some.inj hnode ▸ hopen⟩
        exact (settled_domain h hlt hc hname).mono (fun _ ↦ hsettled) hsettled
      | _ => exact (settled_apply (fun _ ↦ hkeeps) t hrefl).settles
    · exact (settled_apply (fun h ↦ absurd h hid) t hrefl).settles

theorem settles_call (h : t.DomainsAgree S) (hlt : id < t.nodes.length) {word : Text}
    {args : Arguments} (hreader : (Directive.reader? (t.isRule id) word).isSome = true)
    (hd : S id → (t.node id).isCompiled = false →
      ∀ d, t.directive? id word args = some d → d.KeepsDomains S t id) :
    (call id word args).Ends t (fun _ ↦ Settles S t) (Settles S t) := by
  obtain ⟨reader, hreader⟩ := Option.isSome_iff_exists.mp hreader
  cases hread : reader args with
  | error e =>
    refine .get_bind ?_
    rw [hreader]
    dsimp only
    rw [hread]
    exact (Settled.refl h none).settles
  | ok d =>
    have hdirective : t.directive? id word args = some d := by
      rw [directive?, hreader, Option.bind_some, hread]
      rfl
    rw [Ends, call_of_reader hreader hread]
    exact (settles_apply h hlt (Directive.isRule_of_reader? hreader hread)
      fun hid hc ↦ hd hid hc d hdirective).bind fun _ _ hs ↦ hs

/-- Only an open rule can be moved, and no other node is below it. -/
theorem settles_bind (h : t.DomainsAgree S) (ht : t.Grounded) {router : Option RouterId}
    {parent : Option NodeId} (hparent : S id → ∀ p ∈ parent, S p) :
    (bind id router parent).Ends t (fun _ ↦ Settles S t) (Settles S t) := by
  have hrefl : Settles S t t := (Settled.refl h none).settles
  cases hr : (t.node id).rule? with
  | none =>
    refine ends_bind.mpr (ends_bind.mpr (.node_bind ?_))
    rw [hr]
    exact hrefl
  | some r =>
    cases hc : (t.node id).isCompiled with
    | true =>
      refine ends_rule hr ?_
      rw [Ends, bind_of_error (ensureOpen_of_isCompiled hc)]
      exact hrefl
    | false =>
      have hsettled (s : Table) (hs : Settled S (some id) t s) : Settles S t s := by
        refine ⟨_, hs, fun node hnode other _ hother ↦ ?_⟩
        cases hnode
        rw [hother.eq_of_isRule ht (by rw [hr, Option.isSome_some])]
        exact hc
      exact (settled_bind hparent t (.refl h _)).mono (fun _ ↦ hsettled) hsettled

end Action

namespace Operation

open UrlRouting.Action

/-- On a router that is open, what is declared next is declared in its outermost group. -/
theorem ends_onRouter {α : Type} {router : RouterId} {f : NodeId → Action α}
    {Q : α → Table → Prop} {E : Table → Prop} (ht : E t)
    (hf : (f (t.router router).root).Ends t Q E) :
    Ends (do ensureRouterOpen router; f (← Action.router router).root) t Q E := by
  rw [ensureRouterOpen, ends_bind, ends_bind]
  change Ends (if (t.router router).compiled then _ else _) t _ _
  split
  · exact ht
  · exact .router_bind hf

theorem run_settles {op : Operation} (h : t.DomainsAgree S) (ht : t.Grounded)
    (hop : op.isFor t = true) (hasks : op.asks t = false) (hkeeps : op.KeepsDomains S t) :
    op.run.Ends t (fun _ ↦ Table.Settles S t) (Table.Settles S t) := by
  have hrefl : Table.Settled S none t t := .refl h none
  have hs : SettledWith S none t t.nodes.length t := ⟨hrefl, rfl⟩
  have hrules {a : Action NodeId} {rules : List Declared}
      (ha : a.Ends t (fun new u ↦ new = t.nodes.length ∧
        SettledWith S none t (t.nodes.length + 1) u) (Table.Settled S none t))
      (h : ∀ i r, rules[i]? = some r →
        KeepsNext S (t.nodes.length + 1 + i) (some t.nodes.length) r.options) :
      Ends (do
        let inner ← a
        declareRules inner rules
        return Outcome.node inner) t (fun _ ↦ Table.Settles S t) (Table.Settles S t) := by
    refine Ends.settles (ha.bind ?_)
    rintro _ u ⟨rfl, hu⟩
    exact (settled_declareRules hu h).bind fun _ _ hs ↦ hs
  cases op with
  | addRouter settings => exact Ends.settles ((settled_addRouter hs settings).bind fun _ _ hs ↦ hs)
  | newRule router parent d =>
    exact Ends.settles ((settled_newRule hs hkeeps).bind fun _ _ hs ↦ hs.2.1)
  | newGroup router parent d =>
    exact Ends.settles ((settled_newGroup hs hkeeps).bind fun _ _ hs ↦ hs.2.1)
  | declareRule group d =>
    exact Ends.settles ((settled_declareRule hs hkeeps).bind fun _ _ hs ↦ hs.2.1)
  | declareGroup group d rules => exact hrules (settled_declareGroup hs hkeeps.1) hkeeps.2
  | routeOn router d =>
    have hroute := settled_declareRule hs hkeeps
    exact Ends.settles ((ends_onRouter (f := (Action.declareRule · d)) hrefl hroute).bind
      fun _ _ hs ↦ hs.2.1)
  | groupOn router d rules =>
    exact hrules (ends_onRouter (f := (Action.declareGroup · d)) hrefl
      (settled_declareGroup hs hkeeps.1)) hkeeps.2
  | call node word args =>
    have hreader : (Directive.reader? (t.isRule node) word).isSome = true := by
      rwa [asks, Option.isNone_eq_false_iff] at hasks
    exact (settles_call h (of_decide_eq_true hop) hreader hkeeps).bind fun _ _ hs ↦ hs
  | addEverywhere router rule =>
    refine Ends.settles (Ends.bind ?_ fun _ _ hs ↦ hs)
    exact ((Maintains.ensureRouterOpen router).bind fun _ _ hs ↦ hs.of_nodes rfl) t hrefl
  | bind rule router parent => exact (settles_bind h ht hkeeps).bind fun _ _ hs ↦ hs
  | copy rule =>
    refine Ends.settles ?_
    refine ((stateOf_ends t rule).mono_error fun s hs ↦ hs ▸ hrefl).bind ?_
    rintro state _ ⟨rfl, hoptions⟩
    exact (settled_restore hs fun hnext ↦ hoptions ▸ hkeeps hnext).bind fun _ _ hs ↦ hs
  | restore state =>
    refine Ends.settles ?_
    refine ((settled_readState hs hkeeps).mono_error fun _ h ↦ h.1).bind ?_
    exact fun state u hu ↦ (settled_restore hu.1 hu.2).bind fun _ _ hs ↦ hs
  | _ => cases hasks

end Operation

namespace Table

theorem DomainsAgree.after {op : Operation} (h : t.DomainsAgree S) (ht : t.Sound)
    (hop : op.isFor t = true) (hkeeps : op.KeepsDomains S t) : (op.after t).DomainsAgree S := by
  cases hasks : op.asks t with
  | true =>
    have hahead : t.Ahead (op.after t) :=
      Operation.after_of_ends (op.run_asking steady_ahead hasks ⟨ht, .refl t⟩)
    exact h.of_advanced ht.grounded hahead.sound.grounded hahead.advanced
  | false =>
    obtain ⟨moved, hsettled, hopen⟩ :=
      Operation.after_of_ends (Operation.run_settles h ht.grounded hop hasks hkeeps)
    exact h.of_settled ht (op.follows_after ht hop) hsettled hopen

theorem DomainsAgree.afterAll {ops : List Operation} (h : t.DomainsAgree S) (ht : t.Sound)
    (hops : t.admits ops = true) (hkeeps : t.KeepsDomains S ops) :
    (t.afterAll ops).DomainsAgree S := by
  induction ops generalizing t with
  | nil => exact h
  | cons op rest ih =>
    obtain ⟨hop, hrest⟩ := Bool.and_eq_true_iff.mp hops
    exact ih (h.after ht hop hkeeps.1) (op.follows_after ht hop).sound hrest hkeeps.2

/-- The domain among the options in effect at a node, an absent one counting as the empty text. -/
def domainOption (t : Table) (id : NodeId) : Value :=
  ((t.effectiveOptions id).named? "domain").getD (.str [])

end Table

/-- The request is for the domain; where that is empty, every request is. -/
def Http.Request.isOn (request : Request) (domain : Value) : Bool :=
  !domain.isTruthy || domain.same (.str request.hostName) || domain.same (.str request.subDomain)

theorem passesDomain_of_named? {m : Mapping} {domain : Option Value}
    (h : m.named? "domain" = domain) (htruthy : ∀ v ∈ domain, v.isTruthy = true)
    (request : Request) :
    Check.passesDomain m request = request.isOn (domain.getD (.str [])) := by
  rw [Check.passesDomain, Request.isOn, Mapping.named, h]
  cases domain with
  | none => rfl
  | some v =>
    have htruthy := htruthy v rfl
    have hnull : v.isNull = false := by
      cases v with
      | null => cases htruthy
      | _ => rfl
    rw [Option.getD_some, Option.getD_some, htruthy, hnull]
    rfl

/-- In a session that gives domains to some nodes by the directive for them only, the domain of each
of these nodes is the option in effect at it and what admission goes by. A compiled one keeps the
option, whatever is done. -/
theorem domain_eq_option {ops more : List Operation}
    (hops : Table.empty.admits (ops ++ more) = true) (hkeeps : Table.empty.KeepsDomains S ops)
    (id : NodeId) (hid : S id) :
    (Table.empty.afterAll ops).domainOption id = (Table.empty.afterAll ops).domain id ∧
    (∀ c, (Table.empty.afterAll ops).ruleAt id = .ok c → ∀ request,
      Check.passesDomain c.options request =
        request.isOn ((Table.empty.afterAll ops).domain id)) ∧
    (((Table.empty.afterAll ops).node id).isCompiled = true →
      (Table.empty.afterAll (ops ++ more)).domainOption id =
        (Table.empty.afterAll ops).domain id) := by
  rw [Table.admits_append, Bool.and_eq_true] at hops
  have ht := (Table.follows_afterAll ops Table.sound_empty hops.1).sound
  have hagree := (Table.domainsAgree_empty S).afterAll Table.sound_empty hops.1 hkeeps
  have hnamed := hagree.named?_effective ht.grounded hid
  rw [Table.domain_eq, Table.domainOption, Table.domainOption]
  refine ⟨by rw [hnamed], fun c hc ↦ ?_, fun hc ↦ ?_⟩
  · rw [← Table.options_of_ruleAt hc] at hnamed
    exact passesDomain_of_named? hnamed fun _ ↦ List.find?_some
  · have hlater := (Table.follows_afterAll more ht hops.2).named?_domain ht hc
    rw [Table.afterAll, List.foldl_append]
    exact congrArg (Option.getD · _) (hlater.trans hnamed)

/-- A group on a domain, a compiled rule in it, and a rule outside of it that is declared with a
domain among its options. -/
def Operation.onDomain : List Operation :=
  [.addRouter [], .groupOn 0 { rule := "v1" } [], .call 1 "set_domain" ⟨["api"], []⟩,
    .declareRule 1 { rule := "x", target := "x" }, .compile 2,
    .routeOn 0 { rule := "y", target := "y", options := [("domain", "api")] }]

theorem keepsDomains_onDomain : Table.empty.KeepsDomains (· < 3) Operation.onDomain := by
  let t : Table := Table.empty.afterAll (Operation.onDomain.take 2)
  have hopen (id : NodeId) : (t.node id).isCompiled = false := by
    rw [Table.node]
    cases hn : t.nodes[id]? with
    | none => rfl
    | some n =>
      have hall : ∀ n ∈ t.nodes, n.isCompiled = false := by decide
      exact hall n (List.mem_of_getElem? hn)
  have hgiven : ∀ d, t.directive? 1 "set_domain".toList ⟨["api"], []⟩ = some d →
      d.KeepsDomains (· < 3) t 1 := by
    rintro d ⟨⟩
    exact ⟨⟨"api".toList, by decide, rfl⟩, fun other _ _ ↦ hopen other⟩
  have hrules (i : Nat) (r : Declared) (hr : ([] : List Declared)[i]? = some r) :
      Action.KeepsNext (· < 3) (1 + 1 + i) (some 1) r.options := by
    rw [List.getElem?_nil] at hr
    cases hr
  refine ⟨trivial, ⟨fun _ ↦ ⟨?_, List.not_mem_nil⟩, hrules⟩, fun _ _ ↦ hgiven,
    fun _ ↦ ⟨?_, List.not_mem_nil⟩, trivial, fun hlt ↦ absurd hlt (by decide), trivial⟩
  · rintro _ ⟨⟩
    decide
  · rintro _ ⟨⟩
    decide

/-- The group moves to another domain, and takes the property of the compiled rule along. -/
theorem domain_eq_option_onDomain : ∃ more : List Operation,
    Table.empty.admits (Operation.onDomain ++ more) = true ∧
    Table.empty.KeepsDomains (· < 3) Operation.onDomain ∧
    (Table.empty.afterAll Operation.onDomain).domain 2 = "api" ∧
    (Table.empty.afterAll Operation.onDomain).domainOption 2 = "api" ∧
    (Table.empty.afterAll (Operation.onDomain ++ more)).domain 2 = "www" ∧
    (Table.empty.afterAll (Operation.onDomain ++ more)).domainOption 2 = "api" := by
  have hops : Table.empty.admits
      (Operation.onDomain ++ [.call 1 "set_domain" ⟨["www"], []⟩]) = true := by decide
  obtain ⟨hoption, -, hkept⟩ := domain_eq_option hops keepsDomains_onDomain 2 (by decide)
  exact ⟨_, hops, keepsDomains_onDomain, rfl, hoption, rfl, hkept (by decide)⟩

/-- The two views of the domain of a compiled rule differ once its group has moved. -/
theorem not_forall_domain_eq_option : ¬∀ (t : Table) (id : NodeId), t.Reachable →
    t.domainOption id = t.domain id := by
  intro h
  have hsame := h (Table.empty.afterAll [.addRouter [], .groupOn 0 { rule := "v1" } [],
    .declareRule 1 { rule := "x", target := "x" }, .compile 2,
    .call 1 "set_domain" ⟨["api"], []⟩]) 2 ⟨_, by decide, rfl⟩
  exact absurd (congrArg Value.text? hsame) (by decide)

end UrlRouting

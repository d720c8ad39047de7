import UrlRouting.Proofs.Table.Local

/-!
The two places where a domain is kept: as a part of the node that it is given to, and among the own
options of that node, which admission goes by. Each is inherited in its own way. Both say the same
at a node if they do at each of its ancestors and no ancestor has been given another domain since
the node was compiled: `DomainsAgree.named?_effective`, and `DomainsAgree.of_settled` for what
changes it.
-/

namespace UrlRouting

variable {t s u : Table} {id other : NodeId} {n : Node} {moved : Option NodeId}
  {S : NodeId → Prop}

/-! ### Own domains -/

namespace Node

/-- The own domain of a node, if it has one. -/
def domain? (n : Node) : Option Value := if n.domain.isTruthy then some n.domain else none

/-- The node has a domain neither as a part of it nor among its own options, or it has one as both,
which is a text that is not empty. -/
def KeepsDomain (n : Node) : Prop :=
  n.domain = .null ∧ n.options.bindings "domain" = [] ∨
    ∃ name : Text, name ≠ [] ∧ n.domain = .str name ∧
      n.options.bindings "domain" = [.fixed (.str name)]

theorem keepsDomain_default : KeepsDomain default := .inl ⟨rfl, rfl⟩

namespace KeepsDomain

theorem congr {m : Node} (h : n.KeepsDomain) (hdomain : m.domain = n.domain)
    (hoptions : m.options.bindings "domain" = n.options.bindings "domain") : m.KeepsDomain := by
  rwa [KeepsDomain, hdomain, hoptions]

theorem once (h : n.KeepsDomain) : (n.options.bindings "domain").length ≤ 1 := by
  rcases h with ⟨-, hoptions⟩ | ⟨name, -, -, hoptions⟩
  · exact hoptions ▸ Nat.zero_le 1
  · exact hoptions ▸ Nat.le_refl 1

theorem named?_own (h : n.KeepsDomain) (t : Table) :
    (t.readAll n.options).named? "domain" = n.domain? := by
  rw [Entries.named?, Table.get?_readAll, ← Entries.head?_bindings, domain?]
  rcases h with ⟨hdomain, hoptions⟩ | ⟨name, hne, hdomain, hoptions⟩
  · rw [hdomain, hoptions]
    rfl
  · rw [hdomain, hoptions, Value.isTruthy, List.isEmpty_eq_false_iff.mpr hne]
    rfl

/-- An own domain is no list and no map, and wins also where domains are merged. -/
theorem combined?_own (h : n.KeepsDomain) (merges : Bool) (above : Option Value) :
    Options.combined? merges above n.domain? = n.domain?.or above := by
  have hmerge (v : Value) (name : Text) : Options.mergeValue v (.str name) = .str name := by
    cases v <;> rfl
  rw [domain?]
  rcases h with ⟨hdomain, -⟩ | ⟨name, hne, hdomain, -⟩
  · rw [hdomain]
    cases above <;> rfl
  · rw [hdomain, Value.isTruthy, List.isEmpty_eq_false_iff.mpr hne]
    cases above with
    | none => rfl
    | some v => cases merges <;> simp [Options.combined?, hmerge]

end KeepsDomain

end Node

namespace Table

/-! ### Inherited domains -/

/-- The own domain of a node, or else that of its nearest ancestor that has one. -/
def domain? (t : Table) (id : NodeId) : Option Value :=
  ((t.lineage id).map Node.domain).find? Value.isTruthy

theorem domain_eq (t : Table) (id : NodeId) : t.domain id = (t.domain? id).getD (.str []) := rfl

theorem domain?_eq (h : t.Grounded) (id : NodeId) :
    t.domain? id = (t.node id).domain?.or ((t.node id).parent.bind t.domain?) := by
  rw [domain?, lineage_eq h, List.map_cons, List.find?_cons, Node.domain?]
  cases (t.node id).domain.isTruthy with
  | true => rfl
  | false => cases (t.node id).parent <;> rfl

/-- The node is the other one or an ancestor of it. -/
inductive Above (t : Table) (id : NodeId) : NodeId → Prop where
  | self : t.Above id id
  | member {other parent : NodeId} (hparent : (t.node other).parent = some parent)
      (h : t.Above id parent) : t.Above id other

theorem Above.lt (h : t.Above id other) (ht : t.Grounded) (hlt : other < t.nodes.length) :
    id < t.nodes.length := by
  induction h with
  | self => exact hlt
  | member hparent _ ih => exact ih (ht.parent_lt hparent)

/-- A node that is no parent is above no other one. -/
theorem Above.eq_of_isRule (h : t.Above id other) (ht : t.Grounded)
    (hrule : (t.node id).rule?.isSome = true) : other = id := by
  induction h with
  | self => rfl
  | member hparent _ ih =>
    rw [ih] at hparent
    rw [ht.parent_group hparent] at hrule
    cases hrule

theorem domain?_congr (ht : t.Grounded) (hs : s.Grounded)
    (h : ∀ other, t.Above other id →
      (s.node other).domain = (t.node other).domain ∧
        (s.node other).parent = (t.node other).parent) :
    s.domain? id = t.domain? id := by
  induction id using ht.induction with
  | step id ih =>
    obtain ⟨hdomain, hparent⟩ := h id .self
    rw [domain?_eq hs, domain?_eq ht, Node.domain?, Node.domain?, hdomain, hparent]
    cases hp : (t.node id).parent with
    | none => rfl
    | some p =>
      have habove := ih p hp fun other hother ↦ h other (.member hp hother)
      rw [Option.bind_some, Option.bind_some, habove]

/-! ### Both views of a domain -/

/-- Nodes that have their parents among them. Every one of them keeps its own domain in both places,
and a compiled one keeps the domain that it inherits. -/
structure DomainsAgree (S : NodeId → Prop) (t : Table) : Prop where
  closed : ∀ id p, S id → (t.node id).parent = some p → S p
  own : ∀ id, S id → (t.node id).KeepsDomain
  kept : ∀ id, S id → (t.node id).isCompiled = true →
    (t.effectiveOptions id).named? "domain" = t.domain? id

theorem domainsAgree_empty (S : NodeId → Prop) : empty.DomainsAgree S where
  closed _ _ _ hp := absurd hp nofun
  own _ _ := Node.keepsDomain_default
  kept _ _ hc := absurd hc nofun

namespace DomainsAgree

theorem of_above (h : t.DomainsAgree S) (hid : S id) (hother : t.Above other id) : S other := by
  induction hother with
  | self => exact hid
  | member hparent _ ih => exact ih (h.closed _ _ hid hparent)

/-- The domain among the options in effect at a node is the one that it has or inherits. -/
theorem named?_effective (h : t.DomainsAgree S) (ht : t.Grounded) (hid : S id) :
    (t.effectiveOptions id).named? "domain" = t.domain? id := by
  induction id using ht.induction with
  | step id ih =>
    cases hsnapshot : (t.node id).snapshot with
    | some snapshot => exact h.kept id hid (isCompiled_of_snapshot hsnapshot)
    | none =>
      have hown := (h.own id hid).named?_own t
      rw [effectiveOptions_eq ht, domain?_eq ht, hsnapshot]
      cases hparent : (t.node id).parent with
      | none =>
        rw [Option.bind_none, Option.or_none]
        exact hown
      | some p =>
        have honce : (Entries.bindings (t.ownOptions id) "domain").length ≤ 1 := by
          rw [Entries.length_bindings, ownOptions, textKeys_readAll, ← Entries.length_bindings]
          exact (h.own id hid).once
        change Entries.named? (Options.combine _ _ _) "domain" = _
        rw [Options.named?_combine_of_once honce, ih p hparent (h.closed id p hid hparent),
          ownOptions, hown, (h.own id hid).combined?_own]
        rfl

/-- Compiling and asking leave domains as they are. -/
theorem of_advanced (h : t.DomainsAgree S) (ht : t.Grounded) (hs : s.Grounded)
    (hadvanced : t.Advanced s) : s.DomainsAgree S := by
  have hbare (id : NodeId) : (s.node id).bare = (t.node id).bare := hadvanced.bare id
  have hdomain (id : NodeId) : (s.node id).domain = (t.node id).domain :=
    (congrArg Node.domain (hbare id) :)
  have hoptions (id : NodeId) : (s.node id).options = (t.node id).options :=
    (congrArg Node.options (hbare id) :)
  have hparent (id : NodeId) : (s.node id).parent = (t.node id).parent :=
    (congrArg Node.parent (hbare id) :)
  refine ⟨fun id p hid hp ↦ h.closed id p hid (hparent id ▸ hp),
    fun id hid ↦ (h.own id hid).congr (hdomain id) (by rw [hoptions]), fun id hid _ ↦ ?_⟩
  rw [hadvanced.effectiveOptions, h.named?_effective ht hid]
  exact (domain?_congr ht hs fun other _ ↦ ⟨hdomain other, hparent other⟩).symm

end DomainsAgree

/-! ### Tables that nothing is compiled in -/

/-- As for the given nodes, nothing has been compiled since, they have their parents among them and
keep their own domains in both places, and no other node than the one that may have been moved has
got another domain or parent. -/
structure Settled (S : NodeId → Prop) (moved : Option NodeId) (t s : Table) : Prop where
  nodes : t.nodes.length ≤ s.nodes.length
  closed : ∀ id p, S id → (s.node id).parent = some p → S p
  own : ∀ id, S id → (s.node id).KeepsDomain
  isCompiled : ∀ id, S id → (s.node id).isCompiled = true → (t.node id).isCompiled = true
  stays : ∀ id, S id → id < t.nodes.length → some id ≠ moved →
    (s.node id).domain = (t.node id).domain ∧ (s.node id).parent = (t.node id).parent

namespace Settled

theorem refl (h : t.DomainsAgree S) (moved : Option NodeId) : Settled S moved t t where
  nodes := Nat.le_refl _
  closed := h.closed
  own := h.own
  isCompiled _ _ hc := hc
  stays _ _ _ _ := ⟨rfl, rfl⟩

theorem of_nodes (h : Settled S moved t s) (hn : u.nodes = s.nodes) : Settled S moved t u := by
  have hnode : u.node = s.node := by
    funext id
    rw [Table.node, Table.node, hn]
  obtain ⟨hlength, hclosed, hown, hcompiled, hstays⟩ := h
  rw [← hnode] at hclosed hown hcompiled hstays
  exact ⟨hn ▸ hlength, hclosed, hown, hcompiled, hstays⟩

theorem setNode (h : Settled S moved t s) (hclosed : S id → ∀ p ∈ n.parent, S p)
    (hown : S id → n.KeepsDomain) (hsnapshot : n.snapshot = (s.node id).snapshot)
    (hstays : S id → some id = moved ∨
      n.domain = (s.node id).domain ∧ n.parent = (s.node id).parent) :
    Settled S moved t (s.setNode id n) where
  nodes := length_setNode s id n ▸ h.nodes
  closed := forall_node_setNode (motive := fun other n ↦ ∀ p, S other → n.parent = some p → S p)
    (fun p hid hp ↦ hclosed hid p hp) h.closed
  own := forall_node_setNode (motive := fun other n ↦ S other → n.KeepsDomain) hown h.own
  isCompiled := forall_node_setNode
    (motive := fun other n ↦ S other → n.isCompiled = true → (t.node other).isCompiled = true)
    (fun hid hc ↦ h.isCompiled id hid (by rwa [Node.isCompiled, ← hsnapshot])) h.isCompiled
  stays := by
    refine forall_node_setNode (motive := fun other n ↦ S other → other < t.nodes.length →
      some other ≠ moved → n.domain = (t.node other).domain ∧ n.parent = (t.node other).parent)
      (fun hid hlt hne ↦ ?_) h.stays
    obtain ⟨hdomain, hparent⟩ := (hstays hid).resolve_left hne
    rw [hdomain, hparent]
    exact h.stays id hid hlt hne

theorem reshape (h : Settled S moved t s) (hn : n.domain = (s.node id).domain ∧
      n.options = (s.node id).options ∧ n.snapshot = (s.node id).snapshot ∧
      n.parent = (s.node id).parent) : Settled S moved t (s.setNode id n) := by
  obtain ⟨hdomain, hoptions, hsnapshot, hparent⟩ := hn
  exact h.setNode (fun hid p hp ↦ h.closed id p hid (hparent ▸ hp))
    (fun hid ↦ (h.own id hid).congr hdomain (by rw [hoptions])) hsnapshot
    fun _ ↦ .inr ⟨hdomain, hparent⟩

theorem addNode (h : Settled S moved t s)
    (hclosed : S s.nodes.length → ∀ p ∈ n.parent, S p) (hown : S s.nodes.length → n.KeepsDomain)
    (hsnapshot : n.snapshot = none) : Settled S moved t { s with nodes := s.nodes ++ [n] } where
  nodes := by
    rw [List.length_append]
    exact Nat.le_add_right_of_le h.nodes
  closed := forall_node_append (motive := fun other n ↦ ∀ p, S other → n.parent = some p → S p)
    (fun p hid hp ↦ hclosed hid p hp) h.closed
  own := forall_node_append (motive := fun other n ↦ S other → n.KeepsDomain) hown h.own
  isCompiled := forall_node_append
    (motive := fun other n ↦ S other → n.isCompiled = true → (t.node other).isCompiled = true)
    (fun _ hc ↦ by rw [Node.isCompiled, hsnapshot] at hc; cases hc) h.isCompiled
  stays id hid hlt hne := by
    rw [node_append_of_lt (Nat.lt_of_lt_of_le hlt h.nodes)]
    exact h.stays id hid hlt hne

end Settled

/-- The domain among the options of a compiled node stays, whatever is done. -/
theorem Follows.named?_domain {edited : List Nat} (hs : t.Follows edited s) (ht : t.Sound)
    (hc : (t.node id).isCompiled = true) :
    (s.effectiveOptions id).named? "domain" = (t.effectiveOptions id).named? "domain" := by
  rcases (hs.sameApart ht hc).get? (.str "domain".toList) with
    ⟨hnone, hnone'⟩ | ⟨v, w, hv, hw, rfl | ⟨name, hname, he⟩⟩
  · exact hnone'.trans hnone.symm
  · exact hw.trans hv.symm
  · rw [← Value.str.inj he] at hname
    exact absurd hname (by decide)

/-- Where nothing is compiled below the node that may have been moved, compiled nodes inherit the
domains that they have kept. -/
theorem DomainsAgree.of_settled {edited : List Nat} (h : t.DomainsAgree S) (ht : t.Sound)
    (hs : t.Follows edited s) (hsettled : Settled S moved t s)
    (hopen : ∀ node ∈ moved, ∀ other, S other → t.Above node other →
      (t.node other).isCompiled = false) : s.DomainsAgree S := by
  refine ⟨hsettled.closed, hsettled.own, fun id hid hcompiled ↦ ?_⟩
  have hc := hsettled.isCompiled id hid hcompiled
  have hdomain : s.domain? id = t.domain? id := by
    refine domain?_congr ht.grounded hs.sound.grounded fun other hother ↦ ?_
    -- Had it been moved, nothing below it would have been compiled.
    refine hsettled.stays other (h.of_above hid hother)
      (hother.lt ht.grounded (lt_of_isCompiled hc)) fun hmoved ↦ ?_
    have hnot := hopen other hmoved.symm id hid hother
    rw [hc] at hnot
    cases hnot
  rw [hs.named?_domain ht hc, hdomain]
  exact h.kept id hid hc

end Table

end UrlRouting

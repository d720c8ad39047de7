import UrlRouting.Proofs.Table.Sound

/-!
The changes that tables are made of, and why each of them keeps the invariant: a node is replaced by
one that fits and is of the same kind, a node, a cell or a router is added, a cell that expressions
do not depend on is rewritten, a router is marked.
-/

namespace UrlRouting.Table

variable {t s : Table} {label label' : Nat → Option Text} {id other : NodeId} {n : Node}

theorem node_setNode (t : Table) (id : NodeId) (n : Node) (other : NodeId) :
    (t.setNode id n).node other =
      if id = other ∧ id < t.nodes.length then n else t.node other := by
  split
  next h =>
    obtain ⟨rfl, hlt⟩ := h
    exact node_setNode_self hlt n
  next h =>
    by_cases he : id = other
    · subst he
      have hle : t.nodes.length ≤ id := Nat.not_lt.mp fun hlt ↦ h ⟨rfl, hlt⟩
      simp [setNode, node, hle]
    · exact node_setNode_of_ne he n

@[simp] theorem length_setNode (t : Table) (id : NodeId) (n : Node) :
    (t.setNode id n).nodes.length = t.nodes.length := by
  simp [setNode]

/-- A property of a node is one of every node of the table that it is put into. -/
theorem forall_node_setNode {motive : NodeId → Node → Prop} (hn : motive id n)
    (h : ∀ other, motive other (t.node other)) (other : NodeId) :
    motive other ((t.setNode id n).node other) := by
  rw [node_setNode]
  split
  next he => exact he.1 ▸ hn
  next => exact h other

theorem node_append_of_lt (h : other < t.nodes.length) (n : Node) :
    node { t with nodes := t.nodes ++ [n] } other = t.node other := by
  simp [node, List.getElem?_append_left h]

theorem rule?_append (n : Node) (other : NodeId) (h : other < t.nodes.length)
    (hgroup : (t.node other).rule? = none) :
    (node { t with nodes := t.nodes ++ [n] } other).rule? = none := by
  rwa [node_append_of_lt h]

theorem node_append_length (t : Table) (n : Node) :
    node { t with nodes := t.nodes ++ [n] } t.nodes.length = n := by
  simp [node]

theorem lt_of_isCompiled (h : (t.node id).isCompiled = true) : id < t.nodes.length := by
  refine Nat.lt_of_not_le fun hle ↦ ?_
  rw [node_of_length_le hle] at h
  cases h

/-- A property of a node is one of every node of the table that it is added to. -/
theorem forall_node_append {motive : NodeId → Node → Prop} (hn : motive t.nodes.length n)
    (h : ∀ other, motive other (t.node other)) (other : NodeId) :
    motive other (node { t with nodes := t.nodes ++ [n] } other) := by
  rcases Nat.lt_trichotomy other t.nodes.length with hlt | rfl | hlt
  · rw [node_append_of_lt hlt]
    exact h other
  · rw [node_append_length]
    exact hn
  · have hlen : (t.nodes ++ [n]).length ≤ other := by
      rw [List.length_append, List.length_singleton]
      exact hlt
    have hdefault := h other
    rw [node_of_length_le (Nat.le_of_lt hlt)] at hdefault
    rw [node_of_length_le hlen]
    exact hdefault

theorem router_setRouter (t : Table) (id : RouterId) (r : Router) (other : RouterId) :
    (t.setRouter id r).router other =
      if id = other ∧ id < t.routers.length then r else t.router other := by
  simp only [setRouter, router, List.getElem?_set]
  by_cases he : id = other
  · subst he
    by_cases hlt : id < t.routers.length <;> simp [hlt]
  · simp [he]

theorem forall_router_setRouter {motive : RouterId → Router → Prop} {id : RouterId} {r : Router}
    (hr : motive id r) (h : ∀ other, motive other (t.router other)) (other : RouterId) :
    motive other ((t.setRouter id r).router other) := by
  rw [router_setRouter]
  split
  next he => exact he.1 ▸ hr
  next => exact h other

theorem lt_of_closed {id : RouterId} (h : (t.router id).compiled = true) :
    id < t.routers.length := by
  refine Nat.lt_of_not_le fun hle ↦ ?_
  rw [router, List.getElem?_eq_none hle] at h
  cases h

theorem router_append_of_lt {id : RouterId} (h : id < t.routers.length) (r : Router) :
    router { t with routers := t.routers ++ [r] } id = t.router id := by
  simp [router, List.getElem?_append_left h]

theorem forall_router_append {motive : RouterId → Router → Prop} {r : Router}
    (hr : motive t.routers.length r) (h : ∀ other, motive other (t.router other))
    (other : RouterId) : motive other (router { t with routers := t.routers ++ [r] } other) := by
  rcases Nat.lt_trichotomy other t.routers.length with hlt | rfl | hlt
  · rw [router_append_of_lt hlt]
    exact h other
  · simpa [router] using hr
  · have hdefault := h other
    have hlen : (t.routers ++ [r]).length ≤ other := by
      rw [List.length_append, List.length_singleton]
      exact hlt
    rw [router, List.getElem?_eq_none (Nat.le_of_lt hlt)] at hdefault
    rwa [router, List.getElem?_eq_none hlen]

theorem get?_readAll (t : Table) (m : Entries Slot) (key : Value) :
    (t.readAll m).get? key = (m.get? key).map t.read := by
  induction m with
  | nil => rfl
  | cons first rest ih =>
    obtain ⟨k, slot⟩ := first
    by_cases hk : k.same key
    · simp [readAll, Entries.get?, hk]
    · simpa [readAll, Entries.get?, hk] using ih

theorem read_of_cells (h : s.cells = t.cells) : s.read = t.read := by
  funext slot
  cases slot with
  | fixed value => rfl
  | shared cell => simp only [read, h]

theorem readAll_of_cells (h : s.cells = t.cells) (m : Entries Slot) :
    s.readAll m = t.readAll m := by
  rw [readAll, readAll, read_of_cells h]

/-! ### Fitting -/

theorem named_readAll_congr {m : Entries Slot} {name : Text}
    (hm : Labelled label t.cells.length m)
    (h : ∀ cell, cell < t.cells.length → label cell = some name →
      s.read (.shared cell) = t.read (.shared cell)) :
    Mapping.named (s.readAll m) name = Mapping.named (t.readAll m) name := by
  simp only [Mapping.named, Entries.named?, get?_readAll]
  rcases hg : m.get? (.str name) with _ | slot
  · rfl
  · cases slot with
    | fixed value => rfl
    | shared cell =>
      obtain ⟨hlt, hlabel⟩ := hm.get? hg
      rw [Option.map_some, Option.map_some, h cell hlt hlabel]

theorem Keeps.congr (h : t.Keeps n) (hconfig : s.configOf n = t.configOf n)
    (hn : ∀ {snapshot}, n.snapshot = some snapshot →
      Labelled label t.cells.length snapshot.options)
    (hread : ∀ name ∈ expressionOptions, ∀ cell, cell < t.cells.length →
      label cell = some name → s.read (.shared cell) = t.read (.shared cell)) : s.Keeps n := by
  intro r hr complete folds x hx
  obtain ⟨hcompiled, hfolds, hregex⟩ := h r hr complete folds x hx
  obtain ⟨snapshot, hs⟩ := Option.isSome_iff_exists.mp hcompiled
  have hoption : ∀ name ∈ expressionOptions, (s.compiledRule n r).options.named name =
      (t.compiledRule n r).options.named name := by
    intro name hname
    simp only [compiledRule, hs, Option.getD_some]
    exact named_readAll_congr (hn hs) (hread name hname)
  have hcase : (s.compiledRule n r).ignoresCase = (t.compiledRule n r).ignoresCase := by
    rw [CompiledRule.ignoresCase, hoption "case_sensitive" (by simp [expressionOptions])]
    rfl
  have hdrops : (s.compiledRule n r).dropsEnd = (t.compiledRule n r).dropsEnd := by
    have hsettings : (s.compiledRule n r).config = (t.compiledRule n r).config := hconfig
    simp only [CompiledRule.dropsEnd, hoption "remove_slash" (by simp [expressionOptions]),
      hsettings]
  refine ⟨hcompiled, hcase.trans hfolds, ?_⟩
  have htext : (s.compiledRule n r).text = (t.compiledRule n r).text := rfl
  rw [← hregex]
  exact CompiledRule.regex_congr htext rfl rfl hconfig hdrops hcase complete

theorem Fits.congr (h : t.Fits label id n) (hrouters : t.routers.length ≤ s.routers.length)
    (hlen : t.nodes.length ≤ s.nodes.length)
    (hgroup : ∀ p, p < t.nodes.length → (t.node p).rule? = none → (s.node p).rule? = none)
    (hcells : t.cells.length ≤ s.cells.length)
    (hlabel : ∀ cell, cell < t.cells.length → label' cell = label cell)
    (hconfig : s.configOf n = t.configOf n)
    (hread : ∀ name ∈ expressionOptions, ∀ cell, cell < t.cells.length →
      label cell = some name → s.read (.shared cell) = t.read (.shared cell)) :
    s.Fits label' id n where
  router_lt hr := Nat.lt_of_lt_of_le (h.router_lt hr) hrouters
  parent_lt hp := Nat.lt_of_lt_of_le (h.parent_lt hp) hlen
  parent_group hp := hgroup _ (h.parent_lt hp) (h.parent_group hp)
  group_parent_lt := h.group_parent_lt
  member_lt hm := (h.member_lt hm).imp_right (Nat.lt_of_lt_of_le · hlen)
  own := h.own.mono hcells hlabel
  snapshot hs := (h.snapshot hs).mono hcells hlabel
  keeps := h.keeps.congr hconfig h.snapshot hread

/-! ### Changes -/

theorem SoundFor.log (h : t.SoundFor label) (entries : List Text) :
    SoundFor { t with log := entries } label where
  root_lt := h.root_lt
  closed hc := (h.closed hc).mono fun _ hid ↦ ⟨hid, rfl⟩
  fits id := (h.fits id).congr (Nat.le_refl _) (Nat.le_refl _) (fun _ _ hp ↦ hp)
    (Nat.le_refl _) (fun _ _ ↦ rfl) rfl (fun _ _ _ _ _ ↦ rfl)

theorem SoundFor.setNode (h : t.SoundFor label) (hn : t.Fits label id n)
    (hkind : (t.node id).rule? = none → n.rule? = none)
    (hkeep : (t.node id).isCompiled = true →
      n.isCompiled = true ∧ n.members = (t.node id).members) : (t.setNode id n).SoundFor label where
  root_lt hid := by
    rw [length_setNode]
    exact h.root_lt hid
  closed hc := (h.closed hc).mono <| forall_node_setNode
    (motive := fun other n ↦ (t.node other).isCompiled = true →
      n.isCompiled = true ∧ n.members = (t.node other).members) hkeep fun _ hid ↦ ⟨hid, rfl⟩
  fits other := by
    have hgroup : ∀ p, p < t.nodes.length → (t.node p).rule? = none →
        ((t.setNode id n).node p).rule? = none := by
      intro p _ hp
      rw [node_setNode]
      split
      next he => exact hkind (he.1 ▸ hp)
      next => exact hp
    have hall : ∀ n', t.Fits label other n' → (t.setNode id n).Fits label other n' := by
      intro n' hn'
      exact hn'.congr (Nat.le_refl _) (Nat.le_of_eq (length_setNode t id n).symm) hgroup
        (Nat.le_refl _) (fun _ _ ↦ rfl) rfl (fun _ _ _ _ _ ↦ rfl)
    rw [node_setNode]
    split
    next he => exact hall n (he.1 ▸ hn)
    next => exact hall _ (h.fits other)

theorem SoundFor.addNode (h : t.SoundFor label) (hn : t.Fits label t.nodes.length n) :
    SoundFor { t with nodes := t.nodes ++ [n] } label where
  root_lt hid := by
    have hlt := h.root_lt hid
    exact Nat.lt_of_lt_of_le hlt (by simp)
  closed hc := (h.closed hc).mono fun _ hid ↦ by
    rw [node_append_of_lt (lt_of_isCompiled hid)]
    exact ⟨hid, rfl⟩
  fits other := by
    have hall : ∀ {id n'}, t.Fits label id n' →
        Fits { t with nodes := t.nodes ++ [n] } label id n' := by
      intro id n' hn'
      exact hn'.congr (Nat.le_refl _) (by simp) (rule?_append n) (Nat.le_refl _) (fun _ _ ↦ rfl) rfl
        (fun _ _ _ _ _ ↦ rfl)
    exact forall_node_append (motive := Fits _ label) (hall hn) (fun id ↦ hall (h.fits id)) other

theorem SoundFor.addCell (h : t.SoundFor label) (value : Value) (name : Option Text) :
    SoundFor { t with cells := t.cells ++ [value] }
      (fun cell ↦ if cell = t.cells.length then name else label cell) where
  root_lt := h.root_lt
  closed hc := (h.closed hc).mono fun _ hid ↦ ⟨hid, rfl⟩
  fits id := by
    refine (h.fits id).congr (Nat.le_refl _) (Nat.le_refl _) (fun _ _ hp ↦ hp) (by simp) ?_ rfl ?_
    · intro cell hlt
      simp [Nat.ne_of_lt hlt]
    · intro _ _ cell hlt _
      simp [read, List.getElem?_append_left hlt]

theorem SoundFor.setCell (h : t.SoundFor label) {cell : Nat} {name : Text}
    (hlabel : label cell = some name) (hname : name ∉ expressionOptions) (value : Value) :
    SoundFor { t with cells := t.cells.set cell value } label where
  root_lt := h.root_lt
  closed hc := (h.closed hc).mono fun _ hid ↦ ⟨hid, rfl⟩
  fits id := by
    refine (h.fits id).congr (Nat.le_refl _) (Nat.le_refl _) (fun _ _ hp ↦ hp) (by simp)
      (fun _ _ ↦ rfl) rfl ?_
    intro other hother cell' _ hlabel'
    have hne : cell ≠ cell' := by
      rintro rfl
      rw [hlabel, Option.some.injEq] at hlabel'
      exact hname (hlabel' ▸ hother)
    simp [read, hne]

theorem configOf_congr
    (h : ∀ id, n.router = some id → (s.router id).config = (t.router id).config) :
    s.configOf n = t.configOf n := by
  rw [configOf, configOf]
  cases hr : n.router with
  | none => rfl
  | some id => exact h id hr

theorem SoundFor.setRouter (h : t.SoundFor label) {id : RouterId} {r : Router}
    (hconfig : r.config = (t.router id).config) (hroot : r.root = (t.router id).root)
    (hclosed : r.compiled = true → t.Sealed r.root) : (t.setRouter id r).SoundFor label where
  root_lt {other} hid := by
    have hsame : ((t.setRouter id r).router other).root = (t.router other).root :=
      forall_router_setRouter (motive := fun j r ↦ r.root = (t.router j).root) hroot (fun _ ↦ rfl)
        other
    rw [hsame]
    exact h.root_lt (by simpa [Table.setRouter] using hid)
  closed {other} := forall_router_setRouter
    (motive := fun _ r' ↦ r'.compiled = true → (t.setRouter id r).Sealed r'.root)
    (fun hc ↦ (hclosed hc).mono fun _ hid ↦ ⟨hid, rfl⟩)
    (fun _ hc ↦ (h.closed hc).mono fun _ hid ↦ ⟨hid, rfl⟩) other
  fits other := by
    have hsettings : ∀ j, ((t.setRouter id r).router j).config = (t.router j).config :=
      forall_router_setRouter (motive := fun j r ↦ r.config = (t.router j).config) hconfig
        fun _ ↦ rfl
    exact (h.fits other).congr (Nat.le_of_eq (by simp [Table.setRouter])) (Nat.le_refl _)
      (fun _ _ hp ↦ hp) (Nat.le_refl _) (fun _ _ ↦ rfl) (configOf_congr fun j _ ↦ hsettings j)
      (fun _ _ _ _ _ ↦ rfl)

theorem SoundFor.addRouter (h : t.SoundFor label) {r : Router} (hroot : r.root = t.nodes.length)
    (hn : n.rule? = none) (hrouter : n.router = some t.routers.length) (hparent : n.parent = none)
    (hoptions : n.options = []) (hmembers : n.members = []) (hsnapshot : n.snapshot = none)
    (hopen : r.compiled = false) :
    SoundFor { t with nodes := t.nodes ++ [n], routers := t.routers ++ [r] } label where
  root_lt {other} hid := by
    simp only [List.length_append, List.length_singleton] at hid ⊢
    rcases Nat.lt_or_eq_of_le (Nat.le_of_lt_succ hid) with hlt | rfl
    · have hrouter : router { t with nodes := t.nodes ++ [n], routers := t.routers ++ [r] } other =
          t.router other := router_append_of_lt hlt r
      rw [hrouter]
      exact Nat.lt_succ_of_lt (h.root_lt hlt)
    · simp [router, hroot]
  closed {other} := by
    have hseal : ∀ root, t.Sealed root →
        Sealed { t with nodes := t.nodes ++ [n], routers := t.routers ++ [r] } root := by
      refine fun root hroot ↦ hroot.mono fun id hid ↦ ?_
      have hnode : node { t with nodes := t.nodes ++ [n], routers := t.routers ++ [r] } id =
          t.node id := node_append_of_lt (lt_of_isCompiled hid) n
      rw [hnode]
      exact ⟨hid, rfl⟩
    refine forall_router_append (motive := fun _ r' ↦ r'.compiled = true →
      Sealed { t with nodes := t.nodes ++ [n], routers := t.routers ++ [r] } r'.root)
      (fun hc ↦ ?_) (fun _ hc ↦ hseal _ (h.closed hc)) other
    rw [hopen] at hc
    cases hc
  fits other := by
    have hall : ∀ {id n'}, t.Fits label id n' →
        Fits { t with nodes := t.nodes ++ [n], routers := t.routers ++ [r] } label id n' := by
      intro id n' hn'
      exact hn'.congr (by simp) (by simp) (rule?_append n) (Nat.le_refl _) (fun _ _ ↦ rfl)
        (configOf_congr fun j hj ↦ congrArg _ (router_append_of_lt (hn'.router_lt hj) r))
        (fun _ _ _ _ _ ↦ rfl)
    have hroot : Fits { t with nodes := t.nodes ++ [n], routers := t.routers ++ [r] } label
        t.nodes.length n :=
      { router_lt := by simp [hrouter]
        parent_lt := by simp [hparent]
        parent_group := by simp [hparent]
        group_parent_lt := by simp [hparent]
        member_lt := by simp [hmembers]
        own := by simpa [hoptions] using .nil
        snapshot := by simp [hsnapshot]
        keeps := by simp [Keeps, hn] }
    exact forall_node_append (motive := Fits _ label) hroot (fun id ↦ hall (h.fits id)) other

end UrlRouting.Table

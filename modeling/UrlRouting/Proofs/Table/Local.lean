import UrlRouting.Proofs.Table.Frame
import UrlRouting.Proofs.Table.Frozen
import UrlRouting.Proofs.Table.Inherited

/-!
How far a change to one node reaches. The other nodes keep their own patterns and what their own
options are bound to, and apart from the open descendants of the node also what is in effect at them
(`local_of_builds`). But nodes can hold the cell that a directive edits, where options were restored
from the state of a rule or were in effect when a node was compiled: there the values of three
options can change, and nothing else.
-/

namespace UrlRouting

variable {t s : Table} {op : Operation} {id other : NodeId} {cell : Nat} {key v w : Value}
  {label : Nat → Option Text} {m : Entries Slot}

/-! ### Options laid over each other -/

namespace Mapping.SameApart

variable {names : List Text} {base base' top top' : Mapping}

theorem refl (names : List Text) (m : Mapping) : m.SameApart names m :=
  List.forall₂_same.mpr fun _ _ ↦ ⟨rfl, .inl rfl⟩

/-- A key is bound in neither map, or in both, to the same value unless it is one of the names. -/
theorem get? (h : base.SameApart names base') (key : Value) :
    (Entries.get? base key = none ∧ Entries.get? base' key = none) ∨
      ∃ v w, Entries.get? base key = some v ∧ Entries.get? base' key = some w ∧
        (w = v ∨ ∃ name ∈ names, key = .str name) := by
  induction h with
  | nil => exact .inl ⟨rfl, rfl⟩
  | cons hentry _ ih =>
    obtain ⟨hkey, hvalue⟩ := hentry
    rw [Entries.get?, Entries.get?, hkey]
    split
    next hsame =>
      refine .inr ⟨_, _, rfl, rfl, hvalue.imp_right ?_⟩
      rintro ⟨name, hname, he⟩
      rw [he, Value.str_same_iff] at hsame
      exact ⟨name, hname, hsame⟩
    next => exact ih

theorem set (h : base.SameApart names base') (hw : w = v ∨ ∃ name ∈ names, key = .str name) :
    Mapping.SameApart names (Entries.set base key v) (Entries.set base' key w) := by
  induction h with
  | nil => exact .cons ⟨rfl, hw⟩ .nil
  | cons hentry hrest ih =>
    obtain ⟨hkey, hvalue⟩ := hentry
    rw [Entries.set, Entries.set, hkey]
    split
    next hsame =>
      refine .cons ⟨rfl, hw.imp_right ?_⟩ hrest
      rintro ⟨name, hname, rfl⟩
      exact ⟨name, hname, Value.same_str_iff.mp hsame⟩
    next => exact .cons ⟨rfl, hvalue⟩ ih

theorem overlay (h : base.SameApart names base') (htop : top.SameApart names top') :
    Mapping.SameApart names (Entries.overlay base top) (Entries.overlay base' top') := by
  induction htop generalizing base base' with
  | nil => exact h
  | cons hentry _ ih =>
    obtain ⟨hkey, hvalue⟩ := hentry
    rw [Entries.overlay, Entries.overlay, List.foldl_cons, List.foldl_cons, hkey]
    exact ih (h.set hvalue)

theorem mergeInto {m m' : Mapping} (h : base.SameApart names base')
    (htop : top.SameApart names top') (hm : m.SameApart names m') (key : Value) :
    (Options.mergeInto base top m key).SameApart names (Options.mergeInto base' top' m' key) := by
  rw [Options.mergeInto, Options.mergeInto]
  rcases h.get? key with ⟨hbase, hbase'⟩ | ⟨v, v', hbase, hbase', hv⟩
  · rw [hbase, hbase']
    exact hm
  · rcases htop.get? key with ⟨htop, htop'⟩ | ⟨w, w', htop, htop', hw⟩
    · rw [hbase, hbase', htop, htop']
      exact hm
    · rw [hbase, hbase', htop, htop']
      refine hm.set ?_
      rcases hv with rfl | hv
      · rcases hw with rfl | hw
        · exact .inl rfl
        · exact .inr hw
      · exact .inr hv

theorem combine (h : base.SameApart names base') (htop : top.SameApart names top')
    (merged : List Value) :
    (Options.combine base top merged).SameApart names (Options.combine base' top' merged) := by
  rw [Options.combine_eq, Options.combine_eq]
  have hover := h.overlay htop
  generalize Entries.overlay base top = m at hover
  generalize Entries.overlay base' top' = m' at hover
  induction merged generalizing m m' with
  | nil => exact hover
  | cons key rest ih => exact ih _ _ (mergeInto h htop hover key)

end Mapping.SameApart

namespace Table

def ownOptions (t : Table) (id : NodeId) : Mapping := t.readAll (t.node id).options

/-- The options in effect at a node, as values. -/
theorem effectiveOptions_eq (h : t.Grounded) (id : NodeId) :
    t.effectiveOptions id =
      match (t.node id).snapshot, (t.node id).parent with
      | some snapshot, _ => t.readAll snapshot.options
      | none, none => t.ownOptions id
      | none, some p =>
        Options.combine (t.effectiveOptions p) (t.ownOptions id) (t.mergedNames (t.node id)) := by
  rw [effectiveOptions, effectiveSlots_eq h]
  cases (t.node id).snapshot with
  | some snapshot => rfl
  | none =>
    cases (t.node id).parent with
    | none => rfl
    | some p => exact readAll_combineSlots t _ _ _

/-! ### Where a change shows -/

/-- What is in effect at the node depends on the first one: it is that node, or an open descendant
with open nodes between them. -/
inductive Downstream (t : Table) (id : NodeId) : NodeId → Prop where
  | self : t.Downstream id id
  | member {other parent : NodeId} (hopen : (t.node other).snapshot = none)
      (hparent : (t.node other).parent = some parent) (h : t.Downstream id parent) :
      t.Downstream id other

/-- A cell is among the own options of a node. -/
def Holds (t : Table) (cell : Nat) (id : NodeId) : Prop :=
  ∃ key, (key, Slot.shared cell) ∈ (t.node id).options

/-- A cell is among the options that are laid over each other for a node. -/
inductive DependsOn (t : Table) (cell : Nat) : NodeId → Prop where
  | kept {id : NodeId} {snapshot : Snapshot} {key : Value}
      (hsnapshot : (t.node id).snapshot = some snapshot)
      (hmem : (key, Slot.shared cell) ∈ snapshot.options) : t.DependsOn cell id
  | own {id : NodeId} (hopen : (t.node id).snapshot = none) (h : t.Holds cell id) :
      t.DependsOn cell id
  | inherited {id parent : NodeId} (hopen : (t.node id).snapshot = none)
      (hparent : (t.node id).parent = some parent) (h : t.DependsOn cell parent) :
      t.DependsOn cell id

end Table

/-! ### Cells that are edited -/

theorem Directive.mem_inPlace {d : Directive} {name : Text} (h : d.edited? = some name) :
    name ∈ Options.inPlace := by
  rw [Directive.edited?.eq_def] at h
  split at h <;> cases h <;> decide

namespace Table

/-- The cell that an operation edits is labelled with the name of an option that directives edit in
place. -/
theorem exists_label_of_cellEdited? (h : t.SoundFor label) (hcell : op.cellEdited? t = some cell) :
    ∃ name ∈ Options.inPlace, label cell = some name := by
  cases op with
  | call node word args =>
    rw [Operation.cellEdited?] at hcell
    cases hreader : Directive.reader? (t.isRule node) word with
    | none => rw [hreader] at hcell; cases hcell
    | some reader =>
      rw [hreader] at hcell
      dsimp only at hcell
      cases hd : reader args with
      | error e => rw [hd] at hcell; cases hcell
      | ok d =>
        rw [hd] at hcell
        dsimp only at hcell
        rw [cellEdited?] at hcell
        split at hcell
        · cases hcell
        · obtain ⟨name, hname, hown⟩ := Option.bind_eq_some_iff.mp hcell
          refine ⟨name, Directive.mem_inPlace hname, ?_⟩
          rw [ownCell?] at hown
          split at hown
          next found hfound =>
            cases hown
            exact ((h.fits node).own.get? hfound).2
          next => cases hown
  | _ => cases hcell

/-- A cell reads as before unless it is the one that is edited, and the option of another name. -/
theorem read_after (h : t.SoundFor label) (hs : t.Follows (op.cellEdited? t).toList s)
    (hlt : cell < t.cells.length) (hlabel : label cell = key.text?) :
    s.read (.shared cell) = t.read (.shared cell) ∨
      op.cellEdited? t = some cell ∧ ∃ name ∈ Options.inPlace, key = .str name := by
  by_cases hcell : op.cellEdited? t = some cell
  · obtain ⟨name, hname, hlabel'⟩ := exists_label_of_cellEdited? h hcell
    exact .inr ⟨hcell, name, hname, Value.text?_eq_some_iff.mp (hlabel.symm.trans hlabel')⟩
  · exact .inl (hs.later.unedited hlt (by simpa using hcell))

theorem sameApart_readAll (h : t.SoundFor label) (hs : t.Follows (op.cellEdited? t).toList s)
    (hm : Labelled label t.cells.length m) :
    (t.readAll m).SameApart Options.inPlace (s.readAll m) := by
  rw [Mapping.SameApart, readAll, readAll, List.forall₂_map_left_iff, List.forall₂_map_right_iff,
    List.forall₂_same]
  rintro ⟨key, slot⟩ hmem
  refine ⟨rfl, ?_⟩
  cases slot with
  | fixed value => exact .inl rfl
  | shared cell =>
    obtain ⟨hlt, hlabel⟩ := hm key cell hmem
    exact (read_after h hs hlt hlabel).imp_right And.right

theorem readAll_eq_of_unheld (h : t.SoundFor label) (hs : t.Follows (op.cellEdited? t).toList s)
    (hm : Labelled label t.cells.length m)
    (hcell : ∀ cell, op.cellEdited? t = some cell → ∀ key, (key, Slot.shared cell) ∉ m) :
    s.readAll m = t.readAll m := by
  rw [readAll, readAll]
  refine List.map_congr_left ?_
  rintro ⟨key, slot⟩ hmem
  cases slot with
  | fixed value => rfl
  | shared cell =>
    obtain ⟨hlt, hlabel⟩ := hm key cell hmem
    rcases read_after h hs hlt hlabel with hread | ⟨hedited, -⟩
    · exact congrArg (Prod.mk key) hread
    · exact absurd hmem (hcell cell hedited key)

/-! ### What is in effect elsewhere -/

/-- The nodes of an unchanged line can be gone through from ancestors to members, as far as they are
open. -/
theorem upstream_induction (h : t.SoundFor label) {edited : List Nat} (hs : t.Follows edited s)
    (hbut : t.SameBut id s) {motive : NodeId → Prop}
    (kept : ∀ other snapshot, s.node other = t.node other →
      (t.node other).snapshot = some snapshot → motive other)
    (root : ∀ other, s.node other = t.node other → (t.node other).snapshot = none →
      (t.node other).parent = none → motive other)
    (member : ∀ other parent, s.node other = t.node other → (t.node other).snapshot = none →
      (t.node other).parent = some parent →
      s.mergedNames (s.node other) = t.mergedNames (t.node other) → motive parent → motive other)
    (hlt : other < t.nodes.length) (hnot : ¬t.Downstream id other) : motive other := by
  induction other using h.grounded.induction with
  | step other ih =>
    have hne : other ≠ id := by
      rintro rfl
      exact hnot .self
    have hnode := hbut.node other hlt hne
    cases hsnapshot : (t.node other).snapshot with
    | some snapshot => exact kept other snapshot hnode hsnapshot
    | none =>
      cases hparent : (t.node other).parent with
      | none => exact root other hnode hsnapshot hparent
      | some parent =>
        have hconfig : s.configOf (t.node other) = t.configOf (t.node other) :=
          configOf_congr fun rid hrid ↦ hs.later.config ((h.fits other).router_lt hrid)
        refine member other parent hnode hsnapshot hparent ?_ (ih parent hparent ?_ ?_)
        · rw [mergedNames, mergedNames, hnode, hconfig]
        · exact (h.fits other).parent_lt hparent
        · exact fun hdown ↦ hnot (.member hsnapshot hparent hdown)

variable (h : t.SoundFor label) (hs : t.Follows (op.cellEdited? t).toList s)
  (hbut : t.SameBut id s)

include h hs hbut

theorem effectivePatterns_elsewhere (hlt : other < t.nodes.length)
    (hnot : ¬t.Downstream id other) : s.effectivePatterns other = t.effectivePatterns other := by
  refine upstream_induction (motive := fun other ↦
    s.effectivePatterns other = t.effectivePatterns other)
    h hs hbut ?_ ?_ ?_ hlt hnot
  · intro other snapshot hnode hsnapshot
    rw [effectivePatterns_eq hs.sound.grounded, effectivePatterns_eq h.grounded, hnode, hsnapshot]
  · intro other hnode hsnapshot hparent
    rw [effectivePatterns_eq hs.sound.grounded, effectivePatterns_eq h.grounded, hnode, hsnapshot,
      hparent]
  · intro other parent hnode hsnapshot hparent _ ih
    rw [effectivePatterns_eq hs.sound.grounded, effectivePatterns_eq h.grounded, hnode, hsnapshot,
      hparent]
    exact congrArg (Entries.overlay · _) ih

theorem namesAreKeys_elsewhere (hlt : other < t.nodes.length) (hnot : ¬t.Downstream id other) :
    s.namesAreKeys (s.lineage other) = t.namesAreKeys (t.lineage other) := by
  refine upstream_induction (motive := fun other ↦
    s.namesAreKeys (s.lineage other) = t.namesAreKeys (t.lineage other))
    h hs hbut ?_ ?_ ?_ hlt hnot
  · intro other snapshot hnode hsnapshot
    rw [namesAreKeys_lineage hs.sound.grounded, namesAreKeys_lineage h.grounded, hnode,
      isCompiled_of_snapshot hsnapshot, Bool.true_or, Bool.true_or]
  · intro other hnode _ hparent
    rw [namesAreKeys_lineage hs.sound.grounded, namesAreKeys_lineage h.grounded, hnode, hparent]
  · intro other parent hnode _ hparent hmerged ih
    rw [namesAreKeys_lineage hs.sound.grounded, namesAreKeys_lineage h.grounded, hmerged, hnode,
      hparent]
    exact congrArg (fun keys ↦ _ || (_ && keys)) ih

theorem effectiveOptions_elsewhere (hlt : other < t.nodes.length) (hnot : ¬t.Downstream id other) :
    (t.effectiveOptions other).SameApart Options.inPlace (s.effectiveOptions other) := by
  have hown (other : NodeId) (hnode : s.node other = t.node other) :
      (t.ownOptions other).SameApart Options.inPlace (s.ownOptions other) := by
    rw [ownOptions, ownOptions, hnode]
    exact sameApart_readAll h hs (h.fits other).own
  refine upstream_induction (motive := fun other ↦
    (t.effectiveOptions other).SameApart Options.inPlace (s.effectiveOptions other))
    h hs hbut ?_ ?_ ?_ hlt hnot
  · intro other snapshot hnode hsnapshot
    rw [effectiveOptions_eq hs.sound.grounded, effectiveOptions_eq h.grounded, hnode, hsnapshot]
    exact sameApart_readAll h hs ((h.fits other).snapshot hsnapshot)
  · intro other hnode hsnapshot hparent
    rw [effectiveOptions_eq hs.sound.grounded, effectiveOptions_eq h.grounded, hnode, hsnapshot,
      hparent]
    exact hown other hnode
  · intro other parent hnode hsnapshot hparent hmerged ih
    rw [effectiveOptions_eq hs.sound.grounded, effectiveOptions_eq h.grounded, hmerged, hnode,
      hsnapshot, hparent]
    exact ih.combine (hown other hnode) _

theorem effectiveOptions_eq_elsewhere (hlt : other < t.nodes.length)
    (hnot : ¬t.Downstream id other)
    (hcell : ∀ cell, op.cellEdited? t = some cell → ¬t.DependsOn cell other) :
    s.effectiveOptions other = t.effectiveOptions other := by
  have hown (other : NodeId) (hnode : s.node other = t.node other)
      (hopen : (t.node other).snapshot = none)
      (hcell : ∀ cell, op.cellEdited? t = some cell → ¬t.DependsOn cell other) :
      s.ownOptions other = t.ownOptions other := by
    rw [ownOptions, ownOptions, hnode]
    exact readAll_eq_of_unheld h hs (h.fits other).own fun cell hedited key hmem ↦
      hcell cell hedited (.own hopen ⟨key, hmem⟩)
  revert hcell
  refine upstream_induction (motive := fun other ↦
    (∀ cell, op.cellEdited? t = some cell → ¬t.DependsOn cell other) →
      s.effectiveOptions other = t.effectiveOptions other)
    h hs hbut ?_ ?_ ?_ hlt hnot
  · intro other snapshot hnode hsnapshot hcell
    rw [effectiveOptions_eq hs.sound.grounded, effectiveOptions_eq h.grounded, hnode, hsnapshot]
    exact readAll_eq_of_unheld h hs ((h.fits other).snapshot hsnapshot) fun cell hedited key hmem ↦
      hcell cell hedited (.kept hsnapshot hmem)
  · intro other hnode hsnapshot hparent hcell
    rw [effectiveOptions_eq hs.sound.grounded, effectiveOptions_eq h.grounded, hnode, hsnapshot,
      hparent]
    exact hown other hnode hsnapshot hcell
  · intro other parent hnode hsnapshot hparent hmerged ih hcell
    have hparentEq := ih fun cell hedited hdepends ↦
      hcell cell hedited (.inherited hsnapshot hparent hdepends)
    rw [effectiveOptions_eq hs.sound.grounded, effectiveOptions_eq h.grounded, hmerged, hnode,
      hsnapshot, hparent]
    dsimp only
    rw [hparentEq, hown other hnode hsnapshot hcell]

end Table

theorem Action.outcome_effectiveOptions_eq (t : Table) (id : NodeId) :
    (Action.effectiveOptions id).outcome t =
      if t.namesAreKeys (t.lineage id) then .ok (t.effectiveOptions id) else .error .wrongType := by
  cases hkeys : t.namesAreKeys (t.lineage id) with
  | true => exact Action.outcome_effectiveOptions_of_keys hkeys
  | false =>
    simp only [Action.outcome, Action.effectiveOptions, Action.effectiveSlots, EStateM.run_bind,
      EStateM.run_get, hkeys, Bool.false_eq_true, ↓reduceIte]
    rfl

/-- Building on a node leaves every other node as it is: what it is declared and configured with,
its own patterns, and what its own options are bound to. The values of its own options stay, except
for three of them and only where it holds the cell that is edited. Unless the node is an open
descendant, with open nodes between, the same is true of what is in effect at it. -/
theorem local_of_builds (ht : t.Reachable) (hop : op.isFor t = true)
    (hbuilds : op.builds t id = true) (hother : t.hasNode other = true) (hne : other ≠ id) :
    (op.after t).node other = t.node other ∧
    (t.ownOptions other).SameApart Options.inPlace ((op.after t).ownOptions other) ∧
    ((∀ cell, op.cellEdited? t = some cell → ¬t.Holds cell other) →
      (op.after t).ownOptions other = t.ownOptions other) ∧
    (¬t.Downstream id other →
      (op.after t).effectivePatterns other = t.effectivePatterns other ∧
      (Action.effectiveOptions other).outcome (op.after t) =
        ((Action.effectiveOptions other).outcome t).map
          (fun _ ↦ (op.after t).effectiveOptions other) ∧
      (t.effectiveOptions other).SameApart Options.inPlace ((op.after t).effectiveOptions other) ∧
      ((∀ cell, op.cellEdited? t = some cell → ¬t.DependsOn cell other) →
        (Action.effectiveOptions other).outcome (op.after t) =
          (Action.effectiveOptions other).outcome t)) := by
  have hs := op.follows_after ht.sound hop
  have hbut := Operation.after_sameBut hbuilds
  have hlt : other < t.nodes.length := of_decide_eq_true hother
  have hnode := hbut.node other hlt hne
  obtain ⟨label, h⟩ := ht.sound
  have hown := (h.fits other).own
  refine ⟨hnode, ?_, fun hcell ↦ ?_, fun hnot ↦ ⟨?_, ?_, ?_, fun hcell ↦ ?_⟩⟩
  · rw [Table.ownOptions, Table.ownOptions, hnode]
    exact Table.sameApart_readAll h hs hown
  · rw [Table.ownOptions, Table.ownOptions, hnode]
    exact Table.readAll_eq_of_unheld h hs hown fun cell hedited key hmem ↦
      hcell cell hedited ⟨key, hmem⟩
  · exact Table.effectivePatterns_elsewhere h hs hbut hlt hnot
  · rw [Action.outcome_effectiveOptions_eq, Action.outcome_effectiveOptions_eq,
      Table.namesAreKeys_elsewhere h hs hbut hlt hnot]
    split <;> rfl
  · exact Table.effectiveOptions_elsewhere h hs hbut hlt hnot
  · rw [Action.outcome_effectiveOptions_eq, Action.outcome_effectiveOptions_eq,
      Table.namesAreKeys_elsewhere h hs hbut hlt hnot,
      Table.effectiveOptions_eq_elsewhere h hs hbut hlt hnot hcell]

/-- The group around a compiled rule is given an option. -/
theorem local_guardedRule : ∃ op : Operation, Table.guardedRule.Reachable ∧
    op.isFor Table.guardedRule = true ∧ op.builds Table.guardedRule 1 = true ∧
    Table.guardedRule.hasNode 2 = true ∧ ¬Table.guardedRule.Downstream 1 2 ∧
    (op.after Table.guardedRule).node 2 = Table.guardedRule.node 2 ∧
    (op.after Table.guardedRule).ownOptions 2 = Table.guardedRule.ownOptions 2 ∧
    (op.after Table.guardedRule).effectivePatterns 2 = Table.guardedRule.effectivePatterns 2 ∧
    (Action.effectiveOptions 2).outcome (op.after Table.guardedRule) =
      (Action.effectiveOptions 2).outcome Table.guardedRule := by
  have hop : (Operation.call 1 "ext" ⟨["html"], []⟩).isFor Table.guardedRule = true := by decide
  have hbuilds : (Operation.call 1 "ext" ⟨["html"], []⟩).builds Table.guardedRule 1 = true := by
    decide
  have hcell : (Operation.call 1 "ext" ⟨["html"], []⟩).cellEdited? Table.guardedRule = none := by
    decide
  have hnot : ¬Table.guardedRule.Downstream 1 2 := by
    intro hdown
    cases hdown with
    | member hopen _ _ =>
      have hkept : (Table.guardedRule.node 2).snapshot.isSome = true := by decide
      rw [hopen] at hkept
      cases hkept
  have hother : Table.guardedRule.hasNode 2 = true := by decide
  obtain ⟨hnode, -, hown, hfar⟩ :=
    local_of_builds reachable_guardedRule hop hbuilds hother (by decide)
  obtain ⟨hpatterns, -, -, heffective⟩ := hfar hnot
  refine ⟨_, reachable_guardedRule, hop, hbuilds, hother, hnot, hnode, hown ?_, hpatterns,
    heffective ?_⟩
  · rw [hcell]
    exact nofun
  · rw [hcell]
    exact nofun

/-- A rule with middleware, and a rule that has been restored from its state. -/
def Table.copiedRule : Table := empty.afterAll
  [.addRouter [], .routeOn 0 { rule := "p", target := "x" }, .call 1 "middleware" ⟨["auth"], []⟩,
    .copy 1]

theorem reachable_copiedRule : Table.copiedRule.Reachable := ⟨_, by decide, rfl⟩

/-- Middleware that is added to the rule shows among the own options of the restored one. -/
theorem not_forall_local : ¬∀ (t : Table) (op : Operation) (id other : NodeId), t.Reachable →
    op.isFor t = true → op.builds t id = true → t.hasNode other = true → other ≠ id →
    (op.after t).ownOptions other = t.ownOptions other := by
  intro h
  have hsame := h Table.copiedRule (.call 1 "middleware" ⟨["log"], []⟩) 1 2 reachable_copiedRule
    (by decide) (by decide) (by decide) (by decide)
  have hcount := congrArg (fun options ↦
    (Options.items? (Mapping.named options "middleware")).map List.length) hsame
  exact absurd hcount (by decide)

end UrlRouting

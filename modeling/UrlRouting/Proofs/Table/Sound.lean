import UrlRouting.Proofs.Table.Lineage
import UrlRouting.Proofs.Table.Members
import UrlRouting.Proofs.Value.Entries
import UrlRouting.Table.Compilation

/-!
The invariant of tables: parents are groups that were declared earlier, members were declared later,
options of one name share cells with options of that name only, an expression that a rule keeps is
the one that would be made anew, and everything inside a closed router is compiled. It is stated
node by node (`Fits`), so that a change to one node is checked there, and it survives every change
to cells that leaves alone the two options that expressions depend on.
-/

namespace UrlRouting

/-- The cells that options refer to are among the first `count`, and each is labelled with the name
of the option. -/
def Labelled (label : Nat → Option Text) (count : Nat) (m : Entries Slot) : Prop :=
  ∀ key cell, (key, Slot.shared cell) ∈ m → cell < count ∧ label cell = key.text?

namespace Labelled

variable {label label' : Nat → Option Text} {count count' : Nat} {m base top : Entries Slot}
  {key : Value} {slot : Slot}

theorem nil : Labelled label count [] := by
  intro key cell h
  cases h

theorem of_subset (h : Labelled label count m) (hs : ∀ entry ∈ top, entry ∈ m) :
    Labelled label count top := fun key cell hm ↦ h key cell (hs _ hm)

theorem mono (h : Labelled label count m) (hc : count ≤ count')
    (hl : ∀ cell, cell < count → label' cell = label cell) : Labelled label' count' m := by
  intro key cell hm
  obtain ⟨hlt, hlabel⟩ := h key cell hm
  exact ⟨Nat.lt_of_lt_of_le hlt hc, (hl cell hlt).trans hlabel⟩

theorem set (h : Labelled label count m)
    (hs : ∀ cell, slot = .shared cell → cell < count ∧ label cell = key.text?) :
    Labelled label count (m.set key slot) := by
  intro k cell hm
  rcases Entries.mem_set hm with hm | ⟨he, hk⟩
  · exact h k cell hm
  · have hkey : k.text? = key.text? := by
      rcases hk with rfl | hk
      · rfl
      · exact Value.text?_eq_of_same hk
    obtain ⟨hlt, hlabel⟩ := hs cell he.symm
    exact ⟨hlt, hlabel.trans hkey.symm⟩

theorem set_fixed (h : Labelled label count m) (key value : Value) :
    Labelled label count (m.set key (.fixed value)) := h.set (by simp)

theorem overlay (hb : Labelled label count base) (ht : Labelled label count top) :
    Labelled label count (base.overlay top) := by
  induction top generalizing base with
  | nil => exact hb
  | cons entry rest ih =>
    obtain ⟨key, slot⟩ := entry
    refine ih (hb.set fun cell he ↦ ?_) (ht.of_subset fun _ hm ↦ List.mem_cons_of_mem _ hm)
    exact ht key cell (he ▸ List.mem_cons_self)

theorem erase (h : Labelled label count m) (key : Value) : Labelled label count (m.erase key) :=
  h.of_subset fun _ hm ↦ (List.mem_filter.mp hm).1

theorem get? (h : Labelled label count m) {t : Text} {cell : Nat}
    (hg : m.get? (.str t) = some (.shared cell)) : cell < count ∧ label cell = some t :=
  h _ cell (Entries.mem_of_get?_str_eq_some hg)

theorem combineSlots (t : Table) (hb : Labelled label count base) (ht : Labelled label count top)
    (names : List Value) : Labelled label count (t.combineSlots base top names) := by
  suffices h : ∀ m, Labelled label count m → Labelled label count (names.foldl _ m) from
    h _ (hb.overlay ht)
  induction names with
  | nil => exact fun m hm ↦ hm
  | cons name rest ih =>
    refine fun m hm ↦ ih _ ?_
    dsimp only
    split
    next inherited own hbase hown =>
      split
      next value _ => exact hm.set_fixed name value
      next =>
        refine hm.set fun cell he ↦ ?_
        obtain ⟨key, hk, hmem⟩ := Entries.mem_of_get?_eq_some hown
        obtain ⟨hlt, hlabel⟩ := ht key cell (he ▸ hmem)
        exact ⟨hlt, hlabel.trans (Value.text?_eq_of_same hk)⟩
    next => exact hm

end Labelled

/-- Expressions depend on the options of a rule by two flags only. -/
theorem CompiledRule.regex_congr {c c' : CompiledRule} (htext : c'.text = c.text)
    (hpatterns : c'.patterns = c.patterns) (haliases : c'.aliases = c.aliases)
    (hconfig : c'.config = c.config) (hdrops : c'.dropsEnd = c.dropsEnd)
    (hcase : c'.ignoresCase = c.ignoresCase) (complete : Bool) :
    c'.regex complete = c.regex complete := by
  have hpath : c'.path = c.path := by rw [path, path, htext, hconfig, hdrops]
  simp only [regex, expression, read, setting, tokens, htext, hpatterns, haliases, hconfig, hdrops,
    hcase, hpath]

namespace Table

/-- The names of the options that expressions depend on. -/
def expressionOptions : List Text := ["remove_slash", "case_sensitive"]

/-- The expressions that a node keeps are those that would be made anew; only a compiled rule keeps
any. -/
def Keeps (t : Table) (n : Node) : Prop :=
  ∀ r, n.rule? = some r → ∀ complete folds x, r.expressions.lookup (complete, folds) = some x →
    n.isCompiled = true ∧ (t.compiledRule n r).ignoresCase = folds ∧
      (t.compiledRule n r).regex complete = .ok x

structure Fits (t : Table) (label : Nat → Option Text) (id : NodeId) (n : Node) : Prop where
  router_lt : ∀ {r}, n.router = some r → r < t.routers.length
  parent_lt : ∀ {p}, n.parent = some p → p < t.nodes.length
  parent_group : ∀ {p}, n.parent = some p → (t.node p).rule? = none
  group_parent_lt : ∀ {p}, n.rule? = none → n.parent = some p → p < id
  member_lt : ∀ {m}, m ∈ n.members → id < m ∧ m < t.nodes.length
  own : Labelled label t.cells.length n.options
  snapshot : ∀ {s}, n.snapshot = some s → Labelled label t.cells.length s.options
  keeps : t.Keeps n

structure SoundFor (t : Table) (label : Nat → Option Text) : Prop where
  root_lt : ∀ {id}, id < t.routers.length → (t.router id).root < t.nodes.length
  closed : ∀ {id}, (t.router id).compiled = true → t.Sealed (t.router id).root
  fits : ∀ id, t.Fits label id (t.node id)

/-- The invariant of tables. -/
def Sound (t : Table) : Prop := ∃ label, t.SoundFor label

variable {t s : Table} {label label' : Nat → Option Text} {id : NodeId} {n : Node}

theorem SoundFor.grounded (h : t.SoundFor label) : t.Grounded :=
  ⟨fun hp ↦ (h.fits _).parent_lt hp, fun hp ↦ (h.fits _).parent_group hp,
    fun hr hp ↦ (h.fits _).group_parent_lt hr hp⟩

theorem Sound.grounded (h : t.Sound) : t.Grounded := by
  obtain ⟨label, h⟩ := h
  exact h.grounded

theorem Sound.nested (h : t.Sound) : t.Nested := by
  obtain ⟨label, h⟩ := h
  exact fun hm ↦ (h.fits _).member_lt hm

theorem Sound.closed (h : t.Sound) {id : RouterId} (hc : (t.router id).compiled = true) :
    t.Sealed (t.router id).root := by
  obtain ⟨label, h⟩ := h
  exact h.closed hc

theorem fits_default (t : Table) (label : Nat → Option Text) (id : NodeId) :
    t.Fits label id default where
  router_lt := nofun
  parent_lt := nofun
  parent_group := nofun
  group_parent_lt := nofun
  member_lt := nofun
  own := .nil
  snapshot := nofun
  keeps := nofun

theorem sound_empty : empty.Sound := by
  refine ⟨fun _ ↦ none, fun h ↦ absurd h (Nat.not_lt_zero _), nofun, fun id ↦ ?_⟩
  rw [node_of_length_le (Nat.zero_le id)]
  exact fits_default _ _ _

theorem SoundFor.effectiveSlots (h : t.SoundFor label) (id : NodeId) :
    Labelled label t.cells.length (t.effectiveSlots id) := by
  induction id using h.grounded.induction with
  | step id ih =>
    rw [effectiveSlots_eq h.grounded]
    cases hs : (t.node id).snapshot with
    | some snapshot => exact (h.fits id).snapshot hs
    | none =>
      cases hp : (t.node id).parent with
      | none => exact (h.fits id).own
      | some p => exact (ih p hp).combineSlots t (h.fits id).own _

end Table

end UrlRouting

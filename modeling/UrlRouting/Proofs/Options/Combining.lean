import UrlRouting.Options.Merge
import UrlRouting.Proofs.Value.Entries

/-!
What options amount to that are laid over inherited ones, name by name: `named?_combine`. Where both
sides hold lists, merging joins them; where both hold maps without positions, the own entries are
laid over the inherited ones.
-/

namespace UrlRouting

namespace Entries

variable {α : Type} {m base top : Entries α} {k key : Value} {a : α}

theorem set_of_get? (h : m.get? key = some a) :
    m.set key a = m := by
  induction m with
  | nil => cases h
  | cons entry rest ih =>
    obtain ⟨k, b⟩ := entry
    by_cases hk : k.same key
    · simp_all [get?, set]
    · simp_all [get?, set]

theorem keys_set (m : Entries α) (k : Value) (a : α) :
    (m.set k a).keys = if m.contains k then m.keys else m.keys ++ [k] := by
  induction m with
  | nil => rfl
  | cons first rest ih =>
    obtain ⟨key, b⟩ := first
    by_cases hk : key.same k
    · simp [set, contains, get?, keys, hk]
    · have hcontains : contains ((key, b) :: rest) k = contains rest k := by
        simp [contains, get?, hk]
      rw [set, if_neg hk, hcontains, keys, keys, List.map_cons, ← keys, ih]
      split <;> rfl

theorem mem_keys_of_mem_set (h : key ∈ (m.set k a).keys) : key ∈ m.keys ∨ key = k := by
  rw [keys_set] at h
  split at h
  · exact .inl h
  · simpa using h

theorem contains_eq_any (m : Entries α) (k : Value) :
    m.contains k = m.keys.any fun key ↦ key.same k := by
  induction m with
  | nil => rfl
  | cons first rest ih =>
    obtain ⟨key, b⟩ := first
    rw [keys, List.map_cons, List.any_cons, ← keys, ← ih]
    by_cases hk : key.same k <;> simp [contains, get?, hk]

theorem contains_set_of_contains (h : m.contains key = true) (k : Value) (a : α) :
    (m.set k a).contains key = true := by
  rw [contains_eq_any, keys_set]
  split
  · rwa [← contains_eq_any]
  · rw [List.any_append, ← contains_eq_any, h, Bool.true_or]

theorem contains_overlay_of_contains (h : base.contains key = true) (top : Entries α) :
    (base.overlay top).contains key = true := by
  induction top generalizing base with
  | nil => exact h
  | cons entry rest ih => exact ih (contains_set_of_contains h _ _)

theorem mem_keys_of_mem_overlay (h : key ∈ (base.overlay top).keys) :
    key ∈ base.keys ∨ key ∈ top.keys := by
  induction top generalizing base with
  | nil => exact .inl h
  | cons entry rest ih =>
    rcases ih h with h | h
    · rcases mem_keys_of_mem_set h with h | rfl
      · exact .inl h
      · exact .inr List.mem_cons_self
    · exact .inr (List.mem_cons_of_mem _ h)

end Entries

namespace Options

variable {base top : Mapping} {names : List Value} {name : Text} {key : Value}

/-! ### Merging two values -/

/-- What an option amounts to that is bound on the inherited side, on the own side or on both. -/
def combined? (merges : Bool) : Option Value → Option Value → Option Value
  | some inherited, some own => some (if merges then mergeValue inherited own else own)
  | inherited, own => own.or inherited

/-- All keys are strings. -/
def HasTextKeys (m : Mapping) : Prop := ∀ key ∈ m.keys, key.text?.isSome = true

instance (m : Mapping) : Decidable (HasTextKeys m) :=
  inferInstanceAs (Decidable (∀ key ∈ m.keys, key.text?.isSome = true))

theorem HasTextKeys.overlay (hb : HasTextKeys base) (ht : HasTextKeys top) :
    HasTextKeys (base.overlay top) := fun key h ↦
  (Entries.mem_keys_of_mem_overlay h).elim (hb key) (ht key)

theorem absorb_of_hasTextKeys (h : HasTextKeys top) (m : Mapping) (next : Int) :
    absorb m next top = m.overlay top := by
  induction top generalizing m with
  | nil => rfl
  | cons entry rest ih =>
    obtain ⟨key, value⟩ := entry
    obtain ⟨t, ht⟩ := Option.isSome_iff_exists.mp (h key List.mem_cons_self)
    obtain rfl := Value.text?_eq_some_iff.mp ht
    exact ih (fun key hkey ↦ h key (List.mem_cons_of_mem _ hkey)) _

theorem mergeValue_map (h : HasTextKeys top) (base : Mapping) :
    mergeValue (.map base) (.map top) = .map (base.overlay top) :=
  congrArg Value.map (absorb_of_hasTextKeys h base _)

/-! ### Merging values of several levels -/

/-- Values that are merged level by level, the nearest first. -/
def mergeAll? : List Value → Option Value
  | [] => none
  | own :: above => some ((mergeAll? above).elim own (mergeValue · own))

theorem mergeAll?_cons_of_none (own : Value) {above : List Value} (h : mergeAll? above = none) :
    mergeAll? (own :: above) = some own := by
  rw [mergeAll?, h, Option.elim_none]

theorem mergeAll?_cons_of_some (own : Value) {above : List Value} {v : Value}
    (h : mergeAll? above = some v) : mergeAll? (own :: above) = some (mergeValue v own) := by
  rw [mergeAll?, h, Option.elim_some]

/-- Lists are joined from the outermost on. -/
theorem mergeAll?_lists {lists : List (List Value)} (h : lists ≠ []) :
    mergeAll? (lists.map .list) = some (.list lists.reverse.flatten) := by
  induction lists with
  | nil => exact absurd rfl h
  | cons items above ih =>
    rw [List.map_cons, List.reverse_cons, List.flatten_append, List.flatten_singleton]
    by_cases habove : above = []
    · subst habove
      rfl
    · exact mergeAll?_cons_of_some _ (ih habove)

/-- Maps are united, and the nearest wins. -/
theorem mergeAll?_maps {maps : List Mapping} (h : maps ≠ [])
    (hmaps : ∀ m ∈ maps, HasTextKeys m ∧ m.textKeys.Nodup) :
    ∃ m : Mapping, mergeAll? (maps.map .map) = some (.map m) ∧ HasTextKeys m ∧
      ∀ name, m.named? name = maps.findSome? fun m ↦ m.named? name := by
  induction maps with
  | nil => exact absurd rfl h
  | cons own above ih =>
    obtain ⟨hown, hnodup⟩ := hmaps own List.mem_cons_self
    by_cases habove : above = []
    · subst habove
      exact ⟨own, rfl, hown, fun name ↦ by simp⟩
    · obtain ⟨m, hm, htext, hnamed⟩ := ih habove fun m hm ↦ hmaps m (List.mem_cons_of_mem _ hm)
      refine ⟨m.overlay own, ?_, htext.overlay hown, fun name ↦ ?_⟩
      · rw [List.map_cons, mergeAll?_cons_of_some _ hm, mergeValue_map hown]
      · rw [Entries.named?, Entries.get?_overlay hnodup, List.findSome?_cons, ← hnamed,
          Entries.named?, Entries.named?]
        cases own.get? (.str name) <;> rfl

/-! ### Combining two maps -/

/-- Binds an option that is present on both sides to the merged value. -/
def mergeInto (inherited own m : Mapping) (name : Value) : Mapping :=
  match inherited.get? name, own.get? name with
  | some base, some top => m.set name (mergeValue base top)
  | _, _ => m

theorem combine_eq (base top : Mapping) (names : List Value) :
    combine base top names = names.foldl (mergeInto base top) (base.overlay top) := rfl

theorem get?_mergeInto_self (base top m : Mapping) (name : Text) :
    (mergeInto base top m (.str name)).get? (.str name) =
      ((base.get? (.str name)).bind fun inherited ↦
        (top.get? (.str name)).map (mergeValue inherited)).or (m.get? (.str name)) := by
  rw [mergeInto]
  cases base.get? (.str name) with
  | none => rfl
  | some inherited =>
    cases top.get? (.str name) with
    | none => rfl
    | some own => exact Entries.get?_set_self m name _

theorem get?_mergeInto_of_ne (h : key ≠ .str name) (base top m : Mapping) :
    (mergeInto base top m key).get? (.str name) = m.get? (.str name) := by
  rw [mergeInto]
  split
  · exact Entries.get?_set_of_ne h m _
  · rfl

/-- However often a name is listed, its option is merged once. -/
theorem get?_foldl_mergeInto (base top m : Mapping) (names : List Value) (name : Text) :
    (names.foldl (mergeInto base top) m).get? (.str name) =
      (if names.any fun other ↦ other.same (.str name) then
        (base.get? (.str name)).bind fun inherited ↦
          (top.get? (.str name)).map (mergeValue inherited)
      else none).or (m.get? (.str name)) := by
  induction names generalizing m with
  | nil => rfl
  | cons other rest ih =>
    rw [List.foldl_cons, ih, List.any_cons]
    by_cases hother : other = .str name
    · subst hother
      rw [get?_mergeInto_self, Value.str_same_iff.mpr rfl, Bool.true_or, if_pos rfl]
      split
      · rw [← Option.or_assoc, Option.or_self]
      · rfl
    · have hsame : other.same (.str name) = false :=
        Bool.eq_false_iff.mpr (mt Value.same_str_iff.mp hother)
      rw [get?_mergeInto_of_ne hother, hsame, Bool.false_or]

theorem named?_combine_of_once (h : (top.bindings name).length ≤ 1) (base : Mapping)
    (names : List Value) : (combine base top names).named? name =
      combined? (names.any fun other ↦ other.same (.str name)) (base.named? name)
        (top.named? name) := by
  rw [combine_eq, Entries.named?, get?_foldl_mergeInto, Entries.get?_overlay_of_once h,
    Entries.named?, Entries.named?]
  cases base.get? (.str name) with
  | none => cases top.get? (.str name) <;> cases names.any _ <;> rfl
  | some inherited => cases top.get? (.str name) <;> cases names.any _ <;> rfl

theorem named?_combine (h : top.textKeys.Nodup) (base : Mapping) (names : List Value)
    (name : Text) : (combine base top names).named? name =
      combined? (names.any fun other ↦ other.same (.str name)) (base.named? name)
        (top.named? name) :=
  named?_combine_of_once (Entries.length_bindings_le_one h name) base names

theorem keys_mergeInto {m : Mapping} (h : base.contains key = true → m.contains key = true) :
    (mergeInto base top m key).keys = m.keys := by
  rw [mergeInto]
  split
  next inherited own hbase _ =>
    rw [Entries.keys_set, if_pos (h (by rw [Entries.contains, hbase, Option.isSome_some]))]
  next => rfl

/-- A merged option is bound already, so that merging adds no key. -/
theorem keys_foldl_mergeInto {m : Mapping}
    (h : ∀ k, base.contains k = true → m.contains k = true) :
    (names.foldl (mergeInto base top) m).keys = m.keys := by
  induction names generalizing m with
  | nil => rfl
  | cons name rest ih =>
    have hkeys : (mergeInto base top m name).keys = m.keys := keys_mergeInto (h name)
    rw [List.foldl_cons, ih, hkeys]
    intro k hk
    rw [Entries.contains_eq_any, hkeys, ← Entries.contains_eq_any]
    exact h k hk

theorem mem_keys_of_mem_combine (h : key ∈ (combine base top names).keys) :
    key ∈ base.keys ∨ key ∈ top.keys := by
  rw [combine_eq, keys_foldl_mergeInto fun k hk ↦ Entries.contains_overlay_of_contains hk top] at h
  exact Entries.mem_keys_of_mem_overlay h

/-- Merging once more changes nothing. -/
theorem mergeInto_foldl (hkey : ∃ x, key = .str x) (hmem : key ∈ names) (m : Mapping) :
    mergeInto base top (names.foldl (mergeInto base top) m) key =
      names.foldl (mergeInto base top) m := by
  obtain ⟨x, rfl⟩ := hkey
  have hget := get?_foldl_mergeInto base top m names x
  have hany : (names.any fun other ↦ other.same (.str x)) = true :=
    List.any_eq_true.mpr ⟨_, hmem, Value.str_same_iff.mpr rfl⟩
  rw [hany, if_pos rfl] at hget
  rw [mergeInto]
  split
  next inherited own hbase htop =>
    rw [hbase, htop] at hget
    exact Entries.set_of_get? hget
  next => rfl

/-- Names that are listed already, or not bound on both sides, may be left out. -/
theorem combine_append {more : List Value} (h : ∀ name ∈ more,
      (∃ x, name = .str x) ∧ name ∈ names ∨ top.get? name = none ∨ base.get? name = none) :
    combine base top (names ++ more) = combine base top names := by
  rw [combine_eq, combine_eq, List.foldl_append]
  induction more with
  | nil => rfl
  | cons name rest ih =>
    have hfirst : mergeInto base top (names.foldl (mergeInto base top) (base.overlay top)) name =
        names.foldl (mergeInto base top) (base.overlay top) := by
      rcases h name List.mem_cons_self with ⟨hname, hmem⟩ | hnone | hnone
      · exact mergeInto_foldl hname hmem _
      · rw [mergeInto, hnone]
        cases base.get? name <;> rfl
      · rw [mergeInto, hnone]
    rw [List.foldl_cons, hfirst]
    exact ih fun name hmem ↦ h name (List.mem_cons_of_mem _ hmem)

end Options

end UrlRouting

import Mathlib.Data.List.Forall2
import UrlRouting.Proofs.Options.Combining

/-!
Merging two maps whose keys are strings and positions. What such a map binds is known from its
strings and from its positions with their values (`Keyed.get?_eq`). The positions of a union are
those of the inherited map, followed by the own values, counted on from the last inherited position
(`positions_absorb`), so that nothing is lost (`Unites`) and unions of three maps do not depend on
the order in which they are made.
-/

namespace UrlRouting.Options

variable {m base middle top : Mapping} {key other value : Value} {i next : Int} {t : Text}

/-! ### Positions -/

/-- The number of a key that is a position. -/
def position? : Value → Option Int
  | .int i => some i
  | .bool b => some (if b then 1 else 0)
  | _ => none

theorem isPosition_eq (key : Value) : isPosition key = (position? key).isSome := by
  cases key <;> rfl

theorem toInt?_of_position? (h : position? key = some i) : key.toInt? = some i := by
  cases key with
  | int j => exact h
  | bool b => exact h
  | _ => cases h

theorem same_of_position? (h : position? key = some i) (other : Value) :
    key.same other = other.toInt?.elim false (i == ·) := by
  have hsame : key.same other = key.sameNumber other := by
    cases key <;> first | (cases other <;> rfl) | cases h
  rw [hsame, Value.sameNumber, toInt?_of_position? h]
  · cases other.toInt? <;> rfl
  · rintro x _ rfl
    cases h

theorem same_iff_of_position? (h : position? key = some i) :
    key.same other = true ↔ other.toInt? = some i := by
  rw [same_of_position? h]
  cases other.toInt? with
  | none => exact iff_of_false nofun nofun
  | some j => rw [Option.elim_some, beq_iff_eq, Option.some_inj, eq_comm]

theorem named?_cons_of_position? (h : position? key = some i) (value : Value) (m : Mapping)
    (t : Text) : Entries.named? ((key, value) :: m) t = m.named? t :=
  if_neg fun hsame ↦ by cases (same_iff_of_position? h).mp hsame

/-- The positions of a map with their values, in its order. -/
def positions (m : Mapping) : List (Int × Value) :=
  m.filterMap fun entry ↦ (position? entry.1).map (·, entry.2)

theorem positions_cons (key value : Value) (m : Mapping) :
    positions ((key, value) :: m) = ((position? key).map (·, value)).toList ++ positions m := by
  cases h : position? key <;> simp [positions, h]

theorem fst_positions (m : Mapping) :
    (positions m).map Prod.fst = m.keys.filterMap position? := by
  rw [positions, Entries.keys, List.map_filterMap, List.filterMap_map]
  refine congrArg (List.filterMap · m) (funext fun entry ↦ ?_)
  cases h : position? entry.1 <;> simp [h]

theorem positions_set_str (m : Mapping) (t : Text) (value : Value) :
    positions (Entries.set m (.str t) value) = positions m := by
  induction m with
  | nil => rfl
  | cons entry rest ih =>
    obtain ⟨key, other⟩ := entry
    rw [Entries.set]
    split
    next hkey =>
      rw [Value.same_str_iff.mp hkey]
      rfl
    next => rw [positions_cons, positions_cons, ih]

theorem lastPosition?_eq (m : Mapping) : lastPosition? m = ((positions m).map Prod.fst).max? := by
  induction m with
  | nil => rfl
  | cons entry rest ih =>
    obtain ⟨key, value⟩ := entry
    rw [lastPosition?, isPosition_eq, positions_cons, ih]
    cases hkey : position? key with
    | none => rfl
    | some i =>
      rw [toInt?_of_position? hkey]
      cases hmax : ((positions rest).map Prod.fst).max? <;> simp [List.max?_cons, hmax]

theorem lt_nextPosition (h : i ∈ (positions m).map Prod.fst) : i < nextPosition m := by
  rw [nextPosition, lastPosition?_eq]
  cases hmax : ((positions m).map Prod.fst).max? with
  | none =>
    rw [List.max?_eq_none_iff.mp hmax] at h
    cases h
  | some last => exact Int.lt_add_one_of_le ((List.max?_eq_some_iff.mp hmax).2 i h)

/-! ### Maps of strings and positions -/

/-- All keys are strings or positions, and no two of them are the same. -/
structure Keyed (m : Mapping) : Prop where
  kinds : ∀ key ∈ m.keys, key.text?.isSome = true ∨ isPosition key = true
  distinct : m.keys.Pairwise fun key other ↦ key.same other = false

instance (m : Mapping) : Decidable (Keyed m) :=
  decidable_of_iff ((∀ key ∈ m.keys, key.text?.isSome = true ∨ isPosition key = true) ∧
    m.keys.Pairwise fun key other ↦ key.same other = false)
    ⟨fun h ↦ ⟨h.1, h.2⟩, fun h ↦ ⟨h.kinds, h.distinct⟩⟩

namespace Keyed

theorem cons_iff {value : Value} : Keyed ((key, value) :: m) ↔
    (key.text?.isSome = true ∨ isPosition key = true) ∧
      (∀ other ∈ m.keys, key.same other = false) ∧ Keyed m := by
  constructor
  · intro h
    have hdistinct := List.pairwise_cons.mp h.distinct
    exact ⟨h.kinds key List.mem_cons_self, hdistinct.1,
      fun other hmem ↦ h.kinds other (List.mem_cons_of_mem _ hmem), hdistinct.2⟩
  · rintro ⟨hkey, hsame, hm⟩
    exact ⟨List.forall_mem_cons.mpr ⟨hkey, hm.kinds⟩, List.pairwise_cons.mpr ⟨hsame, hm.distinct⟩⟩

theorem set (h : Keyed m) (hkey : key.text?.isSome = true ∨ isPosition key = true)
    (value : Value) : Keyed (Entries.set m key value) := by
  refine ⟨fun other hmem ↦ ?_, ?_⟩
  · rcases Entries.mem_keys_of_mem_set hmem with hmem | rfl
    · exact h.kinds other hmem
    · exact hkey
  · rw [Entries.keys_set]
    split
    · exact h.distinct
    next hbound =>
      rw [Entries.contains_eq_any, List.any_eq_true] at hbound
      refine List.pairwise_append.mpr ⟨h.distinct, List.pairwise_singleton _ _, ?_⟩
      intro first hfirst last hlast
      rw [List.mem_singleton.mp hlast, Bool.eq_false_iff]
      exact fun hsame ↦ hbound ⟨first, hfirst, hsame⟩

theorem nodup_textKeys (h : Keyed m) : m.textKeys.Nodup := by
  have hkeys : m.textKeys = m.keys.filterMap Value.text? := by
    rw [Entries.keys, List.filterMap_map]
    rfl
  rw [hkeys, List.Nodup, List.pairwise_filterMap]
  refine h.distinct.imp fun hdiffer t ht u hu htu ↦ ?_
  rw [Value.text?_eq_some_iff.mp ht, Value.text?_eq_some_iff.mp hu, htu,
    Value.str_same_iff.mpr rfl] at hdiffer
  cases hdiffer

theorem nodup_positions (h : Keyed m) : ((positions m).map Prod.fst).Nodup := by
  rw [fst_positions, List.Nodup, List.pairwise_filterMap]
  refine h.distinct.imp fun hdiffer i hi j hj hij ↦ ?_
  rw [(same_iff_of_position? hi).mpr (hij ▸ toInt?_of_position? hj)] at hdiffer
  cases hdiffer

/-- What a map binds is known from its strings and its positions. -/
theorem get?_eq (h : Keyed m) (key : Value) : m.get? key =
    (key.text?.bind fun t ↦ m.named? t).or (key.toInt?.bind fun i ↦ (positions m).lookup i) := by
  induction m with
  | nil => cases key.text? <;> cases key.toInt? <;> rfl
  | cons entry rest ih =>
    obtain ⟨first, value⟩ := entry
    obtain ⟨hfirst, -, hrest⟩ := cons_iff.mp h
    rw [Entries.get?, ih hrest, positions_cons]
    rcases hfirst with hfirst | hfirst
    · obtain ⟨t, ht⟩ := Option.isSome_iff_exists.mp hfirst
      obtain rfl := Value.text?_eq_some_iff.mp ht
      by_cases hkey : key = .str t
      · subst hkey
        have hbound : Entries.named? ((.str t, value) :: rest) t = some value :=
          if_pos (Value.str_same_iff.mpr rfl)
        rw [if_pos (Value.str_same_iff.mpr rfl), Value.text?, Option.bind_some, hbound,
          Option.some_or]
      · rw [if_neg (mt Value.str_same_iff.mp hkey)]
        cases htext : key.text? with
        | none => rfl
        | some u =>
          obtain rfl := Value.text?_eq_some_iff.mp htext
          rw [Option.bind_some, Option.bind_some, Entries.named?, Entries.named?, Entries.get?,
            if_neg (mt Value.str_same_iff.mp hkey)]
          rfl
    · rw [isPosition_eq] at hfirst
      obtain ⟨i, hi⟩ := Option.isSome_iff_exists.mp hfirst
      simp only [named?_cons_of_position? hi, hi, Option.map_some, Option.toList_some,
        List.singleton_append, List.lookup_cons]
      split
      next hsame =>
        have hint := (same_iff_of_position? hi).mp hsame
        have htext : key.text? = none := by cases key <;> first | rfl | cases hint
        rw [htext, hint, Option.bind_some, beq_self_eq_true]
        rfl
      next hsame =>
        cases hint : key.toInt? with
        | none => rfl
        | some j =>
          have hji : j ≠ i := fun heq ↦ hsame ((same_iff_of_position? hi).mpr (heq ▸ hint))
          rw [Option.bind_some, Option.bind_some, beq_false_of_ne hji]

theorem get?_int (h : Keyed m) (i : Int) : m.get? (.int i) = (positions m).lookup i :=
  h.get?_eq (.int i)

end Keyed

/-! ### The union of two maps -/

/-- Values with the positions from `next` on. -/
def numbered (next : Int) (values : List Value) : List (Int × Value) :=
  values.mapIdx fun k value ↦ (next + k, value)

theorem numbered_cons (next : Int) (value : Value) (values : List Value) :
    numbered next (value :: values) = (next, value) :: numbered (next + 1) values := by
  simp [numbered, List.mapIdx_cons, Int.add_comm, Int.add_left_comm]

theorem numbered_append (next : Int) (values more : List Value) :
    numbered next (values ++ more) =
      numbered next values ++ numbered (next + values.length) more := by
  simp [numbered, List.mapIdx_append, Int.add_comm, Int.add_left_comm]

theorem snd_numbered (next : Int) (values : List Value) :
    (numbered next values).map Prod.snd = values := by
  induction values generalizing next with
  | nil => rfl
  | cons value rest ih => rw [numbered_cons, List.map_cons, ih]

theorem forall₂_numbered {r : Int → Value → Prop} {values : List Value}
    (h : ∀ pair ∈ numbered next values, r pair.1 pair.2) :
    List.Forall₂ r ((numbered next values).map Prod.fst) values := by
  have hpairs : List.Forall₂ r ((numbered next values).map Prod.fst)
      ((numbered next values).map Prod.snd) :=
    List.forall₂_map_left_iff.mpr (List.forall₂_map_right_iff.mpr (List.forall₂_same.mpr h))
  rwa [snd_numbered] at hpairs

theorem mem_fst_numbered {values : List Value} :
    i ∈ (numbered next values).map Prod.fst ↔ next ≤ i ∧ i < next + values.length := by
  induction values generalizing next with
  | nil => simp [numbered]
  | cons value rest ih =>
    rw [numbered_cons, List.map_cons, List.mem_cons, ih, List.length_cons]
    omega

theorem pairwise_fst_numbered (next : Int) (values : List Value) :
    ((numbered next values).map Prod.fst).Pairwise (· < ·) := by
  induction values generalizing next with
  | nil => exact .nil
  | cons value rest ih =>
    rw [numbered_cons, List.map_cons, List.pairwise_cons]
    refine ⟨fun i hi ↦ ?_, ih (next + 1)⟩
    have hi' := (mem_fst_numbered.mp hi).1
    omega

/-- Absorbing entries appends their values at positions that follow. -/
theorem positions_absorb (hm : Keyed m) (htop : Keyed top)
    (hnext : ∀ i ∈ (positions m).map Prod.fst, i < next) :
    positions (absorb m next top) =
      positions m ++ numbered next ((positions top).map Prod.snd) := by
  induction top generalizing m next with
  | nil => exact (List.append_nil _).symm
  | cons entry rest ih =>
    obtain ⟨key, value⟩ := entry
    obtain ⟨hkey, -, hrest⟩ := Keyed.cons_iff.mp htop
    rw [absorb, isPosition_eq, positions_cons]
    cases hposition : position? key with
    | none =>
      have htext : key.text?.isSome = true := by simpa [isPosition_eq, hposition] using hkey
      obtain ⟨t, ht⟩ := Option.isSome_iff_exists.mp htext
      obtain rfl := Value.text?_eq_some_iff.mp ht
      have hset : positions (Entries.set m (.str t) value) = positions m :=
        positions_set_str m t value
      rw [if_neg (by simp), ih (hm.set hkey value) hrest (by rwa [hset]), hset]
      rfl
    | some j =>
      have hunbound : m.contains (.int next) = false := by
        rw [Entries.contains, hm.get?_int, Option.isSome_eq_false_iff, Option.isNone_iff_eq_none,
          List.lookup_eq_none_iff]
        intro pair hpair
        have := hnext pair.1 (List.mem_map_of_mem hpair)
        simp
        omega
      have hset : positions (Entries.set m (.int next) value) = positions m ++ [(next, value)] := by
        rw [Entries.set_of_not_contains hunbound, positions, List.filterMap_append]
        rfl
      have hlater : ∀ i ∈ (positions (Entries.set m (.int next) value)).map Prod.fst,
          i < next + 1 := by
        rw [hset, List.map_append]
        intro i hi
        rcases List.mem_append.mp hi with hi | hi
        · have := hnext i hi
          omega
        · rw [List.mem_singleton.mp hi]
          exact Int.lt_add_one_of_le (Int.le_refl next)
      rw [if_pos (Option.isSome_some), ih (hm.set (.inr rfl) value) hrest hlater, hset,
        List.append_assoc, List.singleton_append, ← numbered_cons]
      rfl

/-- Strings are bound as if the entries were laid over the map. -/
theorem get?_absorb (m : Mapping) (next : Int) (top : Mapping) (t : Text) :
    (absorb m next top).get? (.str t) = (m.overlay top).get? (.str t) := by
  rw [Entries.get?_overlay_eq]
  induction top generalizing m next with
  | nil => rfl
  | cons entry rest ih =>
    obtain ⟨key, value⟩ := entry
    rw [absorb]
    split
    next hkey =>
      have hne : key ≠ .str t := by
        rintro rfl
        cases hkey
      have hnext : Value.int next ≠ .str t := nofun
      rw [ih, Entries.get?_set_of_ne hnext, Entries.bindings_cons_of_ne hne]
    next =>
      rw [ih]
      by_cases hne : key = .str t
      · subst hne
        rw [Entries.get?_set_self, Entries.bindings_cons_self, List.getLast?_cons]
        cases (Entries.bindings rest t).getLast? <;> rfl
      · rw [Entries.get?_set_of_ne hne, Entries.bindings_cons_of_ne hne]

theorem named?_absorb (h : Keyed top) (m : Mapping) (next : Int) (t : Text) :
    (absorb m next top).named? t = (top.named? t).or (m.named? t) :=
  (get?_absorb m next top t).trans (Entries.get?_overlay h.nodup_textKeys m t)

theorem Keyed.absorb (hm : Keyed m) (htop : Keyed top) (next : Int) :
    Keyed (absorb m next top) := by
  induction top generalizing m next with
  | nil => exact hm
  | cons entry rest ih =>
    obtain ⟨hkey, -, hrest⟩ := cons_iff.mp htop
    rw [Options.absorb]
    split
    · exact ih (hm.set (.inr rfl) _) hrest _
    · exact ih (hm.set hkey _) hrest _

/-- A map holds what two maps hold together. -/
structure Unites (base top m : Mapping) : Prop where
  keyed : Keyed m
  /-- The positions of the first map stay, with their values. -/
  kept : ∀ i value, base.get? (.int i) = some value → m.get? (.int i) = some value
  /-- The values at the positions of the second map come at fresh positions, in the same order, and
  there are no other positions. -/
  added : ∃ fresh : List Int, fresh.Pairwise (· < ·) ∧ (∀ i ∈ fresh, base.get? (.int i) = none) ∧
    List.Forall₂ (fun i value ↦ m.get? (.int i) = some value) fresh
      ((positions top).map Prod.snd) ∧
    ∀ i, (m.get? (.int i)).isSome = true → (base.get? (.int i)).isSome = true ∨ i ∈ fresh
  /-- Strings are bound as in the second map, and otherwise as in the first. -/
  named : ∀ t, m.named? t = (top.named? t).or (base.named? t)

/-- The union of two maps. -/
def united (base top : Mapping) : Mapping := absorb base (nextPosition base) top

theorem mergeValue_maps (base top : Mapping) :
    mergeValue (.map base) (.map top) = .map (united base top) := rfl

theorem Keyed.united (hbase : Keyed base) (htop : Keyed top) : Keyed (united base top) :=
  hbase.absorb htop _

theorem positions_united (hbase : Keyed base) (htop : Keyed top) :
    positions (united base top) =
      positions base ++ numbered (nextPosition base) ((positions top).map Prod.snd) :=
  positions_absorb hbase htop fun _ ↦ lt_nextPosition

theorem unites_united (hbase : Keyed base) (htop : Keyed top) :
    Unites base top (united base top) := by
  have hm := hbase.united htop
  have hpositions := positions_united hbase htop
  refine ⟨hm, fun i value h ↦ ?_, ?_, named?_absorb htop base _⟩
  · rw [hbase.get?_int] at h
    rw [hm.get?_int, hpositions, List.lookup_append, h, Option.some_or]
  · refine ⟨_, pairwise_fst_numbered (nextPosition base) ((positions top).map Prod.snd),
      fun i hi ↦ ?_, ?_, fun i hi ↦ ?_⟩
    · rw [hbase.get?_int, List.lookup_eq_none_iff]
      intro pair hpair
      have hbelow := lt_nextPosition (List.mem_map_of_mem hpair)
      have habove := (mem_fst_numbered.mp hi).1
      simp
      omega
    · refine forall₂_numbered fun pair hpair ↦ ?_
      rw [hm.get?_int]
      exact lookup_of_mem hm.nodup_positions (hpositions ▸ List.mem_append_right _ hpair)
    · rw [hm.get?_int, hpositions, List.lookup_append, ← hbase.get?_int, Option.isSome_or,
        Bool.or_eq_true] at hi
      refine hi.imp_right fun hi ↦ ?_
      obtain ⟨pair, hpair, hsame⟩ := List.lookup_isSome_iff.mp hi
      exact eq_of_beq hsame ▸ List.mem_map_of_mem hpair

/-- The positions of a union are counted on from those that were given last. -/
theorem nextPosition_united (hbase : Keyed base) (htop : Keyed top) :
    nextPosition (united base top) = nextPosition base + (positions top).length := by
  rw [nextPosition, lastPosition?_eq, positions_united hbase htop, List.map_append]
  by_cases hvalues : positions top = []
  · rw [hvalues, nextPosition, lastPosition?_eq]
    simp [numbered]
  · have hpos : 0 < (positions top).length := List.length_pos_iff.mpr hvalues
    have hlast : ((positions base).map Prod.fst ++ (numbered (nextPosition base)
        ((positions top).map Prod.snd)).map Prod.fst).max? =
        some (nextPosition base + (positions top).length - 1) := by
      refine List.max?_eq_some_iff.mpr ⟨List.mem_append_right _ ?_, fun i hi ↦ ?_⟩
      · rw [mem_fst_numbered, List.length_map]
        omega
      · rcases List.mem_append.mp hi with hi | hi
        · have := lt_nextPosition hi
          omega
        · rw [mem_fst_numbered, List.length_map] at hi
          omega
    rw [hlast, Option.elim_some]
    omega

theorem positions_united_assoc (hbase : Keyed base) (hmiddle : Keyed middle) (htop : Keyed top) :
    positions (united (united base middle) top) = positions (united base (united middle top)) := by
  rw [positions_united (hbase.united hmiddle) htop, positions_united hbase hmiddle,
    positions_united hbase (hmiddle.united htop), positions_united hmiddle htop,
    nextPosition_united hbase hmiddle, List.map_append, snd_numbered, numbered_append,
    List.append_assoc, List.length_map]

theorem named?_united_assoc (hmiddle : Keyed middle) (htop : Keyed top) (t : Text) :
    (united (united base middle) top).named? t = (united base (united middle top)).named? t := by
  rw [united, named?_absorb htop, united, named?_absorb hmiddle, united,
    named?_absorb (hmiddle.united htop), united, named?_absorb htop, Option.or_assoc]

/-- Merging two maps of strings and positions loses nothing, and it is associative. -/
theorem mergeValue_unites :
    (∀ base top : Mapping, Keyed base → Keyed top →
      ∃ m, mergeValue (.map base) (.map top) = .map m ∧ Unites base top m) ∧
    ∀ base middle top : Mapping, Keyed base → Keyed middle → Keyed top →
      ∃ m m' : Mapping, mergeValue (mergeValue (.map base) (.map middle)) (.map top) = .map m ∧
        mergeValue (.map base) (mergeValue (.map middle) (.map top)) = .map m' ∧
        Keyed m ∧ Keyed m' ∧ ∀ key, m.get? key = m'.get? key := by
  refine ⟨fun base top hbase htop ↦ ⟨_, mergeValue_maps base top, unites_united hbase htop⟩,
    fun base middle top hbase hmiddle htop ↦ ?_⟩
  have hm := (hbase.united hmiddle).united htop
  have hm' := hbase.united (hmiddle.united htop)
  refine ⟨united (united base middle) top, united base (united middle top), ?_, ?_, hm, hm',
    fun key ↦ ?_⟩
  · rw [mergeValue_maps, mergeValue_maps]
  · rw [mergeValue_maps, mergeValue_maps]
  · rw [hm.get?_eq, hm'.get?_eq, positions_united_assoc hbase hmiddle htop,
      funext fun t ↦ named?_united_assoc hmiddle htop t]

/-- Positions may be negative, and a truth value counts as one. -/
theorem mergeValue_unites_three :
    let base : Mapping := [(.int (-5), "a"), ("x", "b")]
    let middle : Mapping := [("x", "c"), (.int 3, "d"), (.int (-2), "e")]
    let top : Mapping := [(.bool true, "f"), ("y", "g")]
    (Keyed base ∧ Keyed middle ∧ Keyed top) ∧
    Unites base middle [(.int (-5), "a"), ("x", "c"), (.int (-4), "d"), (.int (-3), "e")] ∧
    ∃ m m' : Mapping, mergeValue (mergeValue (.map base) (.map middle)) (.map top) = .map m ∧
      mergeValue (.map base) (mergeValue (.map middle) (.map top)) = .map m' ∧
      Keyed m ∧ Keyed m' ∧ ∀ key, m.get? key = m'.get? key := by
  intro base middle top
  have hbase : Keyed base := by decide
  have hmiddle : Keyed middle := by decide
  have htop : Keyed top := by decide
  obtain ⟨m, hm, hunites⟩ := mergeValue_unites.1 base middle hbase hmiddle
  cases hm
  exact ⟨⟨hbase, hmiddle, htop⟩, hunites,
    mergeValue_unites.2 base middle top hbase hmiddle htop⟩

end UrlRouting.Options

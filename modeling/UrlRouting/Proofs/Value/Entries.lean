import Mathlib.Data.List.Induction
import UrlRouting.Value.Mapping

/-!
Look-ups of string keys in maps. A string is the same as no other value, so that each operation on
a map says what a string key is bound to afterwards without regard to how other keys compare.
-/

namespace UrlRouting

theorem lookup_map {α β γ : Type} [BEq α] (f : β → γ) (pairs : List (α × β)) (a : α) :
    (pairs.map fun pair ↦ (pair.1, f pair.2)).lookup a = (pairs.lookup a).map f := by
  induction pairs with
  | nil => rfl
  | cons pair rest ih =>
    rw [List.map_cons, List.lookup_cons, List.lookup_cons, ih]
    split <;> rfl

theorem lookup_of_mem {α β : Type} [BEq α] [LawfulBEq α] {pairs : List (α × β)} {a : α} {b : β}
    (hnodup : (pairs.map Prod.fst).Nodup) (h : (a, b) ∈ pairs) : pairs.lookup a = some b := by
  obtain ⟨front, back, rfl⟩ := List.append_of_mem h
  refine List.lookup_eq_some_iff.mpr ⟨front, back, rfl, fun pair hpair ↦ ?_⟩
  rw [List.map_append, List.map_cons] at hnodup
  rw [bne_iff_ne]
  exact Ne.symm ((List.nodup_append.mp hnodup).2.2 _ (List.mem_map_of_mem hpair) a
    List.mem_cons_self)

namespace Value

variable {v w : Value} {s t : Text}

attribute [local simp] same sameNumber toInt?

@[simp] theorem same_str_iff : v.same (.str t) = true ↔ v = .str t := by
  cases v <;> simp

@[simp] theorem str_same_iff : (str s).same w = true ↔ w = .str s := by
  cases w with
  | str t => simpa using ⟨Eq.symm, Eq.symm⟩
  | _ => simp

theorem text?_eq_some_iff : v.text? = some t ↔ v = .str t := by
  cases v <;> simp [text?]

theorem text?_eq_of_same (h : v.same w = true) : v.text? = w.text? := by
  cases v with
  | str s => rw [str_same_iff.mp h]
  | _ =>
    cases w with
    | str t => exact congrArg text? (same_str_iff.mp h)
    | _ => rfl

end Value

namespace Entries

variable {α β : Type} {m base top : Entries α} {k : Value} {a : α} {t : Text}

theorem get?_append (m top : Entries α) (k : Value) :
    get? (m ++ top) k = (m.get? k).or (get? top k) := by
  induction m with
  | nil => simp [get?]
  | cons entry rest ih =>
    obtain ⟨key, b⟩ := entry
    by_cases h : key.same k <;> simp [get?, h, ih]

theorem mem_of_get?_eq_some (h : m.get? k = some a) : ∃ key, key.same k = true ∧ (key, a) ∈ m := by
  induction m with
  | nil => simp [get?] at h
  | cons entry rest ih =>
    obtain ⟨key, b⟩ := entry
    by_cases hk : key.same k
    · rw [get?, if_pos hk, Option.some.injEq] at h
      subst h
      exact ⟨key, hk, List.mem_cons_self⟩
    · rw [get?, if_neg hk] at h
      obtain ⟨key', hs, hm⟩ := ih h
      exact ⟨key', hs, List.mem_cons_of_mem _ hm⟩

theorem mem_of_get?_str_eq_some (h : m.get? (.str t) = some a) : (.str t, a) ∈ m := by
  obtain ⟨key, hs, hm⟩ := mem_of_get?_eq_some h
  rwa [Value.same_str_iff.mp hs] at hm

theorem mem_set {entry : Value × α} (h : entry ∈ m.set k a) :
    entry ∈ m ∨ entry.2 = a ∧ (entry.1 = k ∨ entry.1.same k = true) := by
  induction m with
  | nil => simp_all [set]
  | cons first rest ih =>
    obtain ⟨key, b⟩ := first
    by_cases hk : key.same k
    · rw [set, if_pos hk, List.mem_cons] at h
      rcases h with rfl | h
      · exact .inr ⟨rfl, .inr hk⟩
      · exact .inl (List.mem_cons_of_mem _ h)
    · rw [set, if_neg hk, List.mem_cons] at h
      rcases h with rfl | h
      · exact .inl List.mem_cons_self
      · exact (ih h).imp_left (List.mem_cons_of_mem _)

theorem set_of_not_contains (h : m.contains k = false) (a : α) : m.set k a = m ++ [(k, a)] := by
  induction m with
  | nil => rfl
  | cons first rest ih =>
    obtain ⟨key, b⟩ := first
    by_cases hk : key.same k
    · simp [contains, get?, hk] at h
    · rw [contains, get?, if_neg hk] at h
      rw [set, if_neg hk, ih h, List.cons_append]

@[simp] theorem get?_set_self (m : Entries α) (t : Text) (a : α) :
    (m.set (.str t) a).get? (.str t) = some a := by
  induction m with
  | nil => simp [set, get?]
  | cons first rest ih =>
    obtain ⟨key, b⟩ := first
    by_cases hk : key.same (.str t) <;> simp [set, get?, hk, ih]

theorem get?_set_of_ne (h : k ≠ .str t) (m : Entries α) (a : α) :
    (m.set k a).get? (.str t) = m.get? (.str t) := by
  induction m with
  | nil =>
    have hk : ¬k.same (.str t) = true := fun hs ↦ h (Value.same_str_iff.mp hs)
    simp [set, get?, hk]
  | cons first rest ih =>
    obtain ⟨key, b⟩ := first
    by_cases hk : key.same k
    · have ht : ¬key.same (.str t) = true := by
        intro hs
        rw [Value.same_str_iff.mp hs] at hk
        exact h (Value.str_same_iff.mp hk)
      simp [set, get?, hk, ht]
    · by_cases ht : key.same (.str t) <;> simp [set, get?, hk, ht, ih]

/-- Whether a string is bound depends on the keys only. -/
theorem get?_eq_none_iff : m.get? (.str t) = none ↔ Value.str t ∉ m.keys := by
  induction m with
  | nil => exact iff_of_true rfl List.not_mem_nil
  | cons first rest ih =>
    obtain ⟨key, b⟩ := first
    rw [get?, keys, List.map_cons, List.mem_cons, not_or]
    split
    next hk => exact iff_of_false nofun fun h ↦ h.1 (Value.same_str_iff.mp hk).symm
    next hk =>
      rw [ih]
      exact ⟨fun h ↦ ⟨fun he ↦ hk (Value.same_str_iff.mpr he.symm), h⟩, fun h ↦ h.2⟩

/-- Everything that a string is bound to: a look-up finds the first. -/
def bindings (m : Entries α) (t : Text) : List α :=
  (m.filter fun entry ↦ entry.1.same (.str t)).map Prod.snd

theorem bindings_cons_self (t : Text) (a : α) (m : Entries α) :
    bindings ((.str t, a) :: m) t = a :: m.bindings t := by
  simp [bindings]

theorem bindings_cons_of_ne (h : k ≠ .str t) (a : α) (m : Entries α) :
    bindings ((k, a) :: m) t = m.bindings t := by
  simp [bindings, h]

theorem head?_bindings (m : Entries α) (t : Text) : (m.bindings t).head? = m.get? (.str t) := by
  induction m with
  | nil => rfl
  | cons first rest ih =>
    obtain ⟨key, a⟩ := first
    by_cases hk : key = .str t
    · subst hk
      rw [bindings_cons_self, get?, if_pos (Value.same_str_iff.mpr rfl), List.head?_cons]
    · rw [bindings_cons_of_ne hk, get?, if_neg (mt Value.same_str_iff.mp hk), ih]

theorem bindings_eq_nil_iff : m.bindings t = [] ↔ m.get? (.str t) = none := by
  rw [← head?_bindings, List.head?_eq_none_iff]

theorem bindings_set_self (m : Entries α) (t : Text) (a : α) :
    (m.set (.str t) a).bindings t = a :: (m.bindings t).tail := by
  induction m with
  | nil => exact bindings_cons_self t a []
  | cons first rest ih =>
    obtain ⟨key, b⟩ := first
    by_cases hk : key = .str t
    · subst hk
      rw [set, if_pos (Value.same_str_iff.mpr rfl), bindings_cons_self, bindings_cons_self,
        List.tail_cons]
    · rw [set, if_neg (mt Value.same_str_iff.mp hk), bindings_cons_of_ne hk,
        bindings_cons_of_ne hk, ih]

theorem bindings_set_of_ne (h : k ≠ .str t) (m : Entries α) (a : α) :
    (m.set k a).bindings t = m.bindings t := by
  induction m with
  | nil => exact bindings_cons_of_ne h a []
  | cons first rest ih =>
    obtain ⟨key, b⟩ := first
    rw [set]
    split
    next hk =>
      have hkey : key ≠ .str t := by
        rintro rfl
        exact h (Value.str_same_iff.mp hk)
      rw [bindings_cons_of_ne hkey, bindings_cons_of_ne hkey]
    next =>
      by_cases hkey : key = .str t
      · subst hkey
        rw [bindings_cons_self, bindings_cons_self, ih]
      · rw [bindings_cons_of_ne hkey, bindings_cons_of_ne hkey, ih]

/-- Laid over a map, a map wins wherever it binds a string, with what it binds it to last. -/
theorem get?_overlay_eq (base top : Entries α) (t : Text) :
    (base.overlay top).get? (.str t) = (top.bindings t).getLast?.or (base.get? (.str t)) := by
  induction top generalizing base with
  | nil => rfl
  | cons first rest ih =>
    obtain ⟨key, b⟩ := first
    rw [overlay, List.foldl_cons, ← overlay, ih]
    by_cases hk : key = .str t
    · subst hk
      rw [get?_set_self, bindings_cons_self, List.getLast?_cons]
      cases (bindings rest t).getLast? <;> rfl
    · rw [get?_set_of_ne hk, bindings_cons_of_ne hk]

theorem get?_overlay_of_none {top : Entries α} (h : top.get? (.str t) = none) (base : Entries α) :
    (base.overlay top).get? (.str t) = base.get? (.str t) := by
  rw [get?_overlay_eq, bindings_eq_nil_iff.mpr h]
  rfl

theorem get?_overlay_of_once (h : (top.bindings t).length ≤ 1) (base : Entries α) :
    (base.overlay top).get? (.str t) = (top.get? (.str t)).or (base.get? (.str t)) := by
  rw [get?_overlay_eq, ← head?_bindings top]
  match htop : top.bindings t with
  | [] => rfl
  | [a] => rfl
  | a :: b :: rest =>
    rw [htop] at h
    exact absurd h (by simp)

theorem get?_setDefault (h : m.contains (.str t) = true) (k : Value) (a : α) :
    (m.setDefault k a).get? (.str t) = m.get? (.str t) := by
  rw [setDefault]
  split
  · rfl
  next hk =>
    rw [set_of_not_contains (by simpa using hk), get?_append, Option.or_of_isSome h]

/-- The characters of the keys that are strings. -/
def textKeys (m : Entries α) : List Text := m.filterMap fun entry ↦ entry.1.text?

theorem textKeys_cons (k : Value) (a : α) (m : Entries α) :
    textKeys ((k, a) :: m) = k.text?.toList ++ m.textKeys := by
  rcases h : k.text? with _ | t <;> simp [textKeys, h]

theorem length_bindings (m : Entries α) (t : Text) :
    (m.bindings t).length = m.textKeys.count t := by
  induction m with
  | nil => rfl
  | cons first rest ih =>
    obtain ⟨key, a⟩ := first
    rw [textKeys_cons, List.count_append, ← ih]
    by_cases hk : key = .str t
    · subst hk
      simp [bindings_cons_self, Value.text?, Nat.add_comm]
    · have ht : key.text? ≠ some t := mt Value.text?_eq_some_iff.mp hk
      rw [bindings_cons_of_ne hk]
      rcases hkey : key.text? with _ | u
      · simp
      · have hu : u ≠ t := fun h ↦ ht (h ▸ hkey)
        simp [hu]

theorem bindings_of_not_mem (h : t ∉ m.textKeys) : m.bindings t = [] :=
  List.eq_nil_of_length_eq_zero ((length_bindings m t).trans (List.count_eq_zero.mpr h))

theorem bindings_overlay_of_not_mem (h : t ∉ top.textKeys) (base : Entries α) :
    (base.overlay top).bindings t = base.bindings t := by
  induction top generalizing base with
  | nil => rfl
  | cons first rest ih =>
    obtain ⟨key, a⟩ := first
    rw [textKeys_cons, List.mem_append, not_or] at h
    have hk : key ≠ .str t := by
      rintro rfl
      exact h.1 (by simp [Value.text?])
    exact (ih h.2 _).trans (bindings_set_of_ne hk base a)

theorem bindings_erase_of_ne (h : k ≠ .str t) (m : Entries α) :
    (m.erase k).bindings t = m.bindings t := by
  induction m with
  | nil => rfl
  | cons first rest ih =>
    obtain ⟨key, a⟩ := first
    by_cases hkey : key = .str t
    · subst hkey
      have hsame : Value.same (.str t) k = false :=
        Bool.eq_false_iff.mpr fun hsame ↦ h (Value.str_same_iff.mp hsame)
      rw [erase, List.filter_cons_of_pos (by simp [hsame]), ← erase, bindings_cons_self,
        bindings_cons_self, ih]
    · rw [bindings_cons_of_ne hkey, ← ih, erase, List.filter_cons, ← erase]
      split
      · rw [bindings_cons_of_ne hkey]
      · rfl

theorem length_bindings_le_one (h : m.textKeys.Nodup) (t : Text) : (m.bindings t).length ≤ 1 :=
  length_bindings m t ▸ List.nodup_iff_count.mp h t

/-- Laid over a map, a map whose string keys are distinct wins wherever it binds a string. -/
theorem get?_overlay (h : top.textKeys.Nodup) (base : Entries α) (t : Text) :
    (base.overlay top).get? (.str t) = (top.get? (.str t)).or (base.get? (.str t)) :=
  get?_overlay_of_once (length_bindings_le_one h t) base

theorem textKeys_set_str (m : Entries α) (t : Text) (a : α) :
    (m.set (.str t) a).textKeys = if t ∈ m.textKeys then m.textKeys else m.textKeys ++ [t] := by
  induction m with
  | nil => simp [set, textKeys, Value.text?]
  | cons first rest ih =>
    obtain ⟨key, b⟩ := first
    by_cases hk : key.same (.str t)
    · rw [Value.same_str_iff.mp hk]
      simp [set, textKeys, Value.text?]
    · have ht : key.text? ≠ some t := fun h ↦ hk (by simp [Value.text?_eq_some_iff.mp h])
      rw [set, if_neg hk]
      rcases hkey : key.text? with _ | u
      · simpa only [textKeys_cons, hkey, Option.toList_none, List.nil_append] using ih
      · have hu : t ≠ u := fun h ↦ ht (h ▸ hkey)
        simp only [textKeys_cons, hkey, Option.toList_some, List.singleton_append, ih,
          List.mem_cons, hu, false_or]
        split <;> rfl

theorem nodup_textKeys_set_str (h : m.textKeys.Nodup) (t : Text) (a : α) :
    (m.set (.str t) a).textKeys.Nodup := by
  rw [textKeys_set_str]
  split
  · exact h
  next ht =>
    refine List.nodup_append.mpr ⟨h, by simp, ?_⟩
    rintro u hu v hv rfl
    exact ht (List.mem_singleton.mp hv ▸ hu)

theorem nodup_textKeys_ofPairs (pairs : List (Text × α)) :
    (ofPairs (pairs.map fun pair ↦ (Value.str pair.1, pair.2))).textKeys.Nodup := by
  suffices h : ∀ m : Entries α, m.textKeys.Nodup →
      (m.overlay (pairs.map fun pair ↦ (Value.str pair.1, pair.2))).textKeys.Nodup from
    h [] List.nodup_nil
  induction pairs with
  | nil => exact fun m hm ↦ hm
  | cons pair rest ih => exact fun m hm ↦ ih _ (nodup_textKeys_set_str hm _ _)

theorem keys_set_of_contains (h : m.contains k = true) (a : α) : (m.set k a).keys = m.keys := by
  induction m with
  | nil => cases h
  | cons first rest ih =>
    obtain ⟨key, b⟩ := first
    by_cases hk : key.same k
    · rw [set, if_pos hk]
      rfl
    · rw [contains, get?, if_neg hk] at h
      rw [set, if_neg hk]
      exact congrArg (key :: ·) (ih h)

theorem ofPairs_append_singleton (pairs : List (Value × α)) (k : Value) (a : α) :
    ofPairs (pairs ++ [(k, a)]) = (ofPairs pairs).set k a := by
  rw [ofPairs, overlay, List.foldl_append]
  rfl

/-- The keys of a map of pairs come in the order in which they occur first. -/
theorem keys_ofPairs (pairs : List (Text × α)) :
    (ofPairs (pairs.map fun pair ↦ (Value.str pair.1, pair.2))).keys =
      (pairs.map Prod.fst).eraseDups.map Value.str := by
  induction pairs using List.reverseRecOn with
  | nil => rfl
  | append_singleton pairs pair ih =>
    obtain ⟨name, a⟩ := pair
    have hbound : contains (ofPairs (pairs.map fun pair ↦ (Value.str pair.1, pair.2)))
        (.str name) = true ↔ name ∈ pairs.map Prod.fst := by
      rw [contains, Option.isSome_iff_ne_none, Ne, get?_eq_none_iff, Classical.not_not, ih]
      simp
    rw [List.map_append, List.map_singleton, ofPairs_append_singleton, List.map_append,
      List.map_singleton, List.eraseDups_append, List.removeAll]
    by_cases hname : name ∈ pairs.map Prod.fst
    · rw [keys_set_of_contains (hbound.mpr hname), ih,
        List.filter_cons_of_neg (by simpa using hname)]
      simp
    · rw [set_of_not_contains (Bool.eq_false_iff.mpr (mt hbound.mp hname)), keys, List.map_append,
        ← keys, ih, List.filter_cons_of_pos (by simpa using hname), List.map_append]
      rfl

/-- In a map of pairs, a string is bound to what it is paired with last. -/
theorem get?_ofPairs (pairs : List (Text × α)) (t : Text) :
    (ofPairs (pairs.map fun pair ↦ (Value.str pair.1, pair.2))).get? (.str t) =
      pairs.reverse.lookup t := by
  induction pairs using List.reverseRecOn with
  | nil => rfl
  | append_singleton pairs pair ih =>
    obtain ⟨name, a⟩ := pair
    rw [List.map_append, List.map_singleton, ofPairs_append_singleton, List.reverse_append,
      List.reverse_singleton, List.singleton_append, List.lookup_cons]
    by_cases hname : name = t
    · rw [hname, get?_set_self, beq_self_eq_true]
    · rw [get?_set_of_ne fun h ↦ hname (Value.str.inj h), ih,
        beq_false_of_ne (Ne.symm hname)]

/-- Maps with the same strings for keys, each once and in the same order, are the same if they bind
them alike. -/
theorem eq_of_get?_eq {m' : Entries α} {names : List Text} (hm : m.keys = names.map .str)
    (hm' : m'.keys = names.map .str) (hnames : names.Nodup)
    (h : ∀ t, m.get? (.str t) = m'.get? (.str t)) : m = m' := by
  induction names generalizing m m' with
  | nil => rw [List.map_eq_nil_iff.mp hm, List.map_eq_nil_iff.mp hm']
  | cons name rest ih =>
    obtain ⟨hname, hrest⟩ := List.nodup_cons.mp hnames
    obtain ⟨⟨_, a⟩, more, rfl, rfl, hmore⟩ := List.map_eq_cons_iff.mp hm
    obtain ⟨⟨key, b⟩, more', rfl, hkey, hmore'⟩ := List.map_eq_cons_iff.mp hm'
    obtain rfl : key = .str name := hkey
    have hbound {m : Entries α} (a : α) (hm : m.keys = rest.map .str) (t : Text) :
        m.get? (.str t) = if t = name then none else get? ((.str name, a) :: m) (.str t) := by
      split
      next ht =>
        rw [ht, get?_eq_none_iff, hm, List.mem_map]
        rintro ⟨_, hmem, heq⟩
        exact hname (Value.str.inj heq ▸ hmem)
      next ht => rw [get?, if_neg (mt Value.same_str_iff.mp fun heq ↦ ht (Value.str.inj heq).symm)]
    have hfirst : a = b := by simpa [get?] using h name
    have hmaps : more = more' := ih hmore hmore' hrest fun t ↦ by
      rw [hbound a hmore, hbound b hmore', h t]
    rw [hfirst, hmaps]

theorem get?_filter {p : Value × α → Bool} (h : ∀ a, p (.str t, a) = true) (m : Entries α) :
    get? (m.filter p) (.str t) = m.get? (.str t) := by
  induction m with
  | nil => rfl
  | cons first rest ih =>
    obtain ⟨key, b⟩ := first
    by_cases hk : key.same (.str t)
    · obtain rfl := Value.same_str_iff.mp hk
      rw [List.filter_cons_of_pos (h b), get?, get?, if_pos hk, if_pos hk]
    · rw [get?, if_neg hk, ← ih, List.filter_cons]
      split
      · rw [get?, if_neg hk]
      · rfl

@[simp] theorem get?_erase_self (m : Entries α) (t : Text) :
    (m.erase (.str t)).get? (.str t) = none := by
  rw [get?_eq_none_iff, keys, List.mem_map]
  rintro ⟨⟨key, a⟩, hmem, rfl⟩
  have hkey := (List.mem_filter.mp hmem).2
  rw [Value.same_str_iff.mpr rfl] at hkey
  cases hkey

theorem get?_erase_of_ne (h : k ≠ .str t) (m : Entries α) :
    (m.erase k).get? (.str t) = m.get? (.str t) := by
  refine get?_filter (fun a ↦ ?_) m
  rw [Bool.not_eq_true', Bool.eq_false_iff]
  exact fun hsame ↦ h (Value.str_same_iff.mp hsame)

theorem get?_map (f : Value → α → β) (m : Entries α) (t : Text) :
    get? (m.map fun entry ↦ (entry.1, f entry.1 entry.2)) (.str t) =
      (m.get? (.str t)).map (f (.str t)) := by
  induction m with
  | nil => rfl
  | cons first rest ih =>
    obtain ⟨key, b⟩ := first
    by_cases hk : key.same (.str t)
    · obtain rfl := Value.same_str_iff.mp hk
      simp [get?]
    · simpa [get?, hk] using ih

end Entries

namespace Mapping

variable {name other : Text}

theorem named_set_self (m : Mapping) (name : Text) (value : Value) :
    Mapping.named (Entries.set m (.str name) value) name = value := by
  rw [named, Entries.named?, Entries.get?_set_self]
  rfl

theorem named_set_of_ne (h : other ≠ name) (m : Mapping) (value : Value) :
    Mapping.named (Entries.set m (.str name) value) other = m.named other := by
  rw [named, named, Entries.named?, Entries.named?,
    Entries.get?_set_of_ne fun he ↦ h (Value.str.inj he).symm]

theorem named_erase_self (m : Mapping) (name : Text) :
    Mapping.named (Entries.erase m (.str name)) name = .null := by
  rw [named, Entries.named?, Entries.get?_erase_self]
  rfl

theorem named_erase_of_ne (h : other ≠ name) (m : Mapping) :
    Mapping.named (Entries.erase m (.str name)) other = m.named other := by
  rw [named, named, Entries.named?, Entries.named?,
    Entries.get?_erase_of_ne fun he ↦ h (Value.str.inj he).symm]

end Mapping

end UrlRouting

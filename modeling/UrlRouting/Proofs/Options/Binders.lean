import UrlRouting.Options.Edit
import UrlRouting.Proofs.Options.Merging

/-!
Binders in a map of models. A binder is bound to the number of entries. This is a new key unless
the map came with that number as a key of its own: then the binder takes the place of what is bound
to it. All binders are kept, whatever is bound after them, just if the map has room for them: no
number from its size on is a key (`hasRoom_iff`).
-/

namespace UrlRouting.Options

variable {m m' m'' : Mapping} {key other value : Value} {values more : List Value}

/-- What can be bound in a map of models: a binder of variables, or a parameter to a model. A name
alone is that of the model for the parameter `id`. -/
inductive Binding where
  | binder (value : Value) (callable : value.isCallable = true)
  | parameter (name : Text) (model required : Value)

namespace Binding

def binder? : Binding → Option Value
  | binder value _ => some value
  | parameter _ _ _ => none

def extend : Binding → Mapping → Mapping
  | binder value _, m => m.set (.int m.length) value
  | parameter name model required, m =>
    if model.isNull then m.set "id" (.tuple [.str name, .bool true])
    else m.set (.str name) (.tuple [model, required])

end Binding

/-- A map in which one thing after the other is bound. -/
def extendAll (m : Mapping) (bindings : List Binding) : Mapping :=
  bindings.foldl (fun m b ↦ b.extend m) m

/-! ### Numbers that are bound -/

theorem contains_set_of_not_same (h : key.same other = false) (m : Mapping) (value : Value) :
    Entries.contains (Entries.set m key value) other = Entries.contains m other := by
  rw [Entries.contains_eq_any, Entries.contains_eq_any, Entries.keys_set]
  split
  · rfl
  · rw [List.any_append, List.any_cons, List.any_nil, h, Bool.false_or, Bool.or_false]

theorem length_set (m : Mapping) (key value : Value) :
    (Entries.set m key value).length = m.length + if m.contains key then 0 else 1 := by
  have hkeys : (Entries.set m key value).length = (Entries.set m key value).keys.length := by
    rw [Entries.keys, List.length_map]
  rw [hkeys, Entries.keys_set]
  split
  · rw [Entries.keys, List.length_map, Nat.add_zero]
  · rw [List.length_append, Entries.keys, List.length_map, List.length_singleton]

theorem length_positions_set_int (m : Mapping) (i : Int) (value : Value) :
    (positions (Entries.set m (.int i) value)).length =
      (positions m).length + if m.contains (.int i) then 0 else 1 := by
  have hlength (m : Mapping) : (positions m).length = (m.keys.filterMap position?).length := by
    rw [← fst_positions, List.length_map]
  rw [hlength, hlength, Entries.keys_set]
  split
  · rw [Nat.add_zero]
  · rw [List.filterMap_append, List.length_append]
    rfl

/-- A binder is added behind all entries just if the size of the map is not among its keys. -/
theorem exists_set_eq_append_iff (m : Mapping) (key value : Value) :
    (∃ added, Entries.set m key value = m ++ [(added, value)]) ↔ m.contains key = false := by
  constructor
  · rintro ⟨added, hadded⟩
    have hlength := length_set m key value
    rw [hadded, List.length_append, List.length_singleton] at hlength
    rw [Bool.eq_false_iff]
    intro hbound
    rw [hbound, if_pos rfl] at hlength
    exact absurd hlength (Nat.succ_ne_self _)
  · exact fun hunbound ↦ ⟨key, Entries.set_of_not_contains hunbound value⟩

/-! ### Maps with room -/

/-- No number from the size of the map on is a key. -/
def HasRoom (m : Mapping) : Prop := ∀ n : Nat, m.length ≤ n → m.contains (.int n) = false

/-- What was bound to numbers stays so, and the values are bound to further numbers behind it. -/
structure Appends (m m' : Mapping) (values : List Value) : Prop where
  kept : positions m <+: positions m'
  values : (positions m').map Prod.snd = (positions m).map Prod.snd ++ values

namespace Appends

theorem refl (m : Mapping) : Appends m m [] := ⟨List.prefix_refl _, (List.append_nil _).symm⟩

theorem trans (h : Appends m m' values) (h' : Appends m' m'' more) :
    Appends m m'' (values ++ more) :=
  ⟨h.kept.trans h'.kept, by rw [h'.values, h.values, List.append_assoc]⟩

theorem length_positions (h : Appends m m' values) :
    (positions m').length = (positions m).length + values.length := by
  have hvalues := congrArg List.length h.values
  rwa [List.length_append, List.length_map, List.length_map] at hvalues

end Appends

namespace Binding

/-- A parameter is bound under a string. -/
theorem exists_extend_parameter (name : Text) (model required : Value) (m : Mapping) :
    ∃ (t : Text) (value : Value),
      (parameter name model required).extend m = Entries.set m (.str t) value := by
  rw [extend]
  split
  · exact ⟨_, _, rfl⟩
  · exact ⟨_, _, rfl⟩

end Binding

namespace HasRoom

theorem extend (h : HasRoom m) (b : Binding) : HasRoom (b.extend m) := by
  intro n hn
  cases b with
  | binder value callable =>
    rw [Binding.extend, length_set, h _ (Nat.le_refl _)] at hn
    have hlt : m.length < n := hn
    have hne : Value.same (.int m.length) (.int n) = false := by
      simp only [Value.same, Value.sameNumber, Value.toInt?, beq_eq_false_iff_ne]
      omega
    rw [Binding.extend, contains_set_of_not_same hne]
    exact h n (Nat.le_of_lt hlt)
  | parameter name model required =>
    obtain ⟨t, value, hset⟩ := Binding.exists_extend_parameter name model required m
    rw [hset, length_set] at hn
    have hne : Value.same (.str t) (.int n) = false := rfl
    rw [hset, contains_set_of_not_same hne]
    exact h n (Nat.le_of_add_right_le hn)

theorem appends_extend (h : HasRoom m) (b : Binding) :
    Appends m (b.extend m) b.binder?.toList := by
  cases b with
  | binder value callable =>
    have hset : positions (Entries.set m (.int m.length) value) =
        positions m ++ [((m.length : Int), value)] := by
      rw [Entries.set_of_not_contains (h _ (Nat.le_refl _)), positions, List.filterMap_append]
      rfl
    rw [Binding.extend]
    refine ⟨?_, ?_⟩
    · rw [hset]
      exact List.prefix_append _ _
    · rw [hset, List.map_append]
      rfl
  | parameter name model required =>
    obtain ⟨t, value, hset⟩ := Binding.exists_extend_parameter name model required m
    have hpositions : positions ((Binding.parameter name model required).extend m) =
        positions m := by rw [hset, positions_set_str]
    refine ⟨hpositions.symm ▸ List.prefix_refl _, ?_⟩
    rw [hpositions]
    exact (List.append_nil _).symm

theorem appends_extendAll (h : HasRoom m) (bindings : List Binding) :
    Appends m (extendAll m bindings) (bindings.filterMap Binding.binder?) := by
  induction bindings generalizing m with
  | nil => exact .refl m
  | cons b rest ih =>
    have hvalues : (b :: rest).filterMap Binding.binder? =
        b.binder?.toList ++ rest.filterMap Binding.binder? := by
      rw [List.filterMap_cons]
      cases b.binder? <;> rfl
    rw [hvalues]
    exact (h.appends_extend b).trans (ih (h.extend b))

theorem of_hasTextKeys (h : HasTextKeys m) : HasRoom m := by
  intro n _
  rw [Entries.contains_eq_any, List.any_eq_false]
  intro key hkey
  obtain ⟨t, ht⟩ := Option.isSome_iff_exists.mp (h key hkey)
  rw [Value.text?_eq_some_iff.mp ht]
  exact Bool.false_ne_true

/-- If a binder is kept however often it is bound, then each time under a new number. So they come
to every number from the size of the map on, and none of these was a key. -/
theorem of_appends {binder : Value} (callable : binder.isCallable = true)
    (h : ∀ count, Appends m (extendAll m (List.replicate count (.binder binder callable)))
      (List.replicate count binder)) : HasRoom m := by
  let grown (count : Nat) : Mapping := extendAll m (List.replicate count (.binder binder callable))
  have hsucc (count : Nat) :
      grown (count + 1) = Entries.set (grown count) (.int (grown count).length) binder := by
    change extendAll m (List.replicate (count + 1) _) = _
    rw [List.replicate_succ', extendAll, List.foldl_append]
    rfl
  have hunbound (count : Nat) :
      Entries.contains (grown count) (.int (grown count).length) = false := by
    have hmore : (positions (grown (count + 1))).length = _ := (h (count + 1)).length_positions
    have hless : (positions (grown count)).length = _ := (h count).length_positions
    rw [hsucc, length_positions_set_int, hless, List.length_replicate, List.length_replicate,
      ← Nat.add_assoc] at hmore
    rw [Bool.eq_false_iff]
    intro hbound
    rw [hbound, if_pos rfl] at hmore
    omega
  have hlength (count : Nat) : (grown count).length = m.length + count := by
    induction count with
    | zero => rfl
    | succ count ih =>
      rw [hsucc, length_set, hunbound, ih, Nat.add_assoc]
      rfl
  have hkept (key : Value) (hbound : m.contains key = true) (count : Nat) :
      Entries.contains (grown count) key = true := by
    induction count with
    | zero => exact hbound
    | succ count ih =>
      rw [hsucc]
      exact Entries.contains_set_of_contains ih _ _
  intro n hn
  obtain ⟨count, rfl⟩ := Nat.exists_eq_add_of_le hn
  rw [Bool.eq_false_iff]
  intro hbound
  have hfresh := hunbound count
  rw [hlength, hkept _ hbound] at hfresh
  cases hfresh

end HasRoom

/-- All binders are kept, whatever is bound next, just if the map has room for them. -/
theorem hasRoom_iff : HasRoom m ↔ ∀ bindings : List Binding,
    Appends m (extendAll m bindings) (bindings.filterMap Binding.binder?) := by
  refine ⟨HasRoom.appends_extendAll, fun h ↦ ?_⟩
  have hcallable : Value.isCallable (.function []) = true := rfl
  refine HasRoom.of_appends hcallable fun count ↦ ?_
  have hbinders : (List.replicate count (Binding.binder _ hcallable)).filterMap Binding.binder? =
      List.replicate count _ := List.filterMap_replicate_of_some rfl
  exact hbinders ▸ h _

end UrlRouting.Options

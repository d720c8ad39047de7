import UrlRouting.Text.Basic

/-!
Named fields, as headers and query strings hold them. A name that is given more than once keeps its
first value: `Fields.get?_ofPairs` says that it is looked up among the pairs themselves.
-/

namespace UrlRouting.Http

/-- Names with their values, in the order in which the names were given first. -/
abbrev Fields := List (Text × Text)

def Fields.ofPairs : List (Text × Text) → Fields
  | [] => []
  | (name, value) :: rest =>
    (name, value) :: (Fields.ofPairs rest).filter fun field ↦ field.1 != name

def Fields.get? (fields : Fields) (name : Text) : Option Text := fields.lookup name

theorem Fields.get?_filter_ne {fields : Fields} {name other : Text} (h : name ≠ other) :
    Fields.get? (fields.filter fun field ↦ field.1 != other) name = fields.get? name := by
  induction fields with
  | nil => rfl
  | cons field rest ih =>
    obtain ⟨first, value⟩ := field
    simp only [Fields.get?] at ih ⊢
    by_cases hf : first = other
    · rw [List.filter_cons_of_neg (by simp [hf]), ih, List.lookup_cons, hf]
      simp [beq_false_of_ne h]
    · rw [List.filter_cons_of_pos (by simp [hf]), List.lookup_cons, List.lookup_cons, ih]

theorem Fields.get?_ofPairs (pairs : List (Text × Text)) (name : Text) :
    (Fields.ofPairs pairs).get? name = pairs.lookup name := by
  induction pairs with
  | nil => rfl
  | cons pair rest ih =>
    obtain ⟨other, value⟩ := pair
    rw [Fields.ofPairs, Fields.get?, List.lookup_cons, List.lookup_cons]
    by_cases h : name = other
    · simp [h]
    · have hf : ((Fields.ofPairs rest).filter fun field ↦ field.1 != other).lookup name =
          (Fields.ofPairs rest).lookup name := Fields.get?_filter_ne h
      rw [hf, ← ih, Fields.get?]

end UrlRouting.Http

import UrlRouting.Text.Basic

/-!
Replacing a text throughout another one: from the left, an occurrence is replaced as a whole and any
other character is kept. `replace_induction` follows this, and says what replacing leaves alone.
-/

namespace UrlRouting.Text

variable {old new t front : Text} {c : Char}

theorem replaceAfter_append (old new front t : Text) :
    replaceAfter old new front.length (front ++ t) = replaceAfter old new 0 t := by
  induction front with
  | nil => rfl
  | cons c front ih => exact ih

@[simp] theorem replace_nil (old new : Text) : replace old new [] = [] := rfl

theorem replace_append (h : old ≠ []) (new t : Text) :
    replace old new (old ++ t) = new ++ replace old new t := by
  cases old with
  | nil => exact absurd rfl h
  | cons c rest =>
    have hprefix : (c :: rest).isPrefixOf (c :: (rest ++ t)) = true :=
      List.isPrefixOf_iff_prefix.mpr (List.prefix_append _ _)
    rw [replace, List.cons_append, replaceAfter, if_pos hprefix]
    exact congrArg _ (replaceAfter_append _ _ _ _)

theorem replace_cons (h : ¬old <+: c :: t) (new : Text) :
    replace old new (c :: t) = c :: replace old new t := by
  have hprefix : ¬old.isPrefixOf (c :: t) = true := fun hp ↦ h (List.isPrefixOf_iff_prefix.mp hp)
  rw [replace, replaceAfter, if_neg hprefix, replace]

/-- A text in which no occurrence begins is kept. -/
theorem replace_front (h : ∀ u, u <:+ front → u ≠ [] → ¬old <+: u ++ t) (new : Text) :
    replace old new (front ++ t) = front ++ replace old new t := by
  induction front with
  | nil => rfl
  | cons d rest ih =>
    have hnot : ¬old <+: d :: (rest ++ t) := h (d :: rest) List.suffix_rfl (List.cons_ne_nil _ _)
    rw [List.cons_append, replace_cons hnot,
      ih fun u hu ↦ h u (hu.trans (List.suffix_cons _ _)), List.cons_append]

theorem replace_through (h : ∀ d ∈ front, d ≠ c) (old new t : Text) :
    replace (c :: old) new (front ++ t) = front ++ replace (c :: old) new t := by
  refine replace_front (fun u hu hne hp ↦ ?_) new
  cases u with
  | nil => exact hne rfl
  | cons d rest =>
    exact h d (hu.mem List.mem_cons_self) (List.cons_prefix_cons.mp hp).1.symm

theorem replace_eq_self (h : ¬old <:+: t) (new : Text) : replace old new t = t := by
  induction t with
  | nil => rfl
  | cons c rest ih =>
    rw [List.infix_cons_iff, not_or] at h
    rw [replace_cons h.1, ih h.2]

theorem replace_induction {motive : Text → Text → Prop} (hold : old ≠ []) (nil : motive [] [])
    (hit : ∀ t, motive t (replace old new t) → motive (old ++ t) (new ++ replace old new t))
    (keep : ∀ c t, ¬old <+: c :: t → motive t (replace old new t) →
      motive (c :: t) (c :: replace old new t)) (t : Text) : motive t (replace old new t) := by
  induction hl : t.length using Nat.strongRecOn generalizing t with
  | ind length ih =>
    subst hl
    cases t with
    | nil => exact nil
    | cons c rest =>
      by_cases hp : old <+: c :: rest
      · obtain ⟨after, hafter⟩ := hp
        have hpos : 0 < old.length := List.length_pos_iff.mpr hold
        have hlength := congrArg List.length hafter
        rw [List.length_append] at hlength
        rw [← hafter, replace_append hold]
        exact hit after (ih _ (by omega) after rfl)
      · rw [replace_cons hp]
        exact keep c rest hp (ih _ (Nat.lt_succ_self _) rest rfl)

/-- No occurrence runs over a character that stands in it at most at its beginning. -/
theorem replace_append_cons (hold : old ≠ []) (hc : c ∉ old.tail) (new front t : Text) :
    replace old new (front ++ c :: t) = replace old new front ++ replace old new (c :: t) := by
  refine replace_induction (motive := fun u u' ↦
    replace old new (u ++ c :: t) = u' ++ replace old new (c :: t)) hold rfl ?_ ?_ front
  · intro u ih
    rw [List.append_assoc, replace_append hold, ih, List.append_assoc]
  · intro d u hnot ih
    have hkept : ¬old <+: d :: (u ++ c :: t) := by
      intro hp
      rcases List.prefix_or_prefix_of_prefix hp (List.prefix_append (d :: u) _) with hu | hu
      · exact hnot hu
      · obtain ⟨back, rfl⟩ := hu
        cases back with
        | nil => exact hnot (by simp)
        | cons x back =>
          rw [List.cons_append, List.cons_prefix_cons, List.prefix_append_right_inj,
            List.cons_prefix_cons] at hp
          rw [List.cons_append, List.tail_cons, ← hp.2.1] at hc
          exact hc (by simp)
    rw [List.cons_append, replace_cons hkept, ih, List.cons_append]

/-- A character that the text to be replaced does not hold is not removed. -/
theorem mem_replace (hold : old ≠ []) (ho : c ∉ old) {t : Text} (h : c ∈ t) :
    c ∈ replace old new t := by
  refine replace_induction (motive := fun t t' ↦ c ∈ t → c ∈ t') hold id ?_ ?_ t h
  · intro t ih h
    exact List.mem_append_right _ (ih ((List.mem_append.mp h).resolve_left ho))
  · intro d t _ ih h
    exact (List.mem_cons.mp h).elim (fun hd ↦ hd ▸ List.mem_cons_self)
      fun h ↦ List.mem_cons_of_mem _ (ih h)

/-- A character that the replacing text does not hold is not put in. -/
theorem mem_of_mem_replace (hold : old ≠ []) (hn : c ∉ new) {t : Text}
    (h : c ∈ replace old new t) : c ∈ t := by
  refine replace_induction (motive := fun t t' ↦ c ∈ t' → c ∈ t) hold id ?_ ?_ t h
  · intro t ih h
    exact List.mem_append_right _ (ih ((List.mem_append.mp h).resolve_left hn))
  · intro d t _ ih h
    exact (List.mem_cons.mp h).elim (fun hd ↦ hd ▸ List.mem_cons_self)
      fun h ↦ List.mem_cons_of_mem _ (ih h)

end UrlRouting.Text

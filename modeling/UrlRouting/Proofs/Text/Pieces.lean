import Mathlib.Data.List.Induction
import UrlRouting.Proofs.Text.Ascii

/-!
The small form of a text, piece by piece. Between the occurrences of a character that is punctuation
the small form has pieces for those of the text (`spells_lower`), so that a text of which the small
form begins with that of another one can be cut where the other one can: `Spells.exists_common_cut`.
-/

namespace UrlRouting.Text

variable {d c : Char} {x t u y w front rest : Text}

/-- The second text has the separators of the first one, and some letters, at least one, for each of
its letters. -/
inductive Spells (d : Char) : Text → Text → Prop
  | nil : Spells d [] []
  | separator {x y : Text} (h : Spells d x y) : Spells d (d :: x) (d :: y)
  | letter {c : Char} {form x y : Text} (hc : c ≠ d) (hne : form ≠ []) (hform : d ∉ form)
      (h : Spells d x y) : Spells d (c :: x) (form ++ y)

theorem spells_lowerAfter (hd : IsPunctuation d) (t before : Text) :
    Spells d t (lowerAfter before t) := by
  induction t generalizing before with
  | nil => exact .nil
  | cons c rest ih =>
    rw [lowerAfter]
    by_cases hc : c = d
    · subst hc
      have hsigma : c ≠ 'Σ' := by
        rintro rfl
        exact absurd hd (by decide)
      rw [if_neg hsigma, lowerForm_of_isAscii hd.isAscii,
        toLower_of_not_alphanum hd.isAscii hd.2.2]
      exact .separator (ih _)
    · exact .letter hc (form_ne_nil c _ _) (not_mem_form hd hc _ _) (ih _)

theorem spells_lower (hd : IsPunctuation d) (t : Text) : Spells d t (lower t) :=
  spells_lowerAfter hd t []

namespace Spells

theorem append_separator (h : Spells d x y) : Spells d (x ++ [d]) (y ++ [d]) := by
  induction h with
  | nil => exact .separator .nil
  | separator _ ih => exact .separator ih
  | letter hc hne hform _ ih =>
    rw [List.append_assoc]
    exact .letter hc hne hform ih

/-- Up to the first separator, one text has letters if the other one has. -/
theorem exists_cut (h : Spells d (front ++ d :: x) y) (hfront : d ∉ front) :
    ∃ piece rest, y = piece ++ d :: rest ∧ d ∉ piece ∧ (piece = [] ↔ front = []) ∧
      Spells d x rest := by
  induction front generalizing y with
  | nil =>
    rw [List.nil_append] at h
    cases h with
    | separator h => exact ⟨[], _, rfl, List.not_mem_nil, Iff.rfl, h⟩
    | letter hc _ _ _ => exact absurd rfl hc
  | cons c front ih =>
    rw [List.mem_cons, not_or] at hfront
    rw [List.cons_append] at h
    cases h with
    | separator h => exact absurd rfl hfront.1
    | @letter _ form _ _ hc hne hform h =>
      obtain ⟨piece, rest, rfl, hpiece, -, hrest⟩ := ih h hfront.2
      refine ⟨form ++ piece, rest, (List.append_assoc _ _ _).symm, ?_, ?_, hrest⟩
      · rw [List.mem_append, not_or]
        exact ⟨hform, hpiece⟩
      · exact iff_of_false (List.append_ne_nil_of_left_ne_nil hne _) (List.cons_ne_nil _ _)

theorem eq_nil (h : Spells d x y) (hy : y = []) : x = [] := by
  cases h with
  | nil => rfl
  | separator h => cases hy
  | letter _ hne _ _ => exact absurd (List.append_eq_nil_iff.mp hy).1 hne

/-- Where what one text is spelled to comes first in what the other one is, both have their first
separator after letters or both after none. -/
theorem exists_common_cut (hx : Spells d (front ++ d :: x) y) (hu : Spells d (u ++ [d]) w)
    (hfirst : y <+: w) (hfront : d ∉ front) :
    ∃ t y', d ∉ t ∧ (front = [] → t = []) ∧ Spells d x y' ∧
      (u = t ∧ y' = [] ∨
        ∃ rest w', u = t ++ d :: rest ∧ Spells d (rest ++ [d]) w' ∧ y' <+: w') := by
  obtain ⟨t, rest, hcut, ht⟩ := List.eq_append_cons_of_mem
    (List.mem_append_right u (List.mem_singleton_self d))
  obtain ⟨piece, y', rfl, hpiece, hempty, hy⟩ := hx.exists_cut hfront
  rw [hcut] at hu
  obtain ⟨piece', w', rfl, hpiece', hempty', hw⟩ := hu.exists_cut ht
  obtain ⟨z, hz⟩ := hfirst
  have hsame := congrArg (cut? d) hz
  rw [List.append_assoc, List.cons_append, cut?_append_cons hpiece,
    cut?_append_cons hpiece'] at hsame
  obtain ⟨rfl, rfl⟩ := Prod.mk.inj (Option.some.inj hsame)
  refine ⟨t, y', ht, fun he ↦ hempty'.mp (hempty.mpr he), hy, ?_⟩
  cases rest using List.reverseRecOn with
  | nil =>
    generalize hz' : y' ++ z = w' at hw
    cases hw
    exact .inl ⟨List.append_cancel_right hcut, (List.append_eq_nil_iff.mp hz').1⟩
  | append_singleton rest last =>
    rw [← List.cons_append, ← List.append_assoc] at hcut
    obtain ⟨rfl, hlast⟩ := List.append_inj' hcut rfl
    rw [← hlast] at hw
    exact .inr ⟨rest, _, rfl, hw, List.prefix_append _ _⟩

end Spells

end UrlRouting.Text

import Mathlib.Data.List.Forall2
import UrlRouting.Proofs.Text.Ascii

/-!
Two ways to disregard case. A comparison of small forms tells characters apart that match each other
without regard to case, such as a long and a round small s. But for these, the small form of a text
begins with that of any text that its beginning matches: `lower_prefix_of_forall₂`.
-/

namespace UrlRouting.Text

variable {c x : Char} {t u front : Text}

/-- The characters match without regard to case, but their small forms differ. That of a capital
sigma depends on what is around it. -/
def Blurs (x c : Char) : Prop := x ∈ caseVariants c ∧ (c = 'Σ' ∨ lowerForm c ≠ lowerForm x)

instance (x c : Char) : Decidable (Blurs x c) := inferInstanceAs (Decidable (_ ∧ _))

theorem lowerForm_of_mem_caseVariants (hx : IsAscii x) (hc : IsAscii c) (h : x ∈ caseVariants c) :
    lowerForm c = lowerForm x := by
  obtain ⟨small, hsmall, hmem⟩ := List.mem_flatMap.mp h
  have hforms := forall_ascii (P := fun c ↦ ∀ small ∈ sameLetter (lowerChar c),
    (IsAscii small → lowerForm c = lowerForm small) ∧
      (small.isLower = true → lowerForm c = lowerForm small.toUpper)) (by decide +kernel) hc
  rcases List.mem_cons.mp hmem with rfl | hmem
  · exact (hforms x hsmall).1 hx
  · rcases mem_capitals hmem with ⟨hlower, rfl⟩ | hforeign
    · exact (hforms small hsmall).2 hlower
    · exact absurd hx hforeign

theorem not_blurs_of_isAscii (hx : IsAscii x) (hc : IsAscii c) : ¬Blurs x c := by
  rintro ⟨hmem, hsigma | hne⟩
  · rw [hsigma] at hc
    exact absurd hc (by decide)
  · exact hne (lowerForm_of_mem_caseVariants hx hc hmem)

/-- Somewhere within the first text, the characters at one place blur. -/
def BlursWithin (t u : Text) : Prop := ∃ pair ∈ t.zip u, Blurs pair.1 pair.2

instance (t u : Text) : Decidable (BlursWithin t u) := inferInstanceAs (Decidable (∃ _ ∈ _, _))

theorem not_blursWithin_of_isAscii (ht : ∀ c ∈ t, IsAscii c) (hu : ∀ c ∈ u, IsAscii c) :
    ¬BlursWithin t u := by
  rintro ⟨⟨x, c⟩, hpair, hblurs⟩
  obtain ⟨hx, hc⟩ := List.of_mem_zip hpair
  exact not_blurs_of_isAscii (ht x hx) (hu c hc) hblurs

/-- A text and what matches it without regard to case are small letter for small letter the same. -/
theorem lower_prefix_of_forall₂ (h : List.Forall₂ (fun x c ↦ x ∈ caseVariants c) t front)
    (hsigma : 'Σ' ∉ t) (hblurs : ¬BlursWithin t (front ++ u)) : lower t <+: lower (front ++ u) := by
  have hforms : 'Σ' ∉ front ∧ front.flatMap lowerForm = t.flatMap lowerForm := by
    clear hsigma
    induction h with
    | nil => exact ⟨List.not_mem_nil, rfl⟩
    | @cons x c t front hmem _ ih =>
      have hclear : ¬Blurs x c := fun h ↦ hblurs ⟨(x, c), List.mem_cons_self, h⟩
      obtain ⟨hfront, hforms⟩ := ih fun ⟨pair, hpair, h⟩ ↦
        hblurs ⟨pair, List.mem_cons_of_mem _ hpair, h⟩
      simp only [Blurs, hmem, true_and, not_or, ne_eq, not_not] at hclear
      refine ⟨?_, ?_⟩
      · rw [List.mem_cons, not_or]
        exact ⟨Ne.symm hclear.1, hfront⟩
      · rw [List.flatMap_cons, List.flatMap_cons, hclear.2, hforms]
  rw [lower_eq_flatMap hsigma, ← hforms.2, ← lower_eq_flatMap hforms.1]
  exact lower_prefix hforms.1 u

end UrlRouting.Text

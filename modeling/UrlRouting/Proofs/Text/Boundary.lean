import UrlRouting.Proofs.Text.Ascii
import UrlRouting.Proofs.Text.Split

/-!
Small letters, piece by piece. What stands on one side of a boundary, such as a slash or a bar, says
nothing about the letters on the other, so that the pieces between boundaries are put into small
letters one by one (`splitAt_lower`).
-/

namespace UrlRouting.Text

variable {d : Char}

/-- The character is punctuation that shuts off the letters on its one side from those on the
other. -/
def IsBoundary (c : Char) : Prop := IsPunctuation c ∧ isCaseIgnorable c = false

instance (c : Char) : Decidable (IsBoundary c) := inferInstanceAs (Decidable (_ ∧ _))

theorem IsPunctuation.isCased_eq_false (h : IsPunctuation d) : isCased d = false :=
  forall_ascii (P := fun c ↦ c.isAlphanum = false → isCased c = false) (by decide) h.isAscii h.2.2

theorem IsPunctuation.lowerForm_eq (h : IsPunctuation d) : lowerForm d = [d] := by
  rw [lowerForm_of_isAscii h.isAscii, toLower_of_not_alphanum h.isAscii h.2.2]

theorem IsPunctuation.lowerAfter_cons (h : IsPunctuation d) (before t : Text) :
    lowerAfter before (d :: t) = d :: lowerAfter (d :: before) t := by
  have hsigma : d ≠ 'Σ' := by
    rintro rfl
    exact absurd h (by decide)
  rw [lowerAfter, if_neg hsigma, h.lowerForm_eq]
  rfl

section Boundary

variable (hd : IsBoundary d)

include hd

theorem nextIsCased_append_boundary (t u : Text) :
    nextIsCased (t ++ d :: u) = nextIsCased t := by
  induction t with
  | nil => simp [nextIsCased, hd.2, hd.1.isCased_eq_false]
  | cons c rest ih =>
    cases hc : isCaseIgnorable c with
    | true => simpa [nextIsCased, hc] using ih
    | false => simp [nextIsCased, hc]

theorem lowerAfter_boundary (before u t : Text) :
    lowerAfter (before ++ d :: u) t = lowerAfter before t := by
  induction t generalizing before with
  | nil => rfl
  | cons c rest ih =>
    have hrest := ih (c :: before)
    rw [List.cons_append] at hrest
    rw [lowerAfter, lowerAfter, lowerSigma, lowerSigma, nextIsCased_append_boundary hd, hrest]

theorem lowerAfter_append_boundary (before t u : Text) :
    lowerAfter before (t ++ d :: u) = lowerAfter before t ++ d :: lower u := by
  induction t generalizing before with
  | nil =>
    have hfirst : lowerAfter before (d :: u) = d :: lowerAfter ([] ++ d :: before) u :=
      hd.1.lowerAfter_cons before u
    rw [List.nil_append, hfirst, lowerAfter_boundary hd]
    rfl
  | cons c rest ih =>
    rw [List.cons_append, lowerAfter, lowerAfter, lowerSigma, lowerSigma,
      nextIsCased_append_boundary hd, ih, List.append_assoc]

theorem lower_append_boundary (t u : Text) : lower (t ++ d :: u) = lower t ++ d :: lower u :=
  lowerAfter_append_boundary hd [] t u

theorem lower_boundary_cons (t : Text) : lower (d :: t) = d :: lower t :=
  lower_append_boundary hd [] t

/-- A text between boundaries is put into small letters piece by piece. -/
theorem splitAt_lower (t : Text) : splitAt d (lower t) = (splitAt d t).map lower := by
  refine splitAt_induction (motive := fun t ↦ splitAt d (lower t) = (splitAt d t).map lower)
    d (fun t ht ↦ ?_) (fun t u ht ih ↦ ?_) t
  · rw [splitAt_of_not_mem ht, splitAt_of_not_mem (not_mem_lower hd.1 ht)]
    rfl
  · rw [lower_append_boundary hd, splitAt_append_cons, splitAt_append_cons, List.map_append, ih,
      splitAt_of_not_mem ht, splitAt_of_not_mem (not_mem_lower hd.1 ht)]
    rfl

end Boundary

end UrlRouting.Text

import UrlRouting.Proofs.Text.Recased
import UrlRouting.Proofs.Text.SmallForms

/-!
Small letters are their own small letters, so that a text in small letters stays as it is
(`lower_lower`) and matches the text that it comes from, wherever case is ignored
(`sameFolded_lower`).
-/

namespace UrlRouting.Text

variable {c : Char} {t before : Text}

namespace CaseRun

variable {run other : CaseRun} {n : Nat}

/-- No image of the first run is mapped by the second: the intervals lie apart, or are taken in
turns. -/
def misses (run other : CaseRun) : Bool :=
  Nat.blt (run.target run.last) other.first || Nat.blt other.last (run.target run.first) ||
    (other.step == 2 && (run.step == 2 || run.first == run.last) &&
      (run.target run.first + other.first) % 2 == 1)

theorem covers_target_eq_false (hsound : run.isSound = true) (h : run.misses other = true)
    (hn : run.covers n = true) : other.covers (run.target n) = false := by
  rw [← Bool.not_eq_true]
  intro hcovers
  simp only [isSound, Bool.and_eq_true, decide_eq_true_eq] at hsound
  simp only [covers, Bool.and_eq_true, decide_eq_true_eq, beq_iff_eq] at hn hcovers
  simp only [misses, Bool.or_eq_true, Bool.and_eq_true, Nat.blt_eq, beq_iff_eq, target] at h
  rw [target] at hcovers
  obtain (hbelow | habove) | ⟨⟨hother, hstep | hsingle⟩, hturns⟩ := h
  · omega
  · omega
  · rw [hstep] at hn
    rw [hother] at hcovers
    omega
  · rw [hother] at hcovers
    omega

theorem all_settles : (CaseTable.toLower.all fun run ↦ Nat.blt (run.target run.last) 128 ||
    (Nat.ble 128 (run.target run.first) && run.misses ⟨304, 304, 1, 0⟩ &&
      CaseTable.toLower.all run.misses)) = true := by
  decide +kernel

/-- The images of a run are small letters of ASCII, or none that any run maps. -/
theorem settles_of_mem (h : run ∈ CaseTable.toLower) : run.target run.last < 128 ∨
    128 ≤ run.target run.first ∧ run.misses ⟨304, 304, 1, 0⟩ = true ∧
      ∀ other ∈ CaseTable.toLower, run.misses other = true := by
  have hsettles := List.all_eq_true.mp all_settles run h
  rwa [Bool.or_eq_true, Bool.and_eq_true, Bool.and_eq_true, Nat.blt_eq, Nat.ble_eq,
    List.all_eq_true, and_assoc] at hsettles

end CaseRun

theorem lowerChar_of_not_isUpper (hc : IsAscii c) (h : c.isUpper = false) : lowerChar c = c := by
  have hlow : c.val < 128 := hc
  rw [lowerChar, if_pos hlow, toLower_of_not_isUpper h]

theorem lowerChar_of_unmapped (hforeign : ¬IsAscii c) (hdot : c ≠ 'İ')
    (h : ∀ run ∈ CaseTable.toLower, run.covers c.toNat = false) : lowerChar c = c := by
  have hnone : (CaseTable.toLower.find? fun run ↦ run.covers c.toNat) = none :=
    List.find?_eq_none.mpr fun run hrun ↦ ne_true_of_eq_false (h run hrun)
  have hlarge : ¬c.val < 128 := hforeign
  rw [lowerChar, if_neg hlarge, if_neg hdot, shiftBy, hnone]

theorem lowerChar_target {run : CaseRun} {n : Nat} (hrun : run ∈ CaseTable.toLower)
    (hn : run.covers n = true) :
    lowerChar (Char.ofNat (run.target n)) = Char.ofNat (run.target n) := by
  have hsound := CaseRun.isSound_of_mem hrun
  have hcode := CaseRun.toNat_target hsound hn
  have hbounds : run.target run.first ≤ run.target n ∧ run.target n ≤ run.target run.last := by
    simp only [CaseRun.covers, Bool.and_eq_true, decide_eq_true_eq] at hn
    simp only [CaseRun.target]
    omega
  rcases CaseRun.settles_of_mem hrun with hsmall | ⟨hlarge, hdot, hothers⟩
  · refine lowerChar_of_not_isUpper ?_ (run.isUpper_target (CaseRun.isLettered_of_mem hrun) hn)
    rw [IsAscii, hcode]
    omega
  · refine lowerChar_of_unmapped ?_ ?_ fun other hother ↦ ?_
    · rw [IsAscii, hcode]
      omega
    · intro hcapital
      have hmissed := CaseRun.covers_target_eq_false hsound hdot hn
      rw [← hcode, hcapital] at hmissed
      exact absurd hmissed (by decide)
    · rw [hcode]
      exact CaseRun.covers_target_eq_false hsound (hothers other hother) hn

/-- A small letter is its own small letter. -/
theorem lowerChar_lowerChar (c : Char) : lowerChar (lowerChar c) = lowerChar c := by
  have hupper := isUpper_lowerChar c
  rw [lowerChar.eq_def c] at hupper ⊢
  split
  next hlow =>
    rw [if_pos hlow] at hupper
    exact lowerChar_of_not_isUpper (forall_ascii (P := fun c ↦ IsAscii c.toLower) (by decide) hlow)
      hupper
  next hforeign =>
    split
    next => decide
    next hdot =>
      rw [shiftBy]
      split
      next run hfind =>
        have hcovers := List.find?_some hfind
        exact lowerChar_target (List.mem_of_find?_eq_some hfind) hcovers
      next hnone =>
        rw [lowerChar, if_neg hforeign, if_neg hdot, shiftBy, hnone]

/-- No other character has a capital I with a dot for its small letter. -/
theorem lowerChar_ne_dotted (c : Char) : lowerChar c ≠ 'İ' := by
  intro h
  have hsame := lowerChar_lowerChar c
  rw [h] at hsame
  exact absurd hsame (by decide)

theorem lowerForm_lowerSigma (before after : Text) :
    lowerForm (lowerSigma before after) = [lowerSigma before after] := by
  rw [lowerSigma]
  split <;> decide

theorem lowerForm_of_mem_lowerAfter (h : c ∈ lowerAfter before t) : lowerForm c = [c] := by
  induction t generalizing before with
  | nil => cases h
  | cons d rest ih =>
    rw [lowerAfter, List.mem_append] at h
    rcases h with h | h
    · split at h
      next =>
        rw [List.mem_singleton.mp h]
        exact lowerForm_lowerSigma before rest
      next =>
        rw [lowerForm] at h
        split at h
        next =>
          have hforms : ∀ c ∈ ['i', '\u0307'], lowerForm c = [c] := by decide
          exact hforms c h
        next => rw [List.mem_singleton.mp h, lowerForm, if_neg (lowerChar_ne_dotted d),
          lowerChar_lowerChar]
    · exact ih h

/-- A text in small letters stays as it is. -/
theorem lower_lower (t : Text) : lower (lower t) = lower t := by
  have hforms : (lower t).map lowerForm = (lower t).map fun c ↦ [c] :=
    List.map_congr_left fun c hc ↦ lowerForm_of_mem_lowerAfter hc
  have hsigma : 'Σ' ∉ lower t := sigma_not_mem_lowerAfter [] t
  rw [lower_eq_flatMap hsigma, List.flatMap_def, hforms, ← List.flatMap_def,
    List.flatMap_singleton']

/-! ### Matching without regard to case -/

theorem foldChar_congr {d : Char} (h : sameLetter (lowerChar c) = sameLetter (lowerChar d)) :
    foldChar c = foldChar d := by
  rw [foldChar, foldChar, ← h]
  cases hletters : sameLetter (lowerChar c) with
  | nil =>
    have hmem := self_mem_sameLetter (lowerChar c)
    rw [hletters] at hmem
    cases hmem
  | cons first rest => rfl

/-- But for a capital I with a dot, a text matches its small form without regard to case. -/
theorem map_foldChar_lowerAfter (h : 'İ' ∉ t) (before : Text) :
    (lowerAfter before t).map foldChar = t.map foldChar := by
  induction t generalizing before with
  | nil => rfl
  | cons c rest ih =>
    rw [List.mem_cons, not_or] at h
    rw [lowerAfter, List.map_append, ih h.2, List.map_cons]
    split
    next hsigma =>
      rw [hsigma, lowerSigma]
      split <;> exact congrArg (· :: _) (by decide)
    next =>
      rw [lowerForm, if_neg (Ne.symm h.1)]
      exact congrArg (· :: _) (foldChar_congr (congrArg sameLetter (lowerChar_lowerChar c)))

theorem sameFolded_lower (h : 'İ' ∉ t) : sameFolded t (lower t) = true :=
  beq_iff_eq.mpr (map_foldChar_lowerAfter h []).symm

end UrlRouting.Text

import UrlRouting.Proofs.Text.Ascii

/-!
Texts that differ in the case of ASCII letters only. They are cut at the same places and have the
same small form (`Recased.lower_eq`), in which no capital letter of ASCII is left
(`isUpper_of_mem_lower`).
-/

namespace UrlRouting.Text

variable {c d : Char} {s t u v before : Text}

/-! ### Characters -/

theorem toLower_of_not_isAscii (h : ¬IsAscii c) : c.toLower = c := by
  delta Char.toLower
  split
  next hcapital =>
    have hz : c.val.toNat ≤ 'Z'.val.toNat := UInt32.le_iff_toNat_le.mp hcapital.2
    have hascii : IsAscii c := Nat.lt_of_le_of_lt hz (by decide)
    exact absurd hascii h
  next => rfl

/-- What an ASCII character and its small letter share is shared by all. -/
theorem forall_toLower {P : Char → Char → Prop}
    (h : ∀ n < 128, P (Char.ofNat n) (Char.ofNat n).toLower) (hrefl : ∀ c, P c c) (c : Char) :
    P c c.toLower := by
  by_cases hc : IsAscii c
  · exact forall_ascii (P := fun c ↦ P c c.toLower) h hc
  · rw [toLower_of_not_isAscii hc]
    exact hrefl c

theorem isCased_toLower (c : Char) : isCased c.toLower = isCased c :=
  forall_toLower (P := fun c small ↦ isCased small = isCased c) (by decide)
    (fun _ ↦ rfl) c

theorem isCaseIgnorable_toLower (c : Char) : isCaseIgnorable c.toLower = isCaseIgnorable c :=
  forall_toLower (P := fun c small ↦ isCaseIgnorable small = isCaseIgnorable c)
    (by decide) (fun _ ↦ rfl) c

theorem lowerForm_toLower (c : Char) : lowerForm c.toLower = lowerForm c :=
  forall_toLower (P := fun c small ↦ lowerForm small = lowerForm c) (by decide)
    (fun _ ↦ rfl) c

theorem toLower_eq_sigma_iff (c : Char) : c.toLower = 'Σ' ↔ c = 'Σ' :=
  forall_toLower (P := fun c small ↦ small = 'Σ' ↔ c = 'Σ') (by decide)
    (fun _ ↦ Iff.rfl) c

/-- Punctuation is the small form of itself only. -/
theorem toLower_eq_iff (hd : IsPunctuation d) (c : Char) : c.toLower = d ↔ c = d := by
  have hcases : c.toLower = c ∨ c.isAlphanum = true ∧ c.toLower.isAlphanum = true :=
    forall_toLower (P := fun c small ↦
      small = c ∨ c.isAlphanum = true ∧ small.isAlphanum = true) (by decide)
      (fun _ ↦ .inl rfl) c
  have hplain : d.isAlphanum = false := hd.2.2
  rcases hcases with hsame | ⟨hletter, hsmall⟩
  · rw [hsame]
  · constructor
    · intro h
      simp [h, hplain] at hsmall
    · intro h
      simp [h, hplain] at hletter

theorem toLower_of_not_isUpper (h : c.isUpper = false) : c.toLower = c := by
  have hcases : c.isUpper = false → c.toLower = c :=
    forall_toLower (P := fun c small ↦ c.isUpper = false → small = c) (by decide)
      (fun _ _ ↦ rfl) c
  exact hcases h

/-! ### Small forms -/

theorem nextIsCased_toLower (t : Text) : nextIsCased (t.map Char.toLower) = nextIsCased t := by
  induction t with
  | nil => rfl
  | cons c rest ih =>
    simp only [nextIsCased, List.map_cons, List.dropWhile_cons, isCaseIgnorable_toLower] at ih ⊢
    cases isCaseIgnorable c with
    | true => exact ih
    | false => exact isCased_toLower c

theorem lowerAfter_toLower (before t : Text) :
    lowerAfter (before.map Char.toLower) (t.map Char.toLower) = lowerAfter before t := by
  induction t generalizing before with
  | nil => rfl
  | cons c rest ih =>
    have hrest := ih (c :: before)
    rw [List.map_cons] at hrest
    simp only [List.map_cons, lowerAfter, lowerSigma, nextIsCased_toLower, toLower_eq_sigma_iff,
      lowerForm_toLower, hrest]

theorem lower_toLower (t : Text) : lower (t.map Char.toLower) = lower t := lowerAfter_toLower [] t

/-! ### Recased texts -/

/-- The texts differ in the case of ASCII letters only. -/
def Recased (s t : Text) : Prop := s.map Char.toLower = t.map Char.toLower

instance (s t : Text) : Decidable (Recased s t) := inferInstanceAs (Decidable (_ = _))

namespace Recased

theorem append (h : Recased s t) (h' : Recased u v) : Recased (s ++ u) (t ++ v) := by
  simp only [Recased, List.map_append] at h h' ⊢
  rw [h, h']

theorem refl (t : Text) : Recased t t := rfl

theorem symm (h : Recased s t) : Recased t s := Eq.symm h

theorem isEmpty_eq (h : Recased s t) : s.isEmpty = t.isEmpty := by
  have hlength := congrArg List.length h
  simp only [List.length_map] at hlength
  cases s <;> cases t <;> simp_all

theorem lower_eq (h : Recased s t) : lower s = lower t := by
  rw [← lower_toLower s, h, lower_toLower]

/-- A single mark is no other text in another case. -/
theorem eq_singleton (hd : IsPunctuation d) (h : Recased s t) (ht : t = [d]) : s = [d] := by
  have hsame := (toLower_eq_iff hd d).mpr rfl
  simp only [Recased, ht, List.map_cons, List.map_nil, hsame] at h
  obtain ⟨c, rfl, hc⟩ := List.map_eq_singleton_iff.mp h
  rw [(toLower_eq_iff hd c).mp hc]

theorem eq_singleton_iff (hd : IsPunctuation d) (h : Recased s t) : s = [d] ↔ t = [d] :=
  ⟨eq_singleton hd h.symm, eq_singleton hd h⟩

theorem map_toLower_of_forall (h : ∀ c ∈ t, c.isUpper = false) : t.map Char.toLower = t := by
  induction t with
  | nil => rfl
  | cons c rest ih =>
    simp only [List.mem_cons, forall_eq_or_imp] at h
    rw [List.map_cons, toLower_of_not_isUpper h.1, ih h.2]

/-- Texts without capital letters that differ in case only do not differ. -/
theorem eq_of_forall (h : Recased s t) (hs : ∀ c ∈ s, c.isUpper = false)
    (ht : ∀ c ∈ t, c.isUpper = false) : s = t := by
  rwa [Recased, map_toLower_of_forall hs, map_toLower_of_forall ht] at h

end Recased

theorem cutLast?_toLower (hd : IsPunctuation d) (t : Text) :
    cutLast? d (t.map Char.toLower) =
      (cutLast? d t).map fun (front, back) ↦ (front.map Char.toLower, back.map Char.toLower) := by
  induction t with
  | nil => rfl
  | cons c rest ih =>
    simp only [List.map_cons, cutLast?, ih]
    cases cutLast? d rest with
    | some cut => rfl
    | none =>
      simp only [Option.map_none, toLower_eq_iff hd]
      split <;> rfl

/-! ### Capitals -/

theorem isUpper_iff : c.isUpper = true ↔ 65 ≤ c.toNat ∧ c.toNat ≤ 90 := by
  delta Char.isUpper
  simp only [decide_eq_true_eq, ge_iff_le, UInt32.le_iff_toNat_le, ← Char.toNat_val]
  exact Iff.rfl

theorem CaseRun.isUpper_target {run : CaseRun} {n : Nat} (h : run.isLettered = true)
    (hn : run.covers n = true) : (Char.ofNat (run.target n)).isUpper = false := by
  rw [Bool.eq_false_iff, ne_eq, isUpper_iff]
  have hletter := run.target_of_isLettered h hn
  have hcode := toNat_ofNat_or (run.target n)
  omega

theorem isUpper_lowerChar (c : Char) : (lowerChar c).isUpper = false := by
  rw [lowerChar]
  split
  next hlow =>
    exact forall_ascii (P := fun c ↦ c.toLower.isUpper = false) (by decide) hlow
  next hhigh =>
    split
    · rfl
    · rw [shiftBy]
      split
      next run hfind =>
        have hlettered := CaseRun.isLettered_of_mem (List.mem_of_find?_eq_some hfind)
        have hcovers := List.find?_some hfind
        exact run.isUpper_target hlettered hcovers
      next =>
        rw [Bool.eq_false_iff, ne_eq, isUpper_iff]
        intro hcapital
        exact hhigh (UInt32.lt_iff_toNat_lt.mpr (Nat.lt_of_le_of_lt hcapital.2 (by decide)))

theorem isUpper_of_mem_lowerAfter (h : c ∈ lowerAfter before t) : c.isUpper = false := by
  induction t generalizing before with
  | nil => cases h
  | cons d rest ih =>
    rw [lowerAfter, List.mem_append] at h
    rcases h with h | h
    · split at h
      · rw [List.mem_singleton.mp h, lowerSigma]
        split <;> rfl
      · rw [lowerForm] at h
        split at h
        · have hform : ∀ c ∈ ['i', '\u0307'], c.isUpper = false := by decide
          exact hform c h
        · rw [List.mem_singleton.mp h]
          exact isUpper_lowerChar d
    · exact ih h

/-- No capital letter of ASCII is left in a small form. -/
theorem isUpper_of_mem_lower (h : c ∈ lower t) : c.isUpper = false :=
  isUpper_of_mem_lowerAfter h

end UrlRouting.Text

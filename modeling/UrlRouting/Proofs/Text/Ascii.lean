import UrlRouting.Proofs.Text.Lower

/-!
ASCII. What holds of its characters one by one, and how their case behaves: but for letters, each is
its own small letter and matches itself only.
-/

namespace UrlRouting.Text

variable {c x : Char} {t : Text}

def IsAscii (c : Char) : Prop := c.toNat < 128

instance (c : Char) : Decidable (IsAscii c) := inferInstanceAs (Decidable (_ < _))

theorem IsPunctuation.isAscii (h : IsPunctuation c) : IsAscii c := Nat.lt_succ_of_lt h.2.1

theorem forall_ascii {P : Char → Prop} (h : ∀ n < 128, P (Char.ofNat n)) (hc : IsAscii c) : P c :=
  Char.ofNat_toNat c ▸ h c.toNat hc

/-! ### Variants -/

/-- The images of a run of case mappings are those of valid characters outside ASCII. -/
def CaseRun.isForeign (run : CaseRun) : Bool :=
  (128 ≤ run.first : Bool) && ((run.last < 0xd800 : Bool) ||
    ((0xdfff < run.first : Bool) && (run.last < 0x110000 : Bool)))

theorem CaseRun.not_isAscii {run : CaseRun} {n k : Nat} (h : run.isForeign = true)
    (hk : k ∈ run.preimages n) : ¬IsAscii (Char.ofNat k) := by
  have hcovers : run.covers k = true := by
    rw [preimages] at hk
    split at hk
    next hcovers =>
      rw [List.mem_singleton.mp hk]
      exact (Bool.and_eq_true_iff.mp hcovers).1
    next => cases hk
  simp only [isForeign, Bool.and_eq_true, Bool.or_eq_true, decide_eq_true_eq] at h
  simp only [covers, Bool.and_eq_true, decide_eq_true_eq] at hcovers
  have hvalid : k.isValidChar := by
    rw [Nat.isValidChar]
    omega
  rw [IsAscii, toNat_ofNat hvalid]
  omega

theorem mem_capitals (hx : x ∈ capitals c) :
    c.isLower = true ∧ x = c.toUpper ∨ ¬IsAscii x := by
  rw [capitals, List.mem_append, List.mem_append] at hx
  rcases hx with (hx | hx) | hx
  · split at hx
    next hlower => exact .inl ⟨hlower, List.mem_singleton.mp hx⟩
    next => cases hx
  · split at hx
    · rw [List.mem_singleton.mp hx]
      exact .inr (by decide)
    · cases hx
  · obtain ⟨k, hk, rfl⟩ := List.mem_map.mp hx
    obtain ⟨run, hrun, hk⟩ := List.mem_flatMap.mp hk
    have hforeign : ∀ run ∈ CaseTable.toLower, run.isForeign = true := by decide +kernel
    exact .inr (run.not_isAscii (hforeign run hrun) hk)

/-- What a letter or digit of ASCII matches is one itself, or not in ASCII. -/
theorem mem_caseVariants (hc : IsAscii c) (h : c.isAlphanum = true) (hx : x ∈ caseVariants c) :
    x.isAlphanum = true ∨ ¬IsAscii x := by
  obtain ⟨small, hsmall, hx⟩ := List.mem_flatMap.mp hx
  have hletters := forall_ascii (P := fun c ↦ c.isAlphanum = true →
    ∀ small ∈ sameLetter (lowerChar c), small.isAlphanum = true ∨ ¬IsAscii small)
    (by decide +kernel) hc h small hsmall
  rcases List.mem_cons.mp hx with rfl | hx
  · exact hletters
  · rcases mem_capitals hx with ⟨hlower, rfl⟩ | hx
    · have hascii : IsAscii small := by
        delta Char.isLower at hlower
        simp only [Bool.and_eq_true, decide_eq_true_eq, UInt32.le_iff_toNat_le] at hlower
        have htoNat : small.val.toNat = small.toNat := rfl
        have hz : 'z'.val.toNat = 122 := rfl
        rw [IsAscii]
        omega
      exact .inl (forall_ascii (P := fun c ↦ c.isLower = true → c.toUpper.isAlphanum = true)
        (by decide) hascii hlower)
    · exact .inr hx

theorem sameLetter_of_not_alphanum (hc : IsAscii c) (h : c.isAlphanum = false) :
    sameLetter (lowerChar c) = [c] :=
  forall_ascii (P := fun c ↦ c.isAlphanum = false → sameLetter (lowerChar c) = [c])
    (by decide +kernel) hc h

/-- What another character of ASCII matches is the same, or not in ASCII. -/
theorem mem_caseVariants_of_not_alphanum (hc : IsAscii c) (h : c.isAlphanum = false)
    (hx : x ∈ caseVariants c) : x = c ∨ ¬IsAscii x := by
  rw [caseVariants, sameLetter_of_not_alphanum hc h, List.flatMap_singleton] at hx
  rcases List.mem_cons.mp hx with rfl | hx
  · exact .inl rfl
  · rcases mem_capitals hx with ⟨hlower, -⟩ | hx
    · have hword : c.isAlphanum = (c.isUpper || c.isLower || c.isDigit) := rfl
      rw [hword, hlower, Bool.or_true, Bool.true_or] at h
      cases h
    · exact .inr hx

theorem self_mem_caseVariants (hc : IsAscii c) (h : c.isAlphanum = false) : c ∈ caseVariants c := by
  rw [caseVariants, sameLetter_of_not_alphanum hc h]
  exact List.mem_cons_self

theorem foldChar_of_not_alphanum (hc : IsAscii c) (h : c.isAlphanum = false) : foldChar c = c := by
  rw [foldChar, sameLetter_of_not_alphanum hc h]
  rfl

theorem foldChar_cases (hc : IsAscii c) : foldChar c = c ∨ (foldChar c).isAlphanum = true :=
  forall_ascii (P := fun c ↦ foldChar c = c ∨ (foldChar c).isAlphanum = true)
    (by decide +kernel) hc

/-! ### Small letters -/

theorem lowerForm_of_isAscii (hc : IsAscii c) : lowerForm c = [c.toLower] :=
  forall_ascii (P := fun c ↦ lowerForm c = [c.toLower]) (by decide) hc

theorem toLower_cases (hc : IsAscii c) :
    IsAscii c.toLower ∧ (c.toLower = c ∨ c.toLower.isAlphanum = true) :=
  forall_ascii (P := fun c ↦ IsAscii c.toLower ∧
    (c.toLower = c ∨ c.toLower.isAlphanum = true)) (by decide) hc

theorem toLower_of_not_alphanum (hc : IsAscii c) (h : c.isAlphanum = false) : c.toLower = c :=
  forall_ascii (P := fun c ↦ c.isAlphanum = false → c.toLower = c) (by decide) hc h

theorem lower_of_isAscii (h : ∀ c ∈ t, IsAscii c) : lower t = t.map Char.toLower := by
  have hsigma : 'Σ' ∉ t := fun hmem ↦ absurd (h _ hmem) (by decide)
  rw [lower_eq_flatMap hsigma]
  induction t with
  | nil => rfl
  | cons c t ih =>
    obtain ⟨hc, ht⟩ := List.forall_mem_cons.mp h
    rw [List.flatMap_cons, lowerForm_of_isAscii hc, ih ht (List.not_mem_of_not_mem_cons hsigma),
      List.map_cons, List.singleton_append]

end UrlRouting.Text

import UrlRouting.Proofs.Text.Split
import UrlRouting.Text.Case

/-!
Small letters. But for sigmas, a text is put into them character by character, and no character but
itself has punctuation for its small form (`not_mem_lower`).
-/

namespace UrlRouting.Text

variable {c : Char} {t before : Text}

/-- But for sigmas, characters are put into small letters one by one. -/
theorem lowerAfter_append (h : 'Σ' ∉ t) (before u : Text) :
    lowerAfter before (t ++ u) = t.flatMap lowerForm ++ lowerAfter (t.reverse ++ before) u := by
  induction t generalizing before with
  | nil => rfl
  | cons c rest ih =>
    rw [List.mem_cons, not_or] at h
    rw [List.cons_append, lowerAfter, if_neg (Ne.symm h.1), ih h.2, List.flatMap_cons,
      List.append_assoc, List.reverse_cons, List.append_assoc]
    rfl

theorem lower_eq_flatMap (h : 'Σ' ∉ t) : lower t = t.flatMap lowerForm := by
  have happend := lowerAfter_append h [] []
  rwa [List.append_nil, lowerAfter, List.append_nil] at happend

/-- The small form of a text begins with that of its beginning, if that ends without a sigma. -/
theorem lower_prefix (h : 'Σ' ∉ t) (u : Text) : lower t <+: lower (t ++ u) := by
  rw [lower_eq_flatMap h, lower, lowerAfter_append h]
  exact List.prefix_append _ _

/-! ### Punctuation -/

/-- The character is visible in ASCII, but neither a letter nor a digit. -/
def IsPunctuation (c : Char) : Prop := 32 < c.toNat ∧ c.toNat < 127 ∧ c.isAlphanum = false

instance (c : Char) : Decidable (IsPunctuation c) := inferInstanceAs (Decidable (_ ∧ _))

/-- The images of a run of case mappings are all outside ASCII or all small letters in it. -/
def CaseRun.isLettered (run : CaseRun) : Bool :=
  (128 ≤ run.first + run.shift : Bool) ||
    ((97 ≤ run.first + run.shift : Bool) && (run.last + run.shift ≤ 122 : Bool))

theorem toNat_ofNat {n : Nat} (h : n.isValidChar) : (Char.ofNat n).toNat = n := by
  rw [Char.ofNat, dif_pos h]
  rfl

/-- A number that is the code of no character stands for the first character. -/
theorem toNat_ofNat_or (n : Nat) : (Char.ofNat n).toNat = n ∨ (Char.ofNat n).toNat = 0 := by
  by_cases h : n.isValidChar
  · exact .inl (toNat_ofNat h)
  · right
    rw [Char.ofNat, dif_neg h]
    rfl

namespace CaseRun

variable {run : CaseRun} {n : Nat}

theorem isLettered_of_mem (h : run ∈ CaseTable.toLower) : run.isLettered = true :=
  (by decide +kernel : ∀ run ∈ CaseTable.toLower, run.isLettered = true) run h

theorem target_of_isLettered (h : run.isLettered = true) (hn : run.covers n = true) :
    128 ≤ run.target n ∨ 97 ≤ run.target n ∧ run.target n < 123 := by
  simp only [isLettered, Bool.or_eq_true, Bool.and_eq_true, decide_eq_true_eq] at h
  simp only [covers, Bool.and_eq_true, decide_eq_true_eq] at hn
  rw [target]
  omega

theorem not_isPunctuation (h : run.isLettered = true) (hn : run.covers n = true) :
    ¬IsPunctuation (Char.ofNat (run.target n)) := by
  rintro ⟨hlow, hhigh, hplain⟩
  rcases toNat_ofNat_or (run.target n) with hcode | hzero
  · have hletter : ∀ m < 123, 97 ≤ m → (Char.ofNat m).isAlphanum = true := by decide
    rcases target_of_isLettered h hn with hforeign | ⟨hfirst, hlast⟩
    · omega
    · rw [hletter _ hlast hfirst] at hplain
      cases hplain
  · omega

end CaseRun

section Punctuation

variable {d : Char} (hd : IsPunctuation d)

include hd

theorem lowerChar_ne (hc : c ≠ d) : lowerChar c ≠ d := by
  rw [lowerChar]
  split
  next hlow =>
    have hall : ∀ n < 128, (Char.ofNat n).toLower = Char.ofNat n ∨
        (Char.ofNat n).toLower.isAlphanum = true := by decide +kernel
    have h := hall c.toNat hlow
    rw [Char.ofNat_toNat] at h
    rcases h with h | h
    · rwa [h]
    · rintro rfl
      rw [hd.2.2] at h
      cases h
  next =>
    split
    · rintro rfl
      exact absurd hd (by decide)
    · rw [shiftBy]
      split
      next run hfind =>
        have hlettered := CaseRun.isLettered_of_mem (List.mem_of_find?_eq_some hfind)
        have hcovers := List.find?_some hfind
        rintro rfl
        exact CaseRun.not_isPunctuation hlettered hcovers hd
      next => exact hc

theorem not_mem_lowerForm (hc : c ≠ d) : d ∉ lowerForm c := by
  rw [lowerForm]
  split
  · intro hmem
    have hnone : ∀ x ∈ ['i', '\u0307'], ¬IsPunctuation x := by decide
    exact hnone d hmem hd
  · rw [List.mem_singleton]
    exact Ne.symm (lowerChar_ne hd hc)

theorem not_mem_form (hc : c ≠ d) (before t : Text) :
    d ∉ if c = 'Σ' then [lowerSigma before t] else lowerForm c := by
  split
  · rw [List.mem_singleton]
    rintro rfl
    rw [lowerSigma] at hd
    split at hd <;> exact absurd hd (by decide)
  · exact not_mem_lowerForm hd hc

theorem not_mem_lowerAfter (h : d ∉ t) (before : Text) : d ∉ lowerAfter before t := by
  induction t generalizing before with
  | nil => exact h
  | cons c rest ih =>
    simp only [List.mem_cons, not_or] at h
    rw [lowerAfter, List.mem_append, not_or]
    exact ⟨not_mem_form hd (Ne.symm h.1) _ _, ih h.2 _⟩

theorem not_mem_lower (h : d ∉ t) : d ∉ lower t := not_mem_lowerAfter hd h []

end Punctuation

theorem form_ne_nil (c : Char) (before t : Text) :
    (if c = 'Σ' then [lowerSigma before t] else lowerForm c) ≠ [] := by
  split
  · exact List.cons_ne_nil _ _
  · rw [lowerForm]
    split <;> exact List.cons_ne_nil _ _

theorem lower_ne_nil (h : t ≠ []) : lower t ≠ [] := by
  cases t with
  | nil => exact absurd rfl h
  | cons c rest =>
    rw [lower, lowerAfter]
    exact List.append_ne_nil_of_left_ne_nil (form_ne_nil c _ _) _

end UrlRouting.Text

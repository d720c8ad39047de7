import Mathlib.Data.List.Forall2
import UrlRouting.Proofs.Text.Boundary

/-!
What equal small forms say about the texts. But for a capital I with a dot, a text has one small
letter for each character, and characters with the same small letter match each other without regard
to case; so where the small form of a text comes first, characters come first that match the text:
`exists_forall₂_of_lowerAfter_prefix`.
-/

namespace UrlRouting.Text

variable {c d x : Char} {t u front rest before before' : Text}

/-! ### Letters of one small form -/

/-- The images of a run of case mappings are those of valid characters. -/
def CaseRun.isSound (run : CaseRun) : Bool :=
  (0 ≤ run.first + run.shift : Bool) && ((run.last + run.shift < 0xd800 : Bool) ||
    ((0xdfff < run.first + run.shift : Bool) && (run.last + run.shift < 0x110000 : Bool)))

namespace CaseRun

variable {run : CaseRun} {n : Nat}

theorem mem_preimages (h : run.isSound = true) (hn : run.covers n = true) :
    n ∈ run.preimages (run.target n) := by
  have hback : ((run.target n : Int) - run.shift).toNat = n := by
    simp only [isSound, Bool.and_eq_true, decide_eq_true_eq] at h
    simp only [covers, Bool.and_eq_true, decide_eq_true_eq] at hn
    rw [target]
    omega
  rw [preimages, hback, hn, beq_self_eq_true]
  exact List.mem_singleton_self n

theorem toNat_target (h : run.isSound = true) (hn : run.covers n = true) :
    (Char.ofNat (run.target n)).toNat = run.target n := by
  have hvalid : (run.target n).isValidChar := by
    simp only [isSound, Bool.and_eq_true, Bool.or_eq_true, decide_eq_true_eq] at h
    simp only [covers, Bool.and_eq_true, decide_eq_true_eq] at hn
    rw [Nat.isValidChar, target]
    omega
  exact toNat_ofNat hvalid

theorem isSound_of_mem (h : run ∈ CaseTable.toLower) : run.isSound = true :=
  (by decide +kernel : ∀ run ∈ CaseTable.toLower, run.isSound = true) run h

end CaseRun

/-- A character is the small letter of itself, or one of the capitals of its small letter. -/
theorem eq_or_mem_capitals (c : Char) : c = lowerChar c ∨ c ∈ capitals (lowerChar c) := by
  rw [lowerChar]
  split
  next hlow =>
    have hletters := forall_ascii (P := fun c ↦ c = c.toLower ∨
      (c.toLower.isLower = true ∧ c.toLower.toUpper = c)) (by decide +kernel) hlow
    rcases hletters with hsame | ⟨hlower, hupper⟩
    · exact .inl hsame
    · rw [capitals, if_pos hlower, hupper]
      refine .inr (List.mem_append_left _ ?_)
      exact List.mem_append_left _ (List.mem_singleton_self c)
  next =>
    split
    next hdot =>
      rw [hdot]
      exact .inr (by decide +kernel)
    next =>
      rw [shiftBy]
      split
      next run hfind =>
        have hmem := List.mem_of_find?_eq_some hfind
        have hcovers := List.find?_some hfind
        have hsound := CaseRun.isSound_of_mem hmem
        refine .inr (List.mem_append_right _ (List.mem_map.mpr ⟨c.toNat, ?_, Char.ofNat_toNat c⟩))
        rw [CaseRun.toNat_target hsound hcovers]
        exact List.mem_flatMap.mpr ⟨run, hmem, run.mem_preimages hsound hcovers⟩
      next => exact .inl rfl

theorem self_mem_sameLetter (c : Char) : c ∈ sameLetter c := by
  rw [sameLetter]
  split
  next letters hfind =>
    have hletters := List.find?_some hfind
    rw [List.contains_iff_mem] at hletters
    exact List.mem_map.mpr ⟨c.toNat, hletters, Char.ofNat_toNat c⟩
  next => exact List.mem_singleton_self c

theorem mem_caseVariants_of_sameLetter (h : sameLetter (lowerChar x) = sameLetter (lowerChar c)) :
    x ∈ caseVariants c := by
  refine List.mem_flatMap.mpr ⟨lowerChar x, h ▸ self_mem_sameLetter _, ?_⟩
  exact List.mem_cons.mpr (eq_or_mem_capitals x)

/-- But for a capital I with a dot, a character has one small letter, which that of a sigma is one
of two. -/
theorem exists_form (hc : c ≠ 'İ') (before t : Text) : ∃ small,
    (if c = 'Σ' then [lowerSigma before t] else lowerForm c) = [small] ∧
      sameLetter small = sameLetter (lowerChar c) := by
  split
  next hsigma =>
    refine ⟨_, rfl, ?_⟩
    rw [hsigma, lowerSigma]
    split <;> decide +kernel
  next =>
    rw [lowerForm, if_neg hc]
    exact ⟨_, rfl, rfl⟩

/-! ### Lengths -/

/-- Only a capital I with a dot has a small form of two characters. -/
theorem length_form (c : Char) (before t : Text) :
    (if c = 'Σ' then [lowerSigma before t] else lowerForm c).length =
      1 + if c == 'İ' then 1 else 0 := by
  by_cases hc : c = 'İ'
  · rw [hc]
    rfl
  · obtain ⟨small, hform, -⟩ := exists_form hc before t
    rw [hform, beq_false_of_ne hc]
    rfl

theorem length_lowerAfter_eq (before t : Text) :
    (lowerAfter before t).length = t.length + t.count 'İ' := by
  induction t generalizing before with
  | nil => rfl
  | cons c rest ih =>
    rw [lowerAfter, List.length_append, length_form, ih, List.length_cons, List.count_cons]
    omega

theorem length_lowerAfter (h : 'İ' ∉ t) (before : Text) :
    (lowerAfter before t).length = t.length := by
  rw [length_lowerAfter_eq, List.count_eq_zero.mpr h, Nat.add_zero]

theorem lowerAfter_eq_nil_iff : lowerAfter before t = [] ↔ t = [] := by
  constructor
  · intro hnil
    have hlength := length_lowerAfter_eq before t
    rw [hnil, List.length_nil] at hlength
    exact List.length_eq_zero_iff.mp (by omega)
  · rintro rfl
    rfl

/-! ### Ends -/

section Ends

variable (hd : IsPunctuation d)

include hd

theorem nextIsCased_concat (t : Text) : nextIsCased (t ++ [d]) = nextIsCased t := by
  induction t with
  | nil => cases hi : isCaseIgnorable d <;> simp [nextIsCased, hi, hd.isCased_eq_false]
  | cons c rest ih =>
    cases hc : isCaseIgnorable c with
    | true => simpa [nextIsCased, hc] using ih
    | false => simp [nextIsCased, hc]

/-- A punctuation mark at the end of a text does not change the letters before it. -/
theorem lowerAfter_concat (before t : Text) :
    lowerAfter before (t ++ [d]) = lowerAfter before t ++ [d] := by
  induction t generalizing before with
  | nil => exact hd.lowerAfter_cons before []
  | cons c rest ih =>
    rw [List.cons_append, lowerAfter, lowerAfter, lowerSigma, lowerSigma, nextIsCased_concat hd,
      ih, List.append_assoc]

theorem head?_lowerAfter (before t : Text) :
    (lowerAfter before t).head? = some d ↔ t.head? = some d := by
  cases t with
  | nil => exact Iff.rfl
  | cons c rest =>
    constructor
    · intro hform
      rw [lowerAfter, List.head?_append_of_ne_nil _ (form_ne_nil c before rest)] at hform
      by_contra hc
      exact not_mem_form hd (fun he ↦ hc (congrArg some he)) before rest
        (List.mem_of_mem_head? hform)
    · intro hc
      rw [Option.some.inj hc, hd.lowerAfter_cons, List.head?_cons]

end Ends

/-! ### Beginnings -/

theorem head?_form_ne_dot (hc : c ≠ '\u0307') (before t : Text) :
    (if c = 'Σ' then [lowerSigma before t] else lowerForm c).head? ≠ some '\u0307' := by
  split
  next =>
    rw [lowerSigma]
    split <;> decide
  next =>
    rw [lowerForm]
    split
    next => decide
    next hdot =>
      intro hhead
      have hsmall : lowerChar c = '\u0307' := Option.some.inj hhead
      have hnone : capitals '\u0307' = [] := by decide +kernel
      rcases eq_or_mem_capitals c with he | hcapital
      · exact hc (he.trans hsmall)
      · rw [hsmall, hnone] at hcapital
        cases hcapital

theorem head?_lowerAfter_ne_dot (h : '\u0307' ∉ t) (before : Text) :
    (lowerAfter before t).head? ≠ some '\u0307' := by
  cases t with
  | nil => nofun
  | cons c rest =>
    rw [List.mem_cons, not_or] at h
    rw [lowerAfter, List.head?_append_of_ne_nil _ (form_ne_nil c before rest)]
    exact head?_form_ne_dot (Ne.symm h.1) before rest

/-- Where the small form of a text comes first and a punctuation mark or the end follows, characters
come first that match the text. -/
theorem exists_forall₂_of_lowerAfter_prefix (hd : IsPunctuation d) (hcapital : 'İ' ∉ t)
    (hdot : '\u0307' ∉ t)
    (h : lowerAfter before t ++ [d] <+: lowerAfter before' u ++ [d]) : ∃ front rest,
    u = front ++ rest ∧ List.Forall₂ (fun x c ↦ x ∈ caseVariants c) t front ∧
      ∀ z, rest.head? = some z → z = d := by
  induction t generalizing before before' u with
  | nil =>
    refine ⟨[], u, rfl, .nil, fun z hz ↦ ?_⟩
    obtain ⟨rest, hrest⟩ := h
    have hhead : (lowerAfter before' (u ++ [d])).head? = some d := by
      rw [lowerAfter_concat hd, ← hrest]
      rfl
    rw [head?_lowerAfter hd, List.head?_append_of_ne_nil _ (by rintro rfl; cases hz), hz] at hhead
    exact Option.some.inj hhead
  | cons x t ih =>
    rw [List.mem_cons, not_or] at hcapital hdot
    obtain ⟨small, hform, hsmall⟩ := exists_form (Ne.symm hcapital.1) before t
    rw [lowerAfter, hform, List.singleton_append, List.cons_append] at h
    cases u with
    | nil =>
      have hlength := h.length_le
      simp [lowerAfter] at hlength
    | cons c u =>
      rw [lowerAfter] at h
      by_cases hc : c = 'İ'
      · -- the dot above the letter would have to be matched by the next character
        have hforms : (if c = 'Σ' then [lowerSigma before' u] else lowerForm c) =
            ['i', '\u0307'] := by
          rw [hc]
          rfl
        rw [hforms] at h
        obtain ⟨rest, hrest⟩ := (List.cons_prefix_cons.mp h).2
        have hhead : (lowerAfter (x :: before) (t ++ [d])).head? = some '\u0307' := by
          rw [lowerAfter_concat hd, ← List.head?_append_of_ne_nil _ (by simp), hrest]
          rfl
        refine absurd hhead (head?_lowerAfter_ne_dot ?_ _)
        rw [List.mem_append, not_or, List.mem_singleton]
        exact ⟨hdot.2, fun he ↦ absurd (he ▸ hd) (by decide)⟩
      · obtain ⟨small', hform', hsmall'⟩ := exists_form hc before' u
        rw [hform', List.singleton_append, List.cons_append, List.cons_prefix_cons] at h
        obtain ⟨rfl, h⟩ := h
        obtain ⟨front, rest, rfl, hfront, hrest⟩ := ih hcapital.2 hdot.2 h
        exact ⟨c :: front, rest, rfl,
          .cons (mem_caseVariants_of_sameLetter (hsmall.symm.trans hsmall')) hfront, hrest⟩

theorem exists_forall₂_of_lower_eq (hcapital : 'İ' ∉ t) (hdot : '\u0307' ∉ t)
    (h : lower t = lower u) : List.Forall₂ (fun x c ↦ x ∈ caseVariants c) t u := by
  have hprefix : lowerAfter [] t ++ ['/'] <+: lowerAfter [] u ++ ['/'] :=
    (congrArg (· ++ ['/']) h) ▸ List.prefix_rfl
  obtain ⟨front, rest, rfl, hfront, -⟩ :=
    exists_forall₂_of_lowerAfter_prefix (by decide) hcapital hdot hprefix
  -- there is a small letter for each character of the rest
  have hlength : t.length = (lower (front ++ rest)).length := by
    rw [← h]
    exact (length_lowerAfter hcapital []).symm
  have hwhole := length_lowerAfter_eq [] (front ++ rest)
  rw [List.length_append, ← hfront.length_eq] at hwhole
  change (lower (front ++ rest)).length = _ at hwhole
  obtain rfl : rest = [] := List.length_eq_zero_iff.mp (by omega)
  rwa [List.append_nil]

theorem exists_lowerAfter_append (before front rest : Text) : ∃ small : Text,
    small.length = front.length + front.count 'İ' ∧
      lowerAfter before (front ++ rest) = small ++ lowerAfter (front.reverse ++ before) rest := by
  induction front generalizing before with
  | nil => exact ⟨[], rfl, rfl⟩
  | cons c front ih =>
    obtain ⟨others, hlength, hothers⟩ := ih (c :: before)
    refine ⟨(if c = 'Σ' then [lowerSigma before (front ++ rest)] else lowerForm c) ++ others,
      ?_, ?_⟩
    · rw [List.length_append, length_form, hlength, List.length_cons, List.count_cons]
      omega
    · rw [List.cons_append, lowerAfter, hothers, List.reverse_cons, List.append_assoc,
        List.append_assoc]
      rfl

/-! ### Texts in small letters -/

/-- No other character has a capital sigma for its small letter. -/
theorem eq_sigma_of_lowerChar (h : lowerChar c = 'Σ') : c = 'Σ' := by
  have hnone : capitals 'Σ' = [] := by decide +kernel
  have hcases := eq_or_mem_capitals c
  rw [h, hnone] at hcases
  exact hcases.resolve_right List.not_mem_nil

theorem sigma_not_mem_lowerAfter (before t : Text) : 'Σ' ∉ lowerAfter before t := by
  induction t generalizing before with
  | nil => exact List.not_mem_nil
  | cons c rest ih =>
    rw [lowerAfter, List.mem_append, not_or]
    refine ⟨?_, ih _⟩
    split
    · rw [List.mem_singleton, lowerSigma]
      split <;> decide
    next hc =>
      rw [lowerForm]
      split
      · decide
      · rw [List.mem_singleton]
        exact fun h ↦ hc (eq_sigma_of_lowerChar h.symm)

/-- A text in small letters stays what it is, whatever stands around it. -/
theorem lowerAfter_append_of_lower (h : lower t = t) (before u : Text) :
    lowerAfter before (t ++ u) = t ++ lowerAfter (t.reverse ++ before) u := by
  have hsigma : 'Σ' ∉ t := h ▸ sigma_not_mem_lowerAfter [] t
  rw [lowerAfter_append hsigma, ← lower_eq_flatMap hsigma, h]

/-- Where the small form of a text comes first, the rest of the small letters are those of the
characters that the text leaves. -/
theorem lower_append_of_prefix (ht : 'İ' ∉ t) (hfront : 'İ' ∉ front)
    (hlength : t.length = front.length) (h : lower t <+: lower (front ++ rest)) :
    lower (front ++ rest) = lower t ++ lowerAfter front.reverse rest := by
  obtain ⟨small, hsmall, happend⟩ := exists_lowerAfter_append [] front rest
  rw [List.append_nil] at happend
  rw [List.count_eq_zero.mpr hfront, Nat.add_zero] at hsmall
  have hsame : (lower t).length = small.length := by
    rw [hsmall, ← hlength]
    exact length_lowerAfter ht []
  have hprefix : small <+: lower (front ++ rest) := ⟨_, happend.symm⟩
  have hequal : lower t = small :=
    (List.prefix_of_prefix_length_le h hprefix (Nat.le_of_eq hsame)).eq_of_length hsame
  rw [hequal]
  exact happend

/-- The texts are the same in small letters if nothing is left; a punctuation mark comes next if it
does in what is left. -/
theorem lower_eq_iff_of_prefix (hd : IsPunctuation d) (ht : 'İ' ∉ t) (hfront : 'İ' ∉ front)
    (hlength : t.length = front.length) (h : lower t <+: lower (front ++ rest)) :
    (lower t = lower (front ++ rest) ↔ rest = []) ∧
    (lower (t ++ [d]) <+: lower (front ++ rest ++ [d]) ↔ rest = [] ∨ rest.head? = some d) := by
  have hwhole := lower_append_of_prefix ht hfront hlength h
  have hconcat (t : Text) : lower (t ++ [d]) = lower t ++ [d] := lowerAfter_concat hd [] t
  constructor
  · rw [hwhole, List.self_eq_append_right, lowerAfter_eq_nil_iff]
  · have hhead : [d] <+: lowerAfter front.reverse (rest ++ [d]) ↔ (rest ++ [d]).head? = some d := by
      rw [← head?_lowerAfter hd front.reverse, List.head?_eq_some_iff]
      exact ⟨fun ⟨more, hmore⟩ ↦ ⟨more, hmore.symm⟩, fun ⟨more, hmore⟩ ↦ ⟨more, hmore.symm⟩⟩
    rw [hconcat, hconcat, hwhole, List.append_assoc, List.prefix_append_right_inj,
      ← lowerAfter_concat hd, hhead]
    cases rest <;> simp

end UrlRouting.Text

import Mathlib.Data.List.DropRight
import UrlRouting.Proofs.Text.Delimit
import UrlRouting.Proofs.Text.SmallForms

/-!
Characters without case. No mapping of case makes one or takes one away, and commas and blanks are
of this kind. So putting a text into small or capital letters makes no comma and no outer blank and
takes none away: `isBare_upper_lower`.
-/

namespace UrlRouting.Text

variable {c d x : Char} {t u v w field : Text} {p : Char → Bool}

/-! ### Characters without case -/

/-- The code point is neither between those that the run maps nor between their images. -/
def CaseRun.spares (run : CaseRun) (n : Nat) : Bool :=
  (Nat.blt n run.first || Nat.blt run.last n) &&
    (Nat.blt n (run.target run.first) || Nat.blt (run.target run.last) n)

theorem CaseRun.spares_iff {run : CaseRun} {n : Nat} : run.spares n = true ↔
    (n < run.first ∨ run.last < n) ∧ (n < run.target run.first ∨ run.target run.last < n) := by
  simp only [spares, Bool.and_eq_true, Bool.or_eq_true, Nat.blt_eq]

theorem CaseRun.between {run : CaseRun} {n : Nat} (h : run.covers n = true) :
    (run.first ≤ n ∧ n ≤ run.last) ∧
      run.target run.first ≤ run.target n ∧ run.target n ≤ run.target run.last := by
  simp only [covers, Bool.and_eq_true, decide_eq_true_eq] at h
  simp only [target]
  omega

/-- No mapping of case makes the character or takes it away. -/
structure IsCaseless (c : Char) : Prop where
  letter : c.isAlpha = false
  dotted : c ≠ 'İ'
  dot : c ≠ '\u0307'
  runs : ∀ run ∈ CaseTable.toLower ++ CaseTable.toUpper, run.spares c.toNat = true
  long : ∀ entry ∈ CaseTable.toUpperLong, entry.1 ≠ c.toNat ∧ c.toNat ∉ entry.2

instance (c : Char) : Decidable (IsCaseless c) :=
  decidable_of_iff (_ ∧ _ ∧ _ ∧ _ ∧ _)
    ⟨fun ⟨letter, dotted, dot, runs, long⟩ ↦ ⟨letter, dotted, dot, runs, long⟩,
      fun ⟨letter, dotted, dot, runs, long⟩ ↦ ⟨letter, dotted, dot, runs, long⟩⟩

theorem isCaseless_of_isBlank (h : isBlank c = true) : IsCaseless c := by
  rw [isBlank, hasProperty] at h
  split at h
  next hlow =>
    exact forall_ascii (P := fun c ↦ (c == ' ' || ('\t' ≤ c && c ≤ '\r') ||
      ('\x1c' ≤ c && c ≤ '\x1f')) = true → IsCaseless c) (by decide +kernel) hlow h
  next =>
    have hall : ∀ interval ∈ ClassTable.blank,
        ∀ n ∈ List.range' interval.1 (interval.2 + 1 - interval.1), IsCaseless (Char.ofNat n) := by
      decide +kernel
    obtain ⟨interval, hmem, hcovers⟩ := List.any_eq_true.mp h
    simp only [Bool.and_eq_true, decide_eq_true_eq] at hcovers
    have hc := hall interval hmem c.toNat (List.mem_range'_1.mpr ⟨hcovers.1, by omega⟩)
    rwa [Char.ofNat_toNat] at hc

section Shift

variable {runs : List CaseRun} (hspares : ∀ run ∈ runs, run.spares d.toNat = true)

include hspares

theorem shiftBy_of_spares : shiftBy runs d = d := by
  have hnone : runs.find? (fun run ↦ run.covers d.toNat) = none := by
    refine List.find?_eq_none.mpr fun run hmem hcovers ↦ ?_
    have hwithin := (CaseRun.between hcovers).1
    have houtside := (CaseRun.spares_iff.mp (hspares run hmem)).1
    omega
  rw [shiftBy, hnone]

theorem eq_of_shiftBy (hsound : ∀ run ∈ runs, run.isSound = true) (h : shiftBy runs c = d) :
    c = d := by
  rw [shiftBy] at h
  split at h
  next run hfind =>
    have hmem := List.mem_of_find?_eq_some hfind
    have hcovers := List.find?_some hfind
    have hwithin := (CaseRun.between hcovers).2
    have houtside := (CaseRun.spares_iff.mp (hspares run hmem)).2
    rw [← h, CaseRun.toNat_target (hsound run hmem) hcovers] at houtside
    omega
  next => exact h

end Shift

theorem isSound_of_mem_toUpper {run : CaseRun} (h : run ∈ CaseTable.toUpper) :
    run.isSound = true :=
  (by decide +kernel : ∀ run ∈ CaseTable.toUpper, run.isSound = true) run h

namespace IsCaseless

theorem spares_toLower (h : IsCaseless d) :
    ∀ run ∈ CaseTable.toLower, run.spares d.toNat = true :=
  fun run hmem ↦ h.runs run (List.mem_append_left _ hmem)

theorem spares_toUpper (h : IsCaseless d) :
    ∀ run ∈ CaseTable.toUpper, run.spares d.toNat = true :=
  fun run hmem ↦ h.runs run (List.mem_append_right _ hmem)

theorem upperForm_eq (h : IsCaseless d) : upperForm d = [d] := by
  rw [upperForm]
  split
  next hlow =>
    have hplain := forall_ascii (P := fun c ↦ c.isAlpha = false → c.toUpper = c) (by decide) hlow
    rw [hplain h.letter]
  next =>
    have hnone : CaseTable.toUpperLong.find? (fun entry ↦ entry.1 == d.toNat) = none :=
      List.find?_eq_none.mpr fun entry hmem ↦ by simpa using (h.long entry hmem).1
    rw [hnone, shiftBy_of_spares h.spares_toUpper]

theorem eq_of_mem_upperForm (h : IsCaseless x) (hx : x ∈ upperForm c) : x = c := by
  rw [upperForm] at hx
  split at hx
  next hlow =>
    have hcases := forall_ascii (P := fun c ↦ c.toUpper = c ∨ c.toUpper.isAlpha = true)
      (by decide) hlow
    rw [List.mem_singleton] at hx
    rcases hcases with hsame | hletter
    · exact hx.trans hsame
    · rw [← hx, h.letter] at hletter
      cases hletter
  next =>
    split at hx
    next entry hfind =>
      have hvalid : ∀ entry ∈ CaseTable.toUpperLong, ∀ n ∈ entry.2, n.isValidChar := by
        decide
      have hmem := List.mem_of_find?_eq_some hfind
      obtain ⟨n, hn, rfl⟩ := List.mem_map.mp hx
      have hnot := (h.long entry hmem).2
      rw [toNat_ofNat (hvalid entry hmem n hn)] at hnot
      exact absurd hn hnot
    next =>
      rw [List.mem_singleton] at hx
      exact (eq_of_shiftBy h.spares_toUpper (fun _ ↦ isSound_of_mem_toUpper) hx.symm).symm

theorem lowerChar_eq (h : IsCaseless d) : lowerChar d = d := by
  rw [lowerChar]
  split
  next hlow =>
    exact forall_ascii (P := fun c ↦ c.isAlpha = false → c.toLower = c) (by decide) hlow h.letter
  next =>
    rw [if_neg h.dotted, shiftBy_of_spares h.spares_toLower]

theorem eq_of_lowerChar (h : IsCaseless x) (hx : lowerChar c = x) : x = c := by
  rw [lowerChar] at hx
  split at hx
  next hlow =>
    have hcases := forall_ascii (P := fun c ↦ c.toLower = c ∨ c.toLower.isAlpha = true)
      (by decide) hlow
    rcases hcases with hsame | hletter
    · exact hx.symm.trans hsame
    · rw [hx, h.letter] at hletter
      cases hletter
  next =>
    split at hx
    · rw [← hx] at h
      exact absurd h.letter (by decide)
    · exact (eq_of_shiftBy h.spares_toLower (fun _ ↦ CaseRun.isSound_of_mem) hx).symm

/-- The letters that the mapping to small ones treats apart have case. -/
theorem ne_of_mem (h : IsCaseless d) (hx : x ∈ ['Σ', 'σ', 'ς', 'i']) : d ≠ x := by
  have hcased : ∀ x ∈ ['Σ', 'σ', 'ς', 'i'], ¬IsCaseless x := by decide +kernel
  rintro rfl
  exact hcased d hx h

theorem form_eq (h : IsCaseless d) (before t : Text) :
    (if d = 'Σ' then [lowerSigma before t] else lowerForm d) = [d] := by
  rw [if_neg (h.ne_of_mem (by decide)), lowerForm, if_neg h.dotted, h.lowerChar_eq]

theorem eq_of_mem_form {before : Text} (h : IsCaseless x)
    (hx : x ∈ if c = 'Σ' then [lowerSigma before t] else lowerForm c) : x = c := by
  split at hx
  next =>
    rw [List.mem_singleton, lowerSigma] at hx
    split at hx
    all_goals exact absurd hx (h.ne_of_mem (by decide))
  next =>
    rw [lowerForm] at hx
    split at hx
    next =>
      rcases List.mem_cons.mp hx with hi | hdot
      · exact absurd hi (h.ne_of_mem (by decide))
      · exact absurd (List.mem_singleton.mp hdot) h.dot
    next => exact h.eq_of_lowerChar (List.mem_singleton.mp hx).symm

end IsCaseless

/-! ### Texts put into other letters -/

/-- The second text has for each character of the first one or more, which pass the test if and only
if that character does. -/
inductive Recasts (p : Char → Bool) : Text → Text → Prop
  | nil : Recasts p [] []
  | cons {c : Char} {form t u : Text} : form ≠ [] → (∀ x ∈ form, p x = p c) → Recasts p t u →
    Recasts p (c :: t) (form ++ u)

namespace Recasts

theorem append (h : Recasts p t u) (h' : Recasts p v w) : Recasts p (t ++ v) (u ++ w) := by
  induction h with
  | nil => exact h'
  | cons hne hform _ ih =>
    rw [List.cons_append, List.append_assoc]
    exact .cons hne hform ih

theorem reverse (h : Recasts p t u) : Recasts p t.reverse u.reverse := by
  induction h with
  | nil => exact .nil
  | @cons c form t u hne hform _ ih =>
    have hlast : Recasts p [c] (form.reverse ++ []) := .cons (by simpa using hne)
      (fun x hx ↦ hform x (List.mem_reverse.mp hx)) .nil
    rw [List.reverse_cons, List.reverse_append, ← List.append_nil form.reverse]
    exact ih.append hlast

theorem any_eq (h : Recasts p t u) : u.any p = t.any p := by
  induction h with
  | nil => rfl
  | @cons c form t u hne hform _ ih =>
    have hsame : form.any p = p c := by
      obtain ⟨x, hx⟩ := List.exists_mem_of_ne_nil form hne
      rw [Bool.eq_iff_iff, List.any_eq_true]
      exact ⟨fun ⟨y, hy, hp⟩ ↦ hform y hy ▸ hp, fun hp ↦ ⟨x, hx, hform x hx ▸ hp⟩⟩
    rw [List.any_append, List.any_cons, hsame, ih]

theorem dropWhile_eq_self_iff (h : Recasts p t u) : u.dropWhile p = u ↔ t.dropWhile p = t := by
  rw [List.dropWhile_eq_self_iff, List.dropWhile_eq_self_iff]
  cases h with
  | nil => rfl
  | @cons c form t u hne hform _ =>
    obtain ⟨x, rest, rfl⟩ := List.exists_cons_of_ne_nil hne
    have hfirst := hform x List.mem_cons_self
    simp [hfirst]

end Recasts

theorem upperForm_ne_nil (c : Char) : upperForm c ≠ [] := by
  rw [upperForm]
  split
  next => exact List.cons_ne_nil _ _
  next =>
    split
    next entry hfind =>
      have hlong : ∀ entry ∈ CaseTable.toUpperLong, entry.2.map Char.ofNat ≠ [] := by decide
      exact hlong entry (List.mem_of_find?_eq_some hfind)
    next => exact List.cons_ne_nil _ _

theorem upper_ne_nil (h : t ≠ []) : upper t ≠ [] := by
  obtain ⟨c, rest, rfl⟩ := List.exists_cons_of_ne_nil h
  rw [upper, List.flatMap_cons]
  exact List.append_ne_nil_of_left_ne_nil (upperForm_ne_nil c) _

section Test

variable (hp : ∀ c, p c = true → IsCaseless c)

include hp

theorem recasts_upper (t : Text) : Recasts p t (upper t) := by
  induction t with
  | nil => exact .nil
  | cons c rest ih =>
    rw [upper, List.flatMap_cons]
    refine .cons (upperForm_ne_nil c) (fun x hx ↦ Bool.eq_iff_iff.mpr ⟨fun h ↦ ?_, fun h ↦ ?_⟩) ih
    · exact (hp x h).eq_of_mem_upperForm hx ▸ h
    · rw [(hp c h).upperForm_eq, List.mem_singleton] at hx
      exact hx ▸ h

theorem recasts_lowerAfter (before t : Text) : Recasts p t (lowerAfter before t) := by
  induction t generalizing before with
  | nil => exact .nil
  | cons c rest ih =>
    rw [lowerAfter]
    refine .cons (form_ne_nil c before rest) (fun x hx ↦ Bool.eq_iff_iff.mpr ⟨fun h ↦ ?_,
      fun h ↦ ?_⟩) (ih _)
    · exact (hp x h).eq_of_mem_form hx ▸ h
    · rw [(hp c h).form_eq, List.mem_singleton] at hx
      exact hx ▸ h

end Test

/-! ### Fields -/

theorem trim_eq_self_iff :
    trim p t = t ↔ t.dropWhile p = t ∧ t.reverse.dropWhile p = t.reverse := by
  constructor
  · intro h
    have hlength := (List.rdropWhile_prefix p (trimLeft p t)).length_le
    have hleft : t.dropWhile p = t :=
      (List.dropWhile_suffix p).eq_of_length_le ((congrArg List.length h).symm.le.trans hlength)
    rw [trim, trimLeft, hleft, trimRight] at h
    exact ⟨hleft, List.reverse_eq_iff.mp h⟩
  · rintro ⟨hleft, hright⟩
    rw [trim, trimLeft, hleft, trimRight, hright, List.reverse_reverse]

theorem trim_trim (p : Char → Bool) (t : Text) : trim p (trim p t) = trim p t := by
  refine trim_eq_self_iff.mpr ⟨?_, ?_⟩
  · obtain ⟨rest, hrest⟩ := List.rdropWhile_prefix p (trimLeft p t)
    have hhead := List.head?_dropWhile_not p t
    change trim p t ++ rest = t.dropWhile p at hrest
    rw [← hrest] at hhead
    cases htrim : trim p t with
    | nil => rfl
    | cons c front =>
      rw [htrim] at hhead
      exact List.dropWhile_cons_of_neg (Bool.eq_false_iff.mp hhead)
  · rw [trim, trimRight, List.reverse_reverse, List.dropWhile_idempotent]

/-- The text has no comma, and no blank at its ends. -/
structure IsBare (t : Text) : Prop where
  comma : ',' ∉ t
  ends : trim isBlank t = t

theorem IsBare.bareFields_eq (h : IsBare t) : bareFields t = [t] := by
  rw [bareFields, splitAt_of_not_mem h.comma, List.map_singleton, h.ends]

theorem isBare_of_mem (h : field ∈ bareFields t) : IsBare field := by
  obtain ⟨piece, hpiece, rfl⟩ := List.mem_map.mp h
  exact ⟨fun hmem ↦ not_mem_of_mem_splitAt hpiece (Template.mem_of_mem_trim hmem), trim_trim _ _⟩

theorem Recasts.trim_eq_self_iff (h : Recasts p t u) : trim p u = u ↔ trim p t = t := by
  rw [Text.trim_eq_self_iff, Text.trim_eq_self_iff, h.dropWhile_eq_self_iff,
    h.reverse.dropWhile_eq_self_iff]

theorem isBare_of_recasts (hcomma : Recasts (· == ',') t u) (hblank : Recasts isBlank t u) :
    IsBare u ↔ IsBare t := by
  have hmem : ',' ∈ u ↔ ',' ∈ t := by
    have h := Bool.eq_iff_iff.mp hcomma.any_eq
    simpa only [List.any_eq_true, beq_iff_eq, exists_eq_right] using h
  refine ⟨fun h ↦ ⟨?_, ?_⟩, fun h ↦ ⟨?_, ?_⟩⟩
  · exact fun hc ↦ h.comma (hmem.mpr hc)
  · exact hblank.trim_eq_self_iff.mp h.ends
  · exact fun hc ↦ h.comma (hmem.mp hc)
  · exact hblank.trim_eq_self_iff.mpr h.ends

/-- Putting a text into small letters and then into capital letters makes no comma and no outer
blank, and takes none away. -/
theorem isBare_upper_lower (t : Text) : IsBare (upper (lower t)) ↔ IsBare t := by
  have hcomma : ∀ c, (c == ',') = true → IsCaseless c := by
    intro c hc
    rw [beq_iff_eq.mp hc]
    decide +kernel
  have hblank : ∀ c, isBlank c = true → IsCaseless c := fun _ ↦ isCaseless_of_isBlank
  rw [isBare_of_recasts (recasts_upper hcomma _) (recasts_upper hblank _)]
  exact isBare_of_recasts (recasts_lowerAfter hcomma [] t) (recasts_lowerAfter hblank [] t)

end UrlRouting.Text

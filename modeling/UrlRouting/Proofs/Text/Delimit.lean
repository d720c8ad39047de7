import UrlRouting.Config
import UrlRouting.Proofs.Text.Ascii

/-!
Another delimiter in place of slashes. Over the characters of ASCII apart from the delimiter nothing
is lost by this, so that texts compare, begin, end and fall into pieces as they did before.
-/

namespace UrlRouting.Template

open Text

variable {d c x : Char} {t u : Text}

/-- The delimiter in place of slashes. -/
def delimit (d c : Char) : Char := if c = '/' then d else c

@[simp] theorem delimit_slash (d : Char) : delimit d '/' = d := if_pos rfl

theorem delimit_of_ne (h : c ≠ '/') : delimit d c = c := if_neg h

theorem delimit_slash_eq_id : delimit '/' = id := by
  funext c
  rw [delimit, id_eq]
  split
  next hc => exact hc.symm
  next => rfl

theorem delimit_of_isWord (h : Text.isWord c = true) : delimit d c = c := by
  refine delimit_of_ne ?_
  rintro rfl
  exact absurd h (by decide)

theorem delimit_fixed (h : Text.isWord c = true ∨ c ∈ ['<', '>', '?']) : delimit d c = c := by
  rcases h with h | h
  · exact delimit_of_isWord h
  · refine delimit_of_ne ?_
    rintro rfl
    exact absurd h (by decide)

theorem replaceChar_eq_map (d : Char) (t : Text) :
    Text.replaceChar '/' [d] t = t.map (delimit d) := by
  rw [Text.replaceChar, ← List.flatMap_singleton' (t.map (delimit d)), List.flatMap_map]
  congr 1
  funext c
  rw [delimit]
  split <;> rfl

/-- The characters of ASCII apart from a delimiter. -/
def Apart (d c : Char) : Prop := IsAscii c ∧ c ≠ d

/-- Another delimiter than the slash, and one that is not matched by the patterns of variables. -/
structure Delimits (d : Char) : Prop where
  punctuation : IsPunctuation d
  isDelimiter : Config.isDelimiter d = true
  ne_slash : d ≠ '/'
  ne_point : d ≠ '.'
  ne_hyphen : d ≠ '-'

theorem delimit_inj (hc : Apart d c) (hx : Apart d x) : delimit d c = delimit d x ↔ c = x := by
  refine ⟨fun h ↦ ?_, fun h ↦ h ▸ rfl⟩
  rw [delimit, delimit] at h
  split at h
  next hslash =>
    split at h
    next hslash' => rw [hslash, hslash']
    next => exact absurd h.symm hx.2
  next =>
    split at h
    next => exact absurd h hc.2
    next => exact h

theorem delimit_eq_iff (hc : Apart d c) : delimit d c = d ↔ c = '/' := by
  rw [delimit]
  split
  next hslash => exact iff_of_true rfl hslash
  next hslash => exact iff_of_false hc.2 hslash

/-! ### Comparing -/

theorem prefix_map_delimit_iff (ht : ∀ c ∈ t, Apart d c) (hu : ∀ c ∈ u, Apart d c) :
    t.map (delimit d) <+: u.map (delimit d) ↔ t <+: u := by
  induction t generalizing u with
  | nil => exact iff_of_true List.nil_prefix List.nil_prefix
  | cons c t ih =>
    obtain ⟨hc, ht⟩ := List.forall_mem_cons.mp ht
    cases u with
    | nil => simp
    | cons x u =>
      obtain ⟨hx, hu⟩ := List.forall_mem_cons.mp hu
      rw [List.map_cons, List.map_cons, List.cons_prefix_cons, List.cons_prefix_cons,
        delimit_inj hc hx, ih ht hu]

theorem map_delimit_inj (ht : ∀ c ∈ t, Apart d c) (hu : ∀ c ∈ u, Apart d c) :
    t.map (delimit d) = u.map (delimit d) ↔ t = u := by
  refine ⟨fun h ↦ ?_, fun h ↦ h ▸ rfl⟩
  have hlength := congrArg List.length h
  rw [List.length_map, List.length_map] at hlength
  exact ((prefix_map_delimit_iff ht hu).mp (h ▸ List.prefix_rfl)).eq_of_length hlength

theorem startsWith_delimit (ht : ∀ c ∈ t, Apart d c) (hu : ∀ c ∈ u, Apart d c) :
    startsWith (t.map (delimit d)) (u.map (delimit d)) = startsWith t u := by
  rw [Bool.eq_iff_iff, startsWith_iff, startsWith_iff, prefix_map_delimit_iff hu ht]

theorem isEmpty_map_delimit (d : Char) (t : Text) : (t.map (delimit d)).isEmpty = t.isEmpty :=
  List.isEmpty_map

namespace Delimits

variable (hd : Delimits d)

include hd

theorem toLower_eq : d.toLower = d :=
  toLower_of_not_alphanum hd.punctuation.isAscii hd.punctuation.2.2

theorem apart_toLower (hc : Apart d c) : Apart d c.toLower := by
  obtain ⟨hascii, hcase⟩ := toLower_cases hc.1
  refine ⟨hascii, ?_⟩
  rintro he
  rcases hcase with h | h
  · exact hc.2 (h ▸ he)
  · rw [he, hd.punctuation.2.2] at h
    cases h

theorem toLower_delimit (hc : Apart d c) : (delimit d c).toLower = delimit d c.toLower := by
  by_cases hslash : c = '/'
  · rw [hslash, delimit_slash, hd.toLower_eq]
    exact (delimit_slash d).symm
  · rw [delimit_of_ne hslash, delimit_of_ne]
    intro he
    rcases (toLower_cases hc.1).2 with h | h
    · exact hslash (h ▸ he)
    · rw [he] at h
      cases h

theorem isAscii_delimit (hc : Apart d c) : IsAscii (delimit d c) := by
  rw [delimit]
  split
  · exact hd.punctuation.isAscii
  · exact hc.1

theorem apart_lower (ht : ∀ c ∈ t, Apart d c) : ∀ c ∈ lower t, Apart d c := by
  rw [lower_of_isAscii fun c hc ↦ (ht c hc).1]
  intro c hc
  obtain ⟨x, hx, rfl⟩ := List.mem_map.mp hc
  exact hd.apart_toLower (ht x hx)

theorem lower_delimit (ht : ∀ c ∈ t, Apart d c) :
    lower (t.map (delimit d)) = (lower t).map (delimit d) := by
  have hascii : ∀ c ∈ t.map (delimit d), IsAscii c := by
    intro c hc
    obtain ⟨x, hx, rfl⟩ := List.mem_map.mp hc
    exact hd.isAscii_delimit (ht x hx)
  rw [lower_of_isAscii hascii, lower_of_isAscii fun c hc ↦ (ht c hc).1, List.map_map, List.map_map]
  exact List.map_congr_left fun c hc ↦ hd.toLower_delimit (ht c hc)

/-- The delimiter and the slash match no other characters without regard to case. -/
theorem foldChar_delimit (hx : Apart d x) (hslash : x ≠ '/') :
    foldChar (delimit d c) = foldChar x ↔ foldChar c = foldChar x := by
  have hne (y : Char) (hy : IsAscii y) (hplain : y.isAlphanum = false) (hxy : x ≠ y) :
      foldChar y ≠ foldChar x := by
    rw [foldChar_of_not_alphanum hy hplain]
    rcases foldChar_cases hx.1 with h | h
    · rw [h]
      exact Ne.symm hxy
    · rintro he
      rw [← he, hplain] at h
      cases h
  by_cases hc' : c = '/'
  · rw [hc', delimit_slash]
    exact iff_of_false (hne d hd.punctuation.isAscii hd.punctuation.2.2 hx.2)
      (hne '/' (by decide) (by decide) hslash)
  · rw [delimit_of_ne hc']

theorem sameFolded_delimit (hu : ∀ c ∈ u, Apart d c) (hslash : '/' ∉ u) :
    sameFolded (t.map (delimit d)) u = sameFolded t u := by
  rw [sameFolded, sameFolded, List.map_map, Bool.eq_iff_iff, beq_iff_eq, beq_iff_eq]
  induction t generalizing u with
  | nil => exact Iff.rfl
  | cons c t ih =>
    cases u with
    | nil => exact iff_of_false nofun nofun
    | cons x u =>
      obtain ⟨hx, hu⟩ := List.forall_mem_cons.mp hu
      rw [List.mem_cons, not_or] at hslash
      rw [List.map_cons, List.map_cons, List.map_cons, List.cons.injEq, List.cons.injEq,
        ih hu hslash.2]
      exact and_congr_left fun _ ↦ hd.foldChar_delimit hx (Ne.symm hslash.1)

end Delimits

/-! ### Cutting -/

theorem trimRight_delimit (ht : ∀ c ∈ t, Apart d c) :
    trimRight (· == d) (t.map (delimit d)) = (trimRight (· == '/') t).map (delimit d) := by
  have hdrop (u : Text) (hu : ∀ c ∈ u, Apart d c) : (u.map (delimit d)).dropWhile (· == d) =
      (u.dropWhile (· == '/')).map (delimit d) := by
    induction u with
    | nil => rfl
    | cons c u ih =>
      obtain ⟨hc, hu⟩ := List.forall_mem_cons.mp hu
      have hsame : (delimit d c == d) = (c == '/') := by
        rw [Bool.eq_iff_iff, beq_iff_eq, beq_iff_eq, delimit_eq_iff hc]
      rw [List.map_cons, List.dropWhile_cons, List.dropWhile_cons, hsame, ih hu]
      split <;> rfl
  rw [trimRight, trimRight, ← List.map_reverse,
    hdrop _ fun c hc ↦ ht c (List.mem_reverse.mp hc), List.map_reverse]

theorem mem_of_mem_trimRight {p : Char → Bool} (h : c ∈ trimRight p t) : c ∈ t :=
  List.mem_reverse.mp ((List.dropWhile_suffix p).subset (List.mem_reverse.mp h))

theorem mem_of_mem_trim {p : Char → Bool} (h : c ∈ trim p t) : c ∈ t :=
  (List.dropWhile_suffix p).subset (mem_of_mem_trimRight h)

/-- The pieces between delimiters are those between slashes. -/
theorem splitOn_delimit (ht : ∀ c ∈ t, Apart d c) :
    splitOn [d] (t.map (delimit d)) = splitOn ['/'] t := by
  have hprefix (x y : Char) (u : Text) : [x].isPrefixOf (y :: u) = (x == y) := Bool.and_true _
  rw [splitOn, splitOn]
  induction t with
  | nil => rfl
  | cons c t ih =>
    obtain ⟨hc, ht⟩ := List.forall_mem_cons.mp ht
    have hrest := ih ht
    rw [List.map_cons, splitAfter, splitAfter, hprefix, hprefix]
    by_cases hslash : c = '/'
    · rw [hslash, delimit_slash, if_pos (beq_self_eq_true d), if_pos (beq_self_eq_true '/')]
      exact congrArg ([] :: ·) hrest
    · rw [delimit_of_ne hslash, if_neg (by simpa using Ne.symm hc.2),
        if_neg (by simpa using Ne.symm hslash), hrest]

end UrlRouting.Template

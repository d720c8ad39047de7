import Mathlib.Data.Char
import Mathlib.Data.List.Lex
import UrlRouting.Fault
import UrlRouting.Proofs.Text.Caseless

/-!
What a refusal says about methods, read back from its header. The header lists the methods in their
order (`pairwise_sorted`), and reading it gives them back exactly if none of them has a comma or an
outer blank (`allowed_iff_mem_sorted`).
-/

namespace UrlRouting

/-! ### Texts in order -/

namespace Text

theorem precedes_iff_lt {t u : Text} : precedes t u = true ↔ t < u := by
  induction t generalizing u with
  | nil => cases u <;> simp [precedes]
  | cons c t ih =>
    cases u with
    | nil => simp [precedes]
    | cons d u =>
      rw [precedes, List.cons_lt_cons_iff, ← ih]
      simp

theorem pairwise_insertSorted {t : Text} {ts : List Text} (h : ts.Pairwise (· < ·)) :
    (insertSorted t ts).Pairwise (· < ·) := by
  induction ts with
  | nil => exact List.pairwise_singleton _ _
  | cons u rest ih =>
    obtain ⟨hfirst, hrest⟩ := List.pairwise_cons.mp h
    rw [insertSorted]
    split
    next => exact h
    next hne =>
      split
      next hbefore =>
        have hlt : t < u := precedes_iff_lt.mp hbefore
        refine List.pairwise_cons.mpr ⟨List.forall_mem_cons.mpr ⟨hlt, fun v hv ↦ ?_⟩, h⟩
        exact hlt.trans (hfirst v hv)
      next hbefore =>
        have hle : u ≤ t := not_lt.mp fun hlt ↦ hbefore (precedes_iff_lt.mpr hlt)
        refine List.pairwise_cons.mpr ⟨fun v hv ↦ ?_, ih hrest⟩
        rcases mem_insertSorted.mp hv with rfl | hv
        · exact lt_of_le_of_ne hle (Ne.symm hne)
        · exact hfirst v hv

theorem pairwise_sorted (ts : List Text) : (sorted ts).Pairwise (· < ·) := by
  induction ts with
  | nil => exact List.Pairwise.nil
  | cons t rest ih => exact pairwise_insertSorted ih

end Text

/-! ### The header -/

namespace HttpError

open Text

theorem allowed_methodNotAllowed (methods : List Text) (detail : Text) :
    (methodNotAllowed methods detail).allowed =
      ((sorted (methods.map upper)).flatMap bareFields).filter (!·.isEmpty) := by
  have hallow : ((methodNotAllowed methods detail).headers.lookup "Allow".toList).getD [] =
      join ", " (sorted (methods.map upper)) := by
    rw [methodNotAllowed, allowHeader, List.lookup_cons_self]
    rfl
  have hread : (methodNotAllowed methods detail).allowed =
      (bareFields (join ", " (sorted (methods.map upper)))).filter (!·.isEmpty) := by
    rw [allowed, hallow, bareFields]
  rw [hread]
  cases hs : sorted (methods.map upper) with
  | nil => rfl
  | cons t rest => rw [bareFields_join (List.cons_ne_nil _ _)]

/-- The header names the fields of the methods in capital letters. -/
theorem mem_allowed_methodNotAllowed {methods : List Text} {detail method : Text} :
    method ∈ (methodNotAllowed methods detail).allowed ↔
      method ≠ [] ∧ ∃ m ∈ methods, method ∈ bareFields (upper m) := by
  rw [allowed_methodNotAllowed, List.mem_filter, List.mem_flatMap, and_comm]
  refine and_congr (by simp) ?_
  simp only [mem_sorted, List.mem_map]
  constructor
  · rintro ⟨_, ⟨m, hm, rfl⟩, hmethod⟩
    exact ⟨m, hm, hmethod⟩
  · rintro ⟨m, hm, hmethod⟩
    exact ⟨_, ⟨m, hm, rfl⟩, hmethod⟩

/-- The names read back from the header are those that it lists if and only if none of these has a
comma or an outer blank. -/
theorem allowed_iff_mem_sorted {methods : List Text} (hfilled : ∀ m ∈ methods, upper m ≠ [])
    (detail : Text) :
    (∀ name, name ∈ (methodNotAllowed methods detail).allowed ↔
      name ∈ sorted (methods.map upper)) ↔ ∀ m ∈ methods, IsBare (upper m) := by
  simp only [mem_allowed_methodNotAllowed, mem_sorted, List.mem_map]
  constructor
  · intro h m hm
    obtain ⟨-, other, -, hfield⟩ := (h (upper m)).mpr ⟨m, hm, rfl⟩
    exact isBare_of_mem hfield
  · intro h name
    constructor
    · rintro ⟨-, m, hm, hfield⟩
      rw [(h m hm).bareFields_eq, List.mem_singleton] at hfield
      exact ⟨m, hm, hfield.symm⟩
    · rintro ⟨m, hm, rfl⟩
      refine ⟨hfilled m hm, m, hm, ?_⟩
      rw [(h m hm).bareFields_eq]
      exact List.mem_singleton_self _

end HttpError

end UrlRouting

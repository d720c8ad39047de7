import UrlRouting.Dispatch
import UrlRouting.Proofs.Text.Replace
import UrlRouting.Proofs.Text.Split

/-!
How many segments a target has depends on its outline alone: where its slashes and bars stand, and
between which of them there is text. Filling placeholders with texts that are not empty and hold no
separator leaves the outline as it is.
-/

namespace UrlRouting

namespace Text

variable {p : Char → Bool} {c : Char} {t u old new : Text}

/-- Puts a mark for text in front of an outline that does not begin with one. -/
def markText : List Bool → List Bool
  | false :: o => false :: o
  | o => false :: o

/-- The separators of a text, with one mark in place of whatever stands between two of them. -/
def outline (p : Char → Bool) : Text → List Bool
  | [] => []
  | c :: t => if p c then true :: outline p t else markText (outline p t)

theorem markText_markText (o : List Bool) : markText (markText o) = markText o := by
  rcases o with _ | ⟨_ | _, o⟩ <;> rfl

theorem outline_append (hu : u ≠ []) (h : ∀ c ∈ u, p c = false) (t : Text) :
    outline p (u ++ t) = markText (outline p t) := by
  induction u with
  | nil => exact absurd rfl hu
  | cons c rest ih =>
    have hc : p c = false := h c List.mem_cons_self
    rw [List.cons_append, outline, hc, if_neg Bool.false_ne_true]
    cases rest with
    | nil => rfl
    | cons d rest =>
      have hrest := ih (List.cons_ne_nil _ _) fun c hmem ↦ h c (List.mem_cons_of_mem _ hmem)
      rw [hrest, markText_markText]

theorem outline_replace (hold : old ≠ []) (ho : ∀ c ∈ old, p c = false) (hnew : new ≠ [])
    (hn : ∀ c ∈ new, p c = false) (t : Text) : outline p (replace old new t) = outline p t := by
  refine replace_induction (motive := fun t t' ↦ outline p t' = outline p t) hold rfl ?_ ?_ t
  · intro t ih
    rw [outline_append hnew hn, outline_append hold ho, ih]
  · intro c t _ ih
    rw [outline, outline, ih]

/-! ### Counting separators -/

/-- The separators in an outline that text follows. -/
def bars : List Bool → Nat
  | [] => 0
  | true :: o => (if false ∈ o then 1 else 0) + bars o
  | false :: o => bars o

theorem bars_markText (o : List Bool) : bars (markText o) = bars o := by
  rcases o with _ | ⟨_ | _, o⟩ <;> rfl

theorem false_mem_markText (o : List Bool) : false ∈ markText o := by
  rcases o with _ | ⟨_ | _, o⟩ <;> simp [markText]

theorem dropWhile_outline (p : Char → Bool) (t : Text) :
    outline p (t.dropWhile p) = (outline p t).dropWhile id := by
  induction t with
  | nil => rfl
  | cons c rest ih =>
    cases hc : p c with
    | true => simp [outline, hc, ih]
    | false =>
      rw [List.dropWhile_cons_of_neg (by simp [hc]), outline, hc, if_neg Bool.false_ne_true]
      rcases outline p rest with _ | ⟨_ | _, o⟩ <;> rfl

theorem trimRight_cons (p : Char → Bool) (c : Char) (t : Text) : trimRight p (c :: t) =
    if (trimRight p t).isEmpty && p c then [] else c :: trimRight p t := by
  rw [trimRight, List.reverse_cons, List.dropWhile_append, trimRight, List.isEmpty_reverse]
  cases he : (t.reverse.dropWhile p).isEmpty with
  | true =>
    rw [List.isEmpty_iff] at he
    cases hc : p c <;> simp [hc, he]
  | false => simp

theorem isEmpty_trimRight (p : Char → Bool) (t : Text) :
    (trimRight p t).isEmpty = !decide (false ∈ outline p t) := by
  induction t with
  | nil => rfl
  | cons c rest ih =>
    rw [trimRight_cons, ih, outline]
    cases hc : p c with
    | true => by_cases hm : false ∈ outline p rest <;> simp [hm]
    | false => simp [false_mem_markText]

theorem countP_trimRight (p : Char → Bool) (t : Text) :
    (trimRight p t).countP p = bars (outline p t) := by
  induction t with
  | nil => rfl
  | cons c rest ih =>
    rw [trimRight_cons, isEmpty_trimRight, outline]
    cases hc : p c with
    | false => simp [bars_markText, hc, ih]
    | true =>
      have hempty := isEmpty_trimRight p rest
      by_cases hm : false ∈ outline p rest
      · simp [bars, hm, hc, ih, Nat.add_comm]
      · have hnil : trimRight p rest = [] := by simpa [hm] using hempty
        rw [hnil, List.countP_nil] at ih
        simp [bars, hm, ← ih]

end Text

namespace Target

open Text

def isBar (c : Char) : Bool := c == '/' || c == '|'

theorem outline_replaceChar (t : Text) :
    outline (· == '/') (replaceChar '|' ['/'] t) = outline isBar t := by
  induction t with
  | nil => rfl
  | cons c rest ih =>
    rw [replaceChar, List.flatMap_cons, ← replaceChar]
    by_cases hbar : c = '|'
    · subst hbar
      simp [outline, isBar, ih]
    · simp only [if_neg hbar, List.singleton_append, outline, ih]
      simp [isBar, hbar]

theorem length_segments (t : Text) :
    (segments t).length = bars ((outline isBar t).dropWhile id) + 1 := by
  rw [segments, length_splitAt, trim, countP_trimRight, trimLeft, dropWhile_outline,
    outline_replaceChar]

end Target

end UrlRouting

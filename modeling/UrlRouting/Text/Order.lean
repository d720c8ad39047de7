import UrlRouting.Text.Basic

/-!
The alphabetical order of texts, by code point, and sorted lists without repetitions.
-/

namespace UrlRouting.Text

def precedes : Text → Text → Bool
  | _, [] => false
  | [], _ :: _ => true
  | c :: s, d :: t => decide (c < d) || (c == d && precedes s t)

/-- Puts a text into its place in a sorted list, unless it is there. -/
def insertSorted (t : Text) : List Text → List Text
  | [] => [t]
  | u :: rest =>
    if t = u then u :: rest
    else if precedes t u then t :: u :: rest
    else u :: insertSorted t rest

def sorted (ts : List Text) : List Text := ts.foldr insertSorted []

theorem mem_insertSorted {t u : Text} {ts : List Text} :
    u ∈ insertSorted t ts ↔ u = t ∨ u ∈ ts := by
  induction ts with
  | nil => simp [insertSorted]
  | cons v rest ih =>
    rw [insertSorted]
    split
    next h => simp [h]
    next =>
      split
      · simp
      · simp only [List.mem_cons, ih]
        exact or_left_comm

theorem mem_sorted {u : Text} {ts : List Text} : u ∈ sorted ts ↔ u ∈ ts := by
  induction ts with
  | nil => simp [sorted]
  | cons t rest ih => rw [sorted, List.foldr_cons, mem_insertSorted, ← sorted, ih, List.mem_cons]

end UrlRouting.Text

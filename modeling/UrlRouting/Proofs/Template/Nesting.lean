import Mathlib.Data.List.DropRight
import Mathlib.Data.List.Induction
import UrlRouting.Proofs.Template.Normalizing
import UrlRouting.Table.Declaration

/-!
Rule strings inside groups. The path of a group consists of the segments of the groups around it,
and a rule in it has the rule string that it would have outside of all groups, were it declared with
all of their prefixes: `fullText_flattened`.
-/

namespace UrlRouting

variable {pieces : List Text} {a t : Text}

namespace Text

/-! ### Joining what is not empty -/

/-- The texts that are not empty, with a slash between neighbours. -/
def joinFilled (pieces : List Text) : Text := join "/" (pieces.filter (!·.isEmpty))

theorem join_append_singleton (separator t : Text) (h : pieces ≠ []) :
    join separator (pieces ++ [t]) = join separator pieces ++ separator ++ t := by
  induction pieces with
  | nil => exact absurd rfl h
  | cons piece rest ih =>
    cases rest with
    | nil => rfl
    | cons next rest =>
      have hrest := ih (List.cons_ne_nil _ _)
      simp only [List.cons_append, join, List.append_assoc] at hrest ⊢
      rw [hrest]

theorem joinFilled_pair (a : Text) (h : t ≠ []) :
    joinFilled [a, t] = (if a = [] then [] else a ++ ['/']) ++ t := by
  cases t with
  | nil => exact absurd rfl h
  | cons c t => cases a <;> simp [joinFilled, join]

theorem joinFilled_pair_nil (a : Text) : joinFilled [a, []] = a := by
  cases a <;> simp [joinFilled, join]

theorem joinFilled_ne_nil (h : pieces.filter (!·.isEmpty) ≠ []) : joinFilled pieces ≠ [] := by
  have hall : ∀ piece ∈ pieces.filter (!·.isEmpty), piece ≠ [] := by
    intro piece hmem hnil
    simp [hnil] at hmem
  rw [joinFilled]
  cases hf : pieces.filter (!·.isEmpty) with
  | nil => exact absurd hf h
  | cons piece rest =>
    have hpiece : piece ≠ [] := hall piece (hf ▸ List.mem_cons_self)
    cases rest <;> simp [join, hpiece]

/-- The last piece comes behind all others. -/
theorem joinFilled_append_singleton (pieces : List Text) (t : Text) :
    joinFilled (pieces ++ [t]) = joinFilled [joinFilled pieces, t] := by
  cases t with
  | nil =>
    rw [joinFilled_pair_nil, joinFilled, joinFilled, List.filter_append]
    simp
  | cons c t =>
    rw [joinFilled_pair _ (List.cons_ne_nil c t), joinFilled, List.filter_append]
    by_cases hf : pieces.filter (!·.isEmpty) = []
    · simp [joinFilled, hf, join]
    · rw [if_neg (joinFilled_ne_nil hf)]
      exact join_append_singleton _ _ hf

theorem head?_joinFilled (h : ∀ piece ∈ pieces, piece.head? ≠ some '/') :
    (joinFilled pieces).head? ≠ some '/' := by
  induction pieces using List.reverseRecOn with
  | nil => exact nofun
  | append_singleton pieces t ih =>
    have hfront := ih fun piece hmem ↦ h piece (List.mem_append_left _ hmem)
    rw [joinFilled_append_singleton]
    by_cases ht : t = []
    · rwa [ht, joinFilled_pair_nil]
    · rw [joinFilled_pair _ ht]
      cases hp : joinFilled pieces with
      | nil => exact h t (by simp)
      | cons c front =>
        rw [hp] at hfront
        exact hfront

/-! ### Trimming -/

theorem trimLeft_of_head? (h : t.head? ≠ some '/') : trimLeft (· == '/') t = t := by
  cases t with
  | nil => rfl
  | cons c rest => exact List.dropWhile_cons_of_neg fun hc ↦ h (congrArg some (beq_iff_eq.mp hc))

theorem head?_trimLeft (t : Text) : (trimLeft (· == '/') t).head? ≠ some '/' := by
  intro h
  have hnot := List.head?_dropWhile_not (· == '/') t
  rw [trimLeft] at h
  rw [h] at hnot
  cases hnot

theorem head?_trim (t : Text) : (trim (· == '/') t).head? ≠ some '/' := by
  intro h
  have hprefix : trim (· == '/') t <+: trimLeft (· == '/') t :=
    List.rdropWhile_prefix (· == '/') (trimLeft (· == '/') t)
  obtain ⟨rest, hrest⟩ := hprefix
  refine head?_trimLeft t ?_
  rw [← hrest]
  cases htrim : trim (· == '/') t with
  | nil =>
    rw [htrim] at h
    cases h
  | cons c front =>
    rw [htrim] at h
    exact h

end Text

/-! ### Shorthands -/

namespace Template

open Text

theorem normalize_pair (a t : Text) :
    normalize (joinFilled [a, t]) = joinFilled [normalize a, normalize t] := by
  by_cases ht : t = []
  · rw [ht, joinFilled_pair_nil, normalize_eq_nil_iff.mpr rfl, joinFilled_pair_nil]
  · have hne : normalize t ≠ [] := fun hnil ↦ ht (normalize_eq_nil_iff.mp hnil)
    rw [joinFilled_pair _ ht, joinFilled_pair _ hne]
    by_cases ha : a = []
    · rw [if_pos ha, if_pos (normalize_eq_nil_iff.mpr ha)]
      rfl
    · rw [if_neg ha, if_neg fun hnil ↦ ha (normalize_eq_nil_iff.mp hnil), List.append_assoc,
        List.append_assoc]
      exact normalize_append_slash a t

theorem normalize_joinFilled (pieces : List Text) :
    normalize (joinFilled pieces) = joinFilled (pieces.map normalize) := by
  induction pieces using List.reverseRecOn with
  | nil => rfl
  | append_singleton pieces t ih =>
    rw [joinFilled_append_singleton, normalize_pair, ih, List.map_append,
      ← joinFilled_append_singleton]
    rfl

end Template

/-! ### Paths of groups -/

/-- The path of the innermost of some groups, outermost first. -/
def Group.pathAlong (prefixes : List Text) : Text := prefixes.foldl pathInside []

/-- The rule string that stands outside of all groups for one inside groups. -/
def Rule.flattened (prefixes : List Text) (rule : Text) : Text :=
  Text.joinFilled (prefixes.map (Text.trim (· == '/')) ++ [Text.trimLeft (· == '/') rule])

theorem Group.pathAlong_append (prefixes : List Text) (t : Text) :
    pathAlong (prefixes ++ [t]) = pathInside (pathAlong prefixes) t := by
  rw [pathAlong, List.foldl_append]
  rfl

theorem Group.pathAlong_eq (prefixes : List Text) : pathAlong prefixes =
    Text.joinFilled (prefixes.map fun t ↦ Template.normalize (Text.trim (· == '/') t)) := by
  induction prefixes using List.reverseRecOn with
  | nil => rfl
  | append_singleton prefixes t ih =>
    rw [pathAlong_append, ih, List.map_append, List.map_singleton,
      Text.joinFilled_append_singleton]
    rfl

namespace Rule

variable {prefixes : List Text} {rule : Text}

theorem trimLeft_ne_nil (h : Text.trim (· == '/') rule ≠ []) :
    Text.trimLeft (· == '/') rule ≠ [] := by
  intro hnil
  rw [Text.trim, hnil] at h
  exact h rfl

theorem behind_eq (path : Text) (h : Text.trim (· == '/') rule ≠ []) :
    behind path rule = Text.joinFilled [path, Text.trimLeft (· == '/') rule] := by
  have hslash : rule ≠ ['/'] := by
    rintro rfl
    exact h rfl
  have hleft : Text.trimLeft (· == '/') (Text.trimLeft (· == '/') rule) =
      Text.trimLeft (· == '/') rule := Text.trimLeft_of_head? (Text.head?_trimLeft rule)
  have hempty : (Text.trim (· == '/') rule).isEmpty = false := by simpa using h
  rw [behind, if_neg hslash, Text.trim, hleft, ← Text.trim, hempty,
    Text.joinFilled_pair _ (trimLeft_ne_nil h)]
  cases path <;> simp

theorem fullText_eq (path : Text) (h : Text.trim (· == '/') rule ≠ []) : fullText path rule =
    Template.normalize (Text.joinFilled [path, Text.trimLeft (· == '/') rule]) := by
  have hne : Template.normalize (Text.joinFilled [path, Text.trimLeft (· == '/') rule]) ≠ [] := by
    intro hnil
    rw [Template.normalize_eq_nil_iff, Text.joinFilled_pair _ (trimLeft_ne_nil h)] at hnil
    exact trimLeft_ne_nil h (List.append_eq_nil_iff.mp hnil).2
  rw [fullText, behind_eq path h]
  simp [hne]

theorem flattened_eq (prefixes : List Text) (rule : Text) : flattened prefixes rule =
    Text.joinFilled [Text.joinFilled (prefixes.map (Text.trim (· == '/'))),
      Text.trimLeft (· == '/') rule] :=
  Text.joinFilled_append_singleton _ _

/-- Prefixes may be written out where a group is made or with the rules in it. -/
theorem fullText_flattened (prefixes : List Text) (h : Text.trim (· == '/') rule ≠ []) :
    fullText [] (flattened prefixes rule) = fullText (Group.pathAlong prefixes) rule := by
  have hhead : (flattened prefixes rule).head? ≠ some '/' := by
    refine Text.head?_joinFilled fun piece hmem ↦ ?_
    rcases List.mem_append.mp hmem with hmem | hmem
    · obtain ⟨t, -, rfl⟩ := List.mem_map.mp hmem
      exact Text.head?_trim t
    · rw [List.mem_singleton.mp hmem]
      exact Text.head?_trimLeft rule
  have hbehind : behind [] (flattened prefixes rule) = flattened prefixes rule := by
    change (if _ then _ else Text.trimLeft _ _) = _
    rw [Text.trimLeft_of_head? hhead, ite_self]
  have hpath : Template.normalize (Group.pathAlong prefixes) =
      Template.normalize (Text.joinFilled (prefixes.map (Text.trim (· == '/')))) := by
    rw [Group.pathAlong_eq, Template.normalize_joinFilled, Template.normalize_joinFilled,
      List.map_map, List.map_map]
    exact congrArg Text.joinFilled
      (List.map_congr_left fun t _ ↦ Template.normalize_normalize (Text.trim (· == '/') t))
  have htext : Template.normalize (flattened prefixes rule) =
      Template.normalize (Text.joinFilled [Group.pathAlong prefixes,
        Text.trimLeft (· == '/') rule]) := by
    rw [flattened_eq, Template.normalize_pair, Template.normalize_pair, hpath]
  rw [fullText_eq _ h, ← htext, fullText, hbehind]
  have hne : Template.normalize (flattened prefixes rule) ≠ [] := by
    rw [flattened_eq, Ne, Template.normalize_eq_nil_iff, Text.joinFilled_pair _ (trimLeft_ne_nil h)]
    exact fun hnil ↦ trimLeft_ne_nil h (List.append_eq_nil_iff.mp hnil).2
  simp [hne]

theorem suffix_of_suffix_append {c : Char} {front t : Text} (ht : t ≠ [])
    (h : [c] <:+ front ++ t) : [c] <:+ t := by
  rcases List.suffix_or_suffix_of_suffix h (List.suffix_append front t) with h | h
  · exact h
  · have hlength : [c].length ≤ t.length := List.length_pos_iff.mpr ht
    have heq : t = [c] := h.eq_of_length_le hlength
    exact heq ▸ List.suffix_refl t

theorem withoutEndMark_append (rule : Text) :
    withoutEndMark (rule ++ [endMark]) = (rule, true) := by
  have hends : Text.endsWith (rule ++ [endMark]) [endMark] = true :=
    Text.endsWith_iff.mpr (List.suffix_append rule [endMark])
  rw [withoutEndMark, if_pos hends, List.dropLast_concat]

theorem withoutEndMark_of_not (h : ¬[endMark] <:+ rule) : withoutEndMark rule = (rule, false) := by
  rw [withoutEndMark, if_neg fun hends ↦ h (Text.endsWith_iff.mp hends)]

/-- The mark at the end of a rule string stays at its end. -/
theorem withoutEndMark_flattened (prefixes : List Text)
    (h : Text.trim (· == '/') (withoutEndMark rule).1 ≠ []) :
    withoutEndMark (flattened prefixes rule) =
      (flattened prefixes (withoutEndMark rule).1, (withoutEndMark rule).2) := by
  obtain ⟨front, hfront⟩ : ∃ front, ∀ r, Text.trimLeft (· == '/') r ≠ [] →
      flattened prefixes r = front ++ Text.trimLeft (· == '/') r :=
    ⟨_, fun r hr ↦ (flattened_eq prefixes r).trans (Text.joinFilled_pair _ hr)⟩
  have hleft := trimLeft_ne_nil h
  by_cases hmark : [endMark] <:+ rule
  · obtain ⟨r, rfl⟩ := hmark
    rw [withoutEndMark_append] at hleft ⊢
    have hmarked : Text.trimLeft (· == '/') (r ++ [endMark]) =
        Text.trimLeft (· == '/') r ++ [endMark] := by
      have hempty : (r.dropWhile (· == '/')).isEmpty = false :=
        List.isEmpty_eq_false_iff.mpr hleft
      rw [Text.trimLeft, List.dropWhile_append, hempty]
      rfl
    have hne : Text.trimLeft (· == '/') (r ++ [endMark]) ≠ [] := by
      rw [hmarked]
      exact List.append_ne_nil_of_right_ne_nil _ (List.cons_ne_nil _ _)
    rw [hfront _ hne, hmarked, ← List.append_assoc, withoutEndMark_append, hfront r hleft]
  · rw [withoutEndMark_of_not hmark] at hleft ⊢
    refine withoutEndMark_of_not fun hends ↦ hmark ?_
    rw [hfront rule hleft] at hends
    exact (suffix_of_suffix_append hleft hends).trans (List.dropWhile_suffix _)

end Rule

end UrlRouting

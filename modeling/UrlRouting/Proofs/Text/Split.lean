import UrlRouting.Text.CharClass
import UrlRouting.Text.Basic

/-!
The pieces of a text between the occurrences of a character: a text is one piece, or a piece, the
character and a further text (`splitAt_induction`).
-/

namespace UrlRouting.Text

variable {separator c : Char} {p t u piece : Text}

/-- What all characters of a text fulfil is decided along the text, not over all characters. -/
instance (priority := 2000) decidableForallMem (p : Char → Prop) [DecidablePred p] (t : Text) :
    Decidable (∀ c ∈ t, p c) :=
  List.decidableBAll p t

theorem splitAt_append_cons (separator : Char) (t u : Text) :
    splitAt separator (t ++ separator :: u) = splitAt separator t ++ splitAt separator u := by
  induction t with
  | nil => simp [splitAt]
  | cons c rest ih =>
    rw [List.cons_append, splitAt, splitAt, ih]
    split
    next => rfl
    next =>
      cases hs : splitAt separator rest with
      | nil => exact absurd hs (splitAt_ne_nil separator rest)
      | cons first pieces => rfl

theorem length_splitAt (separator : Char) (t : Text) :
    (splitAt separator t).length = t.countP (· == separator) + 1 := by
  induction t with
  | nil => rfl
  | cons c rest ih =>
    rw [splitAt]
    by_cases hc : c = separator
    · simp [hc, ih]
    · rw [if_neg hc, List.countP_cons_of_neg (by simpa using hc), ← ih]
      cases hs : splitAt separator rest with
      | nil => exact absurd hs (splitAt_ne_nil separator rest)
      | cons first pieces => rfl

theorem splitAt_append (hu : u = [] ∨ u.head? = some separator) (t : Text) :
    splitAt separator (t ++ u) = splitAt separator t ++ (splitAt separator u).tail := by
  cases u with
  | nil => rw [List.append_nil, splitAt, List.tail_cons, List.append_nil]
  | cons c rest =>
    obtain rfl := Option.some.inj (hu.resolve_left (List.cons_ne_nil _ _))
    rw [splitAt_append_cons, splitAt, if_pos rfl, List.tail_cons]

theorem splitAt_of_not_mem (h : separator ∉ t) : splitAt separator t = [t] := by
  induction t with
  | nil => rfl
  | cons c rest ih =>
    simp only [List.mem_cons, not_or] at h
    rw [splitAt, if_neg (Ne.symm h.1), ih h.2]
    rfl

theorem join_cons {pieces : List Text} (h : pieces ≠ []) (mark t : Text) :
    join mark (t :: pieces) = t ++ (mark ++ join mark pieces) := by
  cases pieces with
  | nil => exact absurd rfl h
  | cons next rest => exact List.append_assoc t mark _

/-- Texts that are free of the separator are the pieces of what they are joined to. -/
theorem splitAt_join {pieces : List Text} (h : pieces ≠ [])
    (hpieces : ∀ piece ∈ pieces, separator ∉ piece) :
    splitAt separator (join [separator] pieces) = pieces := by
  induction pieces with
  | nil => exact absurd rfl h
  | cons piece rest ih =>
    have hpiece := splitAt_of_not_mem (hpieces piece List.mem_cons_self)
    cases rest with
    | nil => exact hpiece
    | cons next rest =>
      have hnext := List.cons_ne_nil next rest
      rw [join_cons hnext, List.singleton_append, splitAt_append_cons, hpiece,
        ih hnext fun other hmem ↦ hpieces other (List.mem_cons_of_mem _ hmem)]
      rfl

theorem occursIn_singleton : occursIn [separator] t = false ↔ separator ∉ t := by
  rw [Bool.eq_false_iff, Ne, occursIn_iff]
  refine not_congr ⟨fun h ↦ h.subset List.mem_cons_self, fun h ↦ ?_⟩
  obtain ⟨front, back, rfl⟩ := List.append_of_mem h
  exact ⟨front, back, by simp⟩

/-! ### Parts of a text -/

theorem prefix_of_prefix_append_cons (hc : c ∉ p) (h : p <+: t ++ c :: u) : p <+: t := by
  rcases List.prefix_or_prefix_of_prefix h (List.prefix_append t _) with hp | ⟨q, rfl⟩
  · exact hp
  · rw [List.prefix_append_right_inj] at h
    cases q with
    | nil => exact (List.append_nil t).symm ▸ List.prefix_refl t
    | cons x q =>
      obtain rfl := (List.cons_prefix_cons.mp h).1
      exact absurd (List.mem_append_right t List.mem_cons_self) hc

theorem prefix_of_prefix_append (hc : c ∉ u) (h : p ++ [c] <+: t ++ u) : p ++ [c] <+: t := by
  rcases List.prefix_or_prefix_of_prefix h (List.prefix_append t u) with hp | ⟨q, hq⟩
  · exact hp
  · rcases List.eq_nil_or_concat q with rfl | ⟨q, x, rfl⟩
    · rw [List.append_nil] at hq
      exact hq ▸ List.prefix_rfl
    · rw [List.concat_eq_append, ← List.append_assoc] at hq
      obtain ⟨-, hx⟩ := List.append_inj' hq rfl
      rw [← hq, List.append_assoc, List.prefix_append_right_inj] at h
      exact absurd (h.subset (by simp [hx])) hc

/-- A part that begins with a character which the front does not hold lies behind the front. -/
theorem infix_of_infix_append (hc : c ∉ t) (h : c :: p <:+: t ++ u) : c :: p <:+: u := by
  induction t with
  | nil => exact h
  | cons x t ih =>
    rw [List.cons_append, List.infix_cons_iff] at h
    rcases h with h | h
    · exact absurd (List.cons_prefix_cons.mp h).1 fun he ↦ hc (he ▸ List.mem_cons_self)
    · exact ih (fun hmem ↦ hc (List.mem_cons_of_mem _ hmem)) h

/-! ### Cutting -/

theorem cut?_append_cons (h : separator ∉ t) (u : Text) :
    cut? separator (t ++ separator :: u) = some (t, u) := by
  induction t with
  | nil => exact if_pos rfl
  | cons c rest ih =>
    rw [List.mem_cons, not_or] at h
    rw [List.cons_append, cut?, if_neg (Ne.symm h.1), ih h.2]
    rfl

theorem not_mem_of_cut? {before after : Text} (h : cut? separator t = some (before, after)) :
    separator ∉ before := by
  induction t generalizing before after with
  | nil => cases h
  | cons c rest ih =>
    rw [cut?] at h
    split at h
    next =>
      cases h
      exact List.not_mem_nil
    next hc =>
      obtain ⟨⟨first, second⟩, hcut, hp⟩ := Option.map_eq_some_iff.mp h
      cases hp
      rw [List.mem_cons, not_or]
      exact ⟨Ne.symm hc, ih hcut⟩

theorem splitAt_induction {motive : Text → Prop} (separator : Char)
    (whole : ∀ t, separator ∉ t → motive t)
    (cut : ∀ t u, separator ∉ t → motive u → motive (t ++ separator :: u)) (t : Text) :
    motive t := by
  induction hl : t.length using Nat.strongRecOn generalizing t with
  | ind length ih =>
    subst hl
    by_cases hmem : separator ∈ t
    · obtain ⟨before, after, rfl, hbefore⟩ := List.eq_append_cons_of_mem hmem
      refine cut before after hbefore (ih after.length ?_ after rfl)
      simp only [List.length_append, List.length_cons]
      omega
    · exact whole t hmem

theorem infix_of_mem_splitAt (h : piece ∈ splitAt separator t) : piece <:+: t := by
  refine splitAt_induction (motive := fun t ↦ ∀ piece ∈ splitAt separator t, piece <:+: t)
    separator ?_ ?_ t piece h
  · intro t ht piece hpiece
    rw [splitAt_of_not_mem ht, List.mem_singleton] at hpiece
    exact hpiece ▸ List.infix_refl _
  · intro t u ht ih piece hpiece
    rw [splitAt_append_cons, splitAt_of_not_mem ht, List.mem_append, List.mem_singleton] at hpiece
    rcases hpiece with rfl | hpiece
    · exact (List.prefix_append _ _).isInfix
    · exact (ih piece hpiece).trans ((List.suffix_cons _ _).trans (List.suffix_append _ _)).isInfix

theorem prefix_of_splitAt (h : splitAt separator t <+: splitAt separator u) :
    t ++ [separator] <+: u ++ [separator] := by
  refine splitAt_induction (motive := fun t ↦ ∀ u, splitAt separator t <+: splitAt separator u →
    t ++ [separator] <+: u ++ [separator]) separator (fun t ht u h ↦ ?_)
    (fun t rest ht ih u h ↦ ?_) t u h
  · rw [splitAt_of_not_mem ht] at h
    by_cases hu : separator ∈ u
    · obtain ⟨first, more, rfl, hfirst⟩ := List.eq_append_cons_of_mem hu
      rw [splitAt_append_cons, splitAt_of_not_mem hfirst, List.singleton_append,
        List.cons_prefix_cons] at h
      exact ⟨more ++ [separator], by simp [h.1]⟩
    · rw [splitAt_of_not_mem hu, List.cons_prefix_cons] at h
      exact h.1 ▸ List.prefix_rfl
  · rw [splitAt_append_cons, splitAt_of_not_mem ht, List.singleton_append] at h
    by_cases hu : separator ∈ u
    · obtain ⟨first, more, rfl, hfirst⟩ := List.eq_append_cons_of_mem hu
      rw [splitAt_append_cons, splitAt_of_not_mem hfirst, List.singleton_append,
        List.cons_prefix_cons] at h
      obtain ⟨rfl, hmore⟩ := h
      rw [List.append_assoc, List.append_assoc, List.prefix_append_right_inj]
      exact List.cons_prefix_cons.mpr ⟨rfl, ih more hmore⟩
    · rw [splitAt_of_not_mem hu, List.cons_prefix_cons] at h
      exact absurd (List.prefix_nil.mp h.2) (splitAt_ne_nil separator rest)

/-- The pieces of a text come first among those of another one if the text does, up to a separator
or to the end. -/
theorem splitAt_prefix_iff :
    splitAt separator t <+: splitAt separator u ↔ t ++ [separator] <+: u ++ [separator] := by
  refine ⟨prefix_of_splitAt, fun ⟨more, hmore⟩ ↦ ?_⟩
  rcases List.eq_nil_or_concat more with rfl | ⟨more, last, rfl⟩
  · rw [List.append_nil] at hmore
    exact List.append_cancel_right hmore ▸ List.prefix_rfl
  · rw [List.concat_eq_append, ← List.append_assoc] at hmore
    obtain ⟨rfl, -⟩ := List.append_inj' hmore rfl
    rw [List.append_assoc, List.singleton_append, splitAt_append_cons]
    exact List.prefix_append _ _

theorem splitAt_inj : splitAt separator t = splitAt separator u ↔ t = u := by
  refine ⟨fun h ↦ ?_, congrArg _⟩
  have hforth : t ++ [separator] <+: u ++ [separator] := prefix_of_splitAt (h ▸ List.prefix_rfl)
  have hback : u ++ [separator] <+: t ++ [separator] := prefix_of_splitAt (h ▸ List.prefix_rfl)
  exact List.append_cancel_right (hforth.eq_of_length_le hback.length_le)

theorem not_mem_of_cutLast?_eq_none (h : cutLast? separator t = none) : separator ∉ t := by
  induction t with
  | nil => exact List.not_mem_nil
  | cons c rest ih =>
    rw [cutLast?] at h
    split at h
    next => cases h
    next hrest =>
      split at h
      next => cases h
      next hc =>
        rw [List.mem_cons, not_or]
        exact ⟨Ne.symm hc, ih hrest⟩

/-- What comes after the last occurrence of a character does not hold it. -/
theorem not_mem_of_cutLast? {before after : Text}
    (h : cutLast? separator t = some (before, after)) : separator ∉ after := by
  induction t generalizing before with
  | nil => cases h
  | cons c rest ih =>
    rw [cutLast?] at h
    split at h
    next hrest =>
      cases h
      exact ih hrest
    next hrest =>
      split at h
      next =>
        cases h
        exact not_mem_of_cutLast?_eq_none hrest
      next => cases h

theorem eq_append_of_cutLast? {before after : Text}
    (h : cutLast? separator t = some (before, after)) : t = before ++ separator :: after := by
  induction t generalizing before with
  | nil => cases h
  | cons c rest ih =>
    rw [cutLast?] at h
    split at h
    next hrest =>
      cases h
      exact congrArg (c :: ·) (ih hrest)
    next =>
      split at h
      next hc =>
        cases h
        rw [hc, List.nil_append]
      next => cases h

theorem cutLast?_of_not_mem (h : separator ∉ t) : cutLast? separator t = none := by
  cases hcut : cutLast? separator t with
  | none => rfl
  | some cut =>
    rw [eq_append_of_cutLast? hcut] at h
    exact absurd (List.mem_append_right _ List.mem_cons_self) h

theorem cutLast?_append_cons (h : separator ∉ u) (t : Text) :
    cutLast? separator (t ++ separator :: u) = some (t, u) := by
  induction t with
  | nil => rw [List.nil_append, cutLast?, cutLast?_of_not_mem h, if_pos rfl]
  | cons c rest ih => rw [List.cons_append, cutLast?, ih]

/-! ### Longer separators -/

theorem splitOn_singleton (separator : Char) (t : Text) :
    splitOn [separator] t = splitAt separator t := by
  rw [splitOn]
  induction t with
  | nil => rfl
  | cons c rest ih =>
    have hprefix : [separator].isPrefixOf (c :: rest) = (separator == c) := Bool.and_true _
    rw [splitAfter, splitAt, hprefix]
    by_cases hc : c = separator
    · rw [if_pos hc, if_pos (by simp [hc])]
      exact congrArg ([] :: ·) ih
    · rw [if_neg hc, if_neg (by simpa using Ne.symm hc), ih]

theorem splitAfter_append (mark front t : Text) :
    splitAfter mark front.length (front ++ t) = splitOn mark t := by
  induction front with
  | nil => rfl
  | cons c front ih => exact ih

theorem splitOn_ne_nil (mark t : Text) : splitOn mark t ≠ [] := by
  rw [splitOn]
  cases t with
  | nil => exact List.cons_ne_nil _ _
  | cons c rest =>
    rw [splitAfter]
    split
    · exact List.cons_ne_nil _ _
    · exact consHead_ne_nil c _

theorem consHead_append (c : Char) {pieces : List Text} (h : pieces ≠ []) (more : List Text) :
    consHead c (pieces ++ more) = consHead c pieces ++ more := by
  cases pieces with
  | nil => exact absurd rfl h
  | cons first rest => rfl

theorem splitAfter_ne_nil (mark : Text) (skip : Nat) (t : Text) : splitAfter mark skip t ≠ [] := by
  induction t generalizing skip with
  | nil => cases skip <;> exact List.cons_ne_nil _ _
  | cons c rest ih =>
    cases skip with
    | succ skip => exact ih skip
    | zero => exact splitOn_ne_nil mark (c :: rest)

/-- No separator begins in the text and ends in another one that comes right after the text. -/
def Unbroken (mark t : Text) : Prop := ∀ w, w <:+ t → w ≠ [] → mark <+: w ++ mark → mark <+: w

theorem splitOn_append {mark : Text} (hmark : mark ≠ []) (h : Unbroken mark t) (u : Text) :
    splitOn mark (t ++ (mark ++ u)) = splitOn mark t ++ splitOn mark u := by
  have hcut : ∀ skip ≤ t.length, splitAfter mark skip (t ++ (mark ++ u)) =
      splitAfter mark skip t ++ splitOn mark u := by
    induction t with
    | nil =>
      intro skip hskip
      obtain rfl := Nat.le_zero.mp hskip
      cases mark with
      | nil => exact absurd rfl hmark
      | cons x mark =>
        have hprefix : (x :: mark).isPrefixOf (x :: (mark ++ u)) = true :=
          List.isPrefixOf_iff_prefix.mpr (List.prefix_append _ _)
        have hfirst : splitAfter (x :: mark) 0 (x :: (mark ++ u)) =
            [] :: splitOn (x :: mark) u := by
          rw [splitAfter, if_pos hprefix]
          exact congrArg ([] :: ·) (splitAfter_append (x :: mark) mark u)
        exact hfirst
    | cons c rest ih =>
      have hrest := ih fun w hw ↦ h w (hw.trans (List.suffix_cons _ _))
      intro skip hskip
      cases skip with
      | succ skip => exact hrest skip (Nat.le_of_succ_le_succ hskip)
      | zero =>
        have hsame : mark <+: c :: (rest ++ (mark ++ u)) ↔ mark <+: c :: rest := by
          refine ⟨fun hp ↦ h _ List.suffix_rfl (List.cons_ne_nil _ _) ?_, fun hp ↦
            hp.trans (List.prefix_append (c :: rest) _)⟩
          rw [← List.cons_append, ← List.append_assoc] at hp
          refine List.prefix_of_prefix_length_le hp (List.prefix_append _ _) ?_
          rw [List.length_append]
          exact Nat.le_add_left _ _
        rw [List.cons_append, splitAfter, splitAfter]
        by_cases hp : mark <+: c :: rest
        · rw [if_pos (List.isPrefixOf_iff_prefix.mpr (hsame.mpr hp)),
            if_pos (List.isPrefixOf_iff_prefix.mpr hp), hrest _ ?_]
          · rfl
          · have hlength := hp.length_le
            rw [List.length_cons] at hlength
            omega
        · rw [if_neg (mt List.isPrefixOf_iff_prefix.mp (mt hsame.mp hp)),
            if_neg (mt List.isPrefixOf_iff_prefix.mp hp), hrest 0 (Nat.zero_le _),
            consHead_append c (splitAfter_ne_nil mark 0 rest)]
  exact hcut 0 (Nat.zero_le _)

theorem splitOn_append_of_prefix {mark : Text} (hmark : mark ≠ []) (h : Unbroken mark t)
    (hu : u = [] ∨ mark <+: u) :
    splitOn mark (t ++ u) = splitOn mark t ++ (splitOn mark u).tail := by
  rcases hu with rfl | ⟨rest, rfl⟩
  · rw [List.append_nil]
    exact (List.append_nil _).symm
  · have hfirst : splitOn mark (mark ++ rest) = [] :: splitOn mark rest :=
      splitOn_append (t := []) hmark (fun w hw hne ↦ absurd (List.suffix_nil.mp hw) hne) rest
    rw [splitOn_append hmark h, hfirst, List.tail_cons]

/-! ### Pieces without outer blanks -/

/-- The pieces of a text, each without blanks at its ends. -/
def bareFields (t : Text) : List Text := (splitAt ',' t).map (trim isBlank)

theorem bareFields_append_cons (t u : Text) :
    bareFields (t ++ ',' :: u) = bareFields t ++ bareFields u := by
  rw [bareFields, splitAt_append_cons, List.map_append, bareFields, bareFields]

theorem bareFields_cons_blank (h : isBlank c = true) (hc : c ≠ ',') (t : Text) :
    bareFields (c :: t) = bareFields t := by
  rw [bareFields, bareFields, splitAt, if_neg hc]
  cases hs : splitAt ',' t with
  | nil => exact absurd hs (splitAt_ne_nil ',' t)
  | cons first pieces =>
    have hfirst : trim isBlank (c :: first) = trim isBlank first := by
      rw [trim, trimLeft, List.dropWhile_cons_of_pos h, trim, trimLeft]
    rw [consHead, List.map_cons, List.map_cons, hfirst]

/-- The pieces of texts that are joined by commas are the pieces of these texts. -/
theorem bareFields_join {ts : List Text} (h : ts ≠ []) :
    bareFields (join ", " ts) = ts.flatMap bareFields := by
  induction ts with
  | nil => exact absurd rfl h
  | cons t rest ih =>
    cases rest with
    | nil => simp [join]
    | cons u rest =>
      have hjoin : join ", " (t :: u :: rest) = t ++ ',' :: ' ' :: join ", " (u :: rest) :=
        join_cons (List.cons_ne_nil u rest) ", ".toList t
      rw [hjoin, bareFields_append_cons, bareFields_cons_blank (by decide) (by decide),
        ih (List.cons_ne_nil _ _)]
      exact List.flatMap_cons.symm

theorem endsWith_singleton (t : Text) (c : Char) : endsWith t [c] = (t.getLast? == some c) := by
  rw [Bool.eq_iff_iff, endsWith_iff, beq_iff_eq, List.getLast?_eq_some_iff]
  exact ⟨fun ⟨front, h⟩ ↦ ⟨front, h.symm⟩, fun ⟨front, h⟩ ↦ ⟨front, h.symm⟩⟩

end UrlRouting.Text

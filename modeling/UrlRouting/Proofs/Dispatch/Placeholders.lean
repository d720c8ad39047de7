import UrlRouting.Proofs.Dispatch.Filling

/-!
The placeholders of a target: the name of a variable in angle brackets, in braces or behind a colon.
A text is read into pieces, each of them a placeholder or a character outside of all placeholders;
behind a colon the longest identifier is the name. Placeholders do not overlap, as each of their
opening marks stands in front of an identifier, which holds none.
-/

namespace UrlRouting.Target

open Text

variable {t u v w p name : Text} {c : Char}

/-! ### Identifiers at the beginning of a text -/

/-- The longest identifier that a text begins with, empty if it begins with none. -/
def identifierAt : Text → Text
  | [] => []
  | c :: rest => if isNameStart c then c :: rest.takeWhile isNameContinue else []

theorem identifierAt_prefix (t : Text) : identifierAt t <+: t := by
  cases t with
  | nil => exact List.nil_prefix
  | cons c rest =>
    rw [identifierAt]
    split
    · exact List.cons_prefix_cons.mpr ⟨rfl, List.takeWhile_prefix _⟩
    · exact List.nil_prefix

theorem isIdentifier_identifierAt (h : identifierAt t ≠ []) :
    isIdentifier (identifierAt t) = true := by
  cases t with
  | nil => exact absurd rfl h
  | cons c rest =>
    rw [identifierAt] at h ⊢
    split at h
    next hc => simp [isIdentifier, hc]
    next => exact absurd rfl h

theorem prefix_identifierAt (hname : isIdentifier name = true) (h : name <+: t) :
    name <+: identifierAt t := by
  obtain ⟨back, rfl⟩ := h
  cases name with
  | nil => cases hname
  | cons c rest =>
    rw [isIdentifier, Bool.and_eq_true, List.all_eq_true] at hname
    rw [List.cons_append, identifierAt, if_pos hname.1, List.takeWhile_append_of_pos hname.2]
    exact List.cons_prefix_cons.mpr ⟨rfl, List.prefix_append _ _⟩

theorem identifierAt_append_cons (hname : isIdentifier name = true)
    (hc : isNameContinue c = false) (t : Text) : identifierAt (name ++ c :: t) = name := by
  cases name with
  | nil => cases hname
  | cons d rest =>
    rw [isIdentifier, Bool.and_eq_true, List.all_eq_true] at hname
    rw [List.cons_append, identifierAt, if_pos hname.1, List.takeWhile_append_of_pos hname.2,
      List.takeWhile_cons_of_neg (by simp [hc]), List.append_nil]

/-! ### Placeholders -/

/-- The placeholders of a variable, in the order in which they are filled. -/
def placeholders (name : Text) : List Text :=
  ['<' :: name ++ ['>'], '\x7b' :: name ++ ['\x7d'], ':' :: name]

def IsPlaceholder (w : Text) : Prop := ∃ name, isIdentifier name = true ∧ w ∈ placeholders name

/-- The characters that a placeholder begins with. -/
def openers : List Char := ['<', '\x7b', ':']

/-- A placeholder has one opening mark, its first character. -/
theorem IsPlaceholder.eq_cons (h : IsPlaceholder w) :
    ∃ c rest, w = c :: rest ∧ c ∈ openers ∧ ∀ d ∈ rest, d ∉ openers := by
  obtain ⟨name, hname, hw⟩ := h
  have hopeners : ∀ c ∈ openers, isNameStart c = false ∧ isNameContinue c = false := by decide
  have hspare : ∀ d ∈ name, d ∉ openers := by
    intro d hd hmem
    exact not_mem_of_isIdentifier hname (hopeners d hmem) hd
  have hclosed : ∀ last, last ∉ openers → ∀ d ∈ name ++ [last], d ∉ openers := by
    intro last hlast d hd
    rcases List.mem_append.mp hd with hd | hd
    · exact hspare d hd
    · rwa [List.mem_singleton.mp hd]
  simp only [placeholders, List.mem_cons, List.not_mem_nil, or_false] at hw
  rcases hw with rfl | rfl | rfl
  · exact ⟨_, _, rfl, by decide, hclosed _ (by decide)⟩
  · exact ⟨_, _, rfl, by decide, hclosed _ (by decide)⟩
  · exact ⟨_, _, rfl, by decide, hspare⟩

theorem IsPlaceholder.ne_nil (h : IsPlaceholder w) : w ≠ [] := by
  obtain ⟨c, rest, rfl, -⟩ := h.eq_cons
  exact List.cons_ne_nil _ _

/-- The placeholders of one name differ in their first characters. -/
theorem eq_of_mem_placeholders (hp : p ∈ placeholders name) (hw : w ∈ placeholders name)
    (h : p.head? = w.head?) : p = w := by
  simp only [placeholders, List.mem_cons, List.not_mem_nil, or_false] at hp hw
  rcases hp with rfl | rfl | rfl <;> rcases hw with rfl | rfl | rfl <;>
    first
    | rfl
    | exact absurd h (by simp)

/-- The placeholder that a text begins with. -/
def placeholderAt? (t : Text) : Option Text :=
  (placeholders (identifierAt t.tail)).find? fun w ↦
    isIdentifier (identifierAt t.tail) && w.isPrefixOf t

theorem placeholderAt?_eq_some (h : placeholderAt? t = some w) : IsPlaceholder w ∧ w <+: t := by
  have hfound := List.find?_some h
  rw [Bool.and_eq_true] at hfound
  exact ⟨⟨_, hfound.1, List.mem_of_find?_eq_some h⟩, List.isPrefixOf_iff_prefix.mp hfound.2⟩

/-- Behind the opening mark of a placeholder stands an identifier, and a placeholder of the longest
one there begins with the given one. -/
theorem exists_longest (hname : isIdentifier name = true) (hp : p ∈ placeholders name)
    (h : p <+: t) : isIdentifier (identifierAt t.tail) = true ∧
      ∃ w ∈ placeholders (identifierAt t.tail), w <+: t ∧ p <+: w := by
  have hbracket (first last : Char) (hlast : isNameContinue last = false)
      (h : first :: name ++ [last] <+: t) : identifierAt t.tail = name := by
    obtain ⟨back, rfl⟩ := h
    rw [List.append_assoc]
    exact identifierAt_append_cons hname hlast _
  simp only [placeholders, List.mem_cons, List.not_mem_nil, or_false] at hp
  rcases hp with rfl | rfl | rfl
  · rw [hbracket _ _ (by decide) h]
    exact ⟨hname, _, by simp [placeholders], h, List.prefix_refl _⟩
  · rw [hbracket _ _ (by decide) h]
    exact ⟨hname, _, by simp [placeholders], h, List.prefix_refl _⟩
  · obtain ⟨back, rfl⟩ := h
    have hlong := prefix_identifierAt hname (List.prefix_append name back)
    refine ⟨isIdentifier_identifierAt ?_, ':' :: identifierAt (name ++ back), ?_, ?_, ?_⟩
    · intro hempty
      rw [List.cons_append, List.tail_cons] at hempty
      rw [hempty, List.prefix_nil] at hlong
      rw [hlong] at hname
      cases hname
    · simp [placeholders]
    · exact List.cons_prefix_cons.mpr ⟨rfl, identifierAt_prefix _⟩
    · exact List.cons_prefix_cons.mpr ⟨rfl, hlong⟩

/-- Where a placeholder stands, the text begins with it or with a longer one. -/
theorem exists_placeholderAt? (hp : IsPlaceholder p) (h : p <+: t) :
    ∃ w, placeholderAt? t = some w ∧ p <+: w := by
  obtain ⟨name, hname, hmem⟩ := hp
  obtain ⟨hlongest, w, hw, hwt, hpw⟩ := exists_longest hname hmem h
  cases hfound : placeholderAt? t with
  | none =>
    have hnone := List.find?_eq_none.mp hfound w hw
    rw [hlongest, Bool.true_and, List.isPrefixOf_iff_prefix] at hnone
    exact absurd hwt hnone
  | some w' =>
    obtain ⟨hw', hbegins⟩ := placeholderAt?_eq_some hfound
    have hhead : ∀ v, v ≠ [] → v <+: t → v.head? = t.head? := by
      rintro v hv ⟨back, rfl⟩
      rw [List.head?_append, Option.or_of_isSome (List.isSome_head?.mpr hv)]
    have hne : w ≠ [] := IsPlaceholder.ne_nil ⟨_, hlongest, hw⟩
    have hsame : w'.head? = w.head? :=
      (hhead w' hw'.ne_nil hbegins).trans (hhead w hne hwt).symm
    cases eq_of_mem_placeholders (List.mem_of_find?_eq_some hfound) hw hsame
    exact ⟨_, rfl, hpw⟩

/-! ### Pieces -/

inductive Piece where
  | char (c : Char)
  | slot (placeholder : Text)
deriving DecidableEq

def Piece.text : Piece → Text
  | .char c => [c]
  | .slot w => w

def render (ps : List Piece) : Text := ps.flatMap Piece.text

/-- The pieces of a text, after `skip` characters of the placeholder at hand. -/
def piecesAfter : Nat → Text → List Piece
  | _, [] => []
  | skip + 1, _ :: rest => piecesAfter skip rest
  | 0, c :: rest =>
    match placeholderAt? (c :: rest) with
    | some w => .slot w :: piecesAfter (w.length - 1) rest
    | none => .char c :: piecesAfter 0 rest

def pieces (t : Text) : List Piece := piecesAfter 0 t

theorem piecesAfter_append (u t : Text) : piecesAfter u.length (u ++ t) = pieces t := by
  induction u with
  | nil => rfl
  | cons c rest ih => exact ih

theorem pieces_slot (h : placeholderAt? (w ++ t) = some w) :
    pieces (w ++ t) = .slot w :: pieces t := by
  obtain ⟨c, rest, rfl, -⟩ := (placeholderAt?_eq_some h).1.eq_cons
  rw [pieces, List.cons_append, piecesAfter, ← List.cons_append, h]
  exact congrArg _ (piecesAfter_append rest t)

theorem pieces_char (h : placeholderAt? (c :: t) = none) :
    pieces (c :: t) = .char c :: pieces t := by
  rw [pieces, piecesAfter, h, pieces]

theorem pieces_induction {motive : Text → List Piece → Prop} (nil : motive [] [])
    (slot : ∀ w t, placeholderAt? (w ++ t) = some w → motive t (pieces t) →
      motive (w ++ t) (.slot w :: pieces t))
    (char : ∀ c t, placeholderAt? (c :: t) = none → motive t (pieces t) →
      motive (c :: t) (.char c :: pieces t)) (t : Text) : motive t (pieces t) := by
  induction hl : t.length using Nat.strongRecOn generalizing t with
  | ind length ih =>
    subst hl
    cases t with
    | nil => exact nil
    | cons c rest =>
      cases hw : placeholderAt? (c :: rest) with
      | none =>
        rw [pieces_char hw]
        exact char c rest hw (ih _ (Nat.lt_succ_self _) rest rfl)
      | some w =>
        obtain ⟨hplaceholder, after, hafter⟩ := placeholderAt?_eq_some hw
        have hpos : 0 < w.length := List.length_pos_iff.mpr hplaceholder.ne_nil
        have hlength := congrArg List.length hafter
        rw [List.length_append] at hlength
        rw [← hafter] at hw ⊢
        rw [pieces_slot hw]
        exact slot w after hw (ih _ (by omega) after rfl)

/-- The pieces of a text make up the text. -/
theorem render_pieces (t : Text) : render (pieces t) = t := by
  refine pieces_induction (motive := fun t ps ↦ render ps = t) rfl ?_ ?_ t
  · intro w t _ ih
    exact congrArg (w ++ ·) ih
  · intro c t _ ih
    exact congrArg (c :: ·) ih

theorem isPlaceholder_of_slot (h : .slot w ∈ pieces t) : IsPlaceholder w := by
  refine pieces_induction (motive := fun _ ps ↦ ∀ w, .slot w ∈ ps → IsPlaceholder w) ?_ ?_ ?_ t w h
  · intro w h
    cases h
  · intro w t hw ih v hv
    rcases List.mem_cons.mp hv with hv | hv
    · cases hv
      exact (placeholderAt?_eq_some hw).1
    · exact ih v hv
  · intro c t _ ih v hv
    rcases List.mem_cons.mp hv with hv | hv
    · cases hv
    · exact ih v hv

end UrlRouting.Target

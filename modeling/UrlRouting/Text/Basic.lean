/-!
Text is a list of characters, so that rules, URLs and targets can be read and rebuilt by recursion.
This module holds the searching, cutting and joining that the rest of the library is written in.
-/

namespace UrlRouting

abbrev Text := List Char

/-- A string literal stands for its characters wherever text is expected. -/
instance : Coe String Text := ⟨String.toList⟩

namespace Text

/-! ### Searching -/

/-- `part` stands somewhere in the text, as one unbroken piece. -/
def occursIn (part : Text) : Text → Bool
  | [] => part.isEmpty
  | c :: rest => part.isPrefixOf (c :: rest) || occursIn part rest

def startsWith (t part : Text) : Bool := part.isPrefixOf t

def endsWith (t part : Text) : Bool := part.isSuffixOf t

theorem startsWith_iff {t part : Text} : startsWith t part = true ↔ part <+: t :=
  List.isPrefixOf_iff_prefix

theorem endsWith_iff {t part : Text} : endsWith t part = true ↔ part <:+ t :=
  List.isSuffixOf_iff_suffix

theorem occursIn_iff {part t : Text} : occursIn part t = true ↔ part <:+: t := by
  induction t with
  | nil => simp [occursIn]
  | cons c rest ih =>
    rw [occursIn, Bool.or_eq_true, ih, List.isPrefixOf_iff_prefix, List.infix_cons_iff]

/-! ### Trimming -/

def trimLeft (p : Char → Bool) (t : Text) : Text := t.dropWhile p

def trimRight (p : Char → Bool) (t : Text) : Text := (t.reverse.dropWhile p).reverse

def trim (p : Char → Bool) (t : Text) : Text := trimRight p (trimLeft p t)

/-! ### Cutting and joining -/

def consHead (c : Char) : List Text → List Text
  | [] => [[c]]
  | piece :: pieces => (c :: piece) :: pieces

def splitAt (separator : Char) : Text → List Text
  | [] => [[]]
  | c :: rest =>
    if c = separator then [] :: splitAt separator rest else consHead c (splitAt separator rest)

/-- The pieces between the occurrences of `separator`, found from the left without overlap, after
`skip` characters of the occurrence at hand. -/
def splitAfter (separator : Text) : Nat → Text → List Text
  | _, [] => [[]]
  | skip + 1, _ :: rest => splitAfter separator skip rest
  | 0, c :: rest =>
    if separator.isPrefixOf (c :: rest) then
      [] :: splitAfter separator (separator.length - 1) rest
    else
      consHead c (splitAfter separator 0 rest)

def splitOn (separator t : Text) : List Text := splitAfter separator 0 t

/-- Replaces the occurrences of `old`, found from the left without overlap, after `skip` characters
of the occurrence at hand. -/
def replaceAfter (old new : Text) : Nat → Text → Text
  | _, [] => []
  | skip + 1, _ :: rest => replaceAfter old new skip rest
  | 0, c :: rest =>
    if old.isPrefixOf (c :: rest) then
      new ++ replaceAfter old new (old.length - 1) rest
    else
      c :: replaceAfter old new 0 rest

/-- Replaces every occurrence of a text that is not empty; what is put in is not looked at
again. -/
def replace (old new t : Text) : Text := replaceAfter old new 0 t

def replaceChar (old : Char) (new t : Text) : Text :=
  t.flatMap fun c ↦ if c = old then new else [c]

def cut? (separator : Char) : Text → Option (Text × Text)
  | [] => none
  | c :: rest =>
    if c = separator then some ([], rest)
    else (cut? separator rest).map fun (before, after) ↦ (c :: before, after)

def cutLast? (separator : Char) : Text → Option (Text × Text)
  | [] => none
  | c :: rest =>
    match cutLast? separator rest with
    | some (before, after) => some (c :: before, after)
    | none => if c = separator then some ([], rest) else none

/-- The texts one after the other, with `separator` between neighbours. -/
def join (separator : Text) : List Text → Text
  | [] => []
  | [t] => t
  | t :: rest => t ++ separator ++ join separator rest

theorem consHead_ne_nil (c : Char) (pieces : List Text) : consHead c pieces ≠ [] := by
  cases pieces <;> simp [consHead]

theorem splitAt_ne_nil (separator : Char) (t : Text) : splitAt separator t ≠ [] := by
  cases t with
  | nil => simp [splitAt]
  | cons c rest =>
    rw [splitAt]
    split
    · simp
    · exact consHead_ne_nil c _

theorem join_consHead (separator : Text) (c : Char) {pieces : List Text} (h : pieces ≠ []) :
    join separator (consHead c pieces) = c :: join separator pieces := by
  match pieces with
  | [] => exact absurd rfl h
  | [_] => simp [consHead, join]
  | _ :: _ :: _ => simp [consHead, join]

theorem join_splitAt (separator : Char) (t : Text) :
    join [separator] (splitAt separator t) = t := by
  induction t with
  | nil => simp [splitAt, join]
  | cons c rest ih =>
    rw [splitAt]
    split
    next h =>
      subst h
      cases hs : splitAt c rest with
      | nil => exact absurd hs (splitAt_ne_nil c rest)
      | cons piece pieces => rw [join, ← hs, ih] <;> simp
    next => rw [join_consHead _ _ (splitAt_ne_nil separator rest), ih]

theorem not_mem_of_mem_splitAt {separator : Char} {t piece : Text}
    (h : piece ∈ splitAt separator t) : separator ∉ piece := by
  induction t generalizing piece with
  | nil => simp_all [splitAt]
  | cons c rest ih =>
    rw [splitAt] at h
    split at h
    next =>
      rcases List.mem_cons.1 h with rfl | h
      · simp
      · exact ih h
    next hc =>
      cases hs : splitAt separator rest with
      | nil => exact absurd hs (splitAt_ne_nil separator rest)
      | cons first pieces =>
        rw [hs, consHead] at h
        rcases List.mem_cons.1 h with rfl | h
        · have hfirst : separator ∉ first := ih (by simp [hs])
          simp [hfirst, Ne.symm hc]
        · exact ih (by simp [hs, h])

theorem eq_append_of_cut? {separator : Char} {t before after : Text}
    (h : cut? separator t = some (before, after)) : t = before ++ separator :: after := by
  induction t generalizing before after with
  | nil => simp [cut?] at h
  | cons c rest ih =>
    rw [cut?] at h
    split at h
    next hc => simp_all
    next =>
      obtain ⟨⟨first, second⟩, hcut, hp⟩ := Option.map_eq_some_iff.1 h
      simp only [Prod.mk.injEq] at hp
      rw [← hp.1, ← hp.2, List.cons_append, ← ih hcut]

theorem cut?_eq_none_iff {separator : Char} {t : Text} :
    cut? separator t = none ↔ separator ∉ t := by
  induction t with
  | nil => simp [cut?]
  | cons c rest ih =>
    rw [cut?]
    split
    next h => simp [h]
    next h => simp [ih, Ne.symm h]

/-! ### Numerals -/

def ofNat (n : Nat) : Text := Nat.toDigits 10 n

def ofInt : Int → Text
  | .ofNat n => ofNat n
  | .negSucc n => '-' :: ofNat (n + 1)

end Text

end UrlRouting

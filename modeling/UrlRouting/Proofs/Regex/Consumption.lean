import Mathlib.Data.List.TakeWhile
import UrlRouting.Proofs.Regex.Names
import UrlRouting.Proofs.Text.Split

/-!
How far a reader of the notation gets. Over a closing parenthesis it passes only if the parenthesis
is escaped, stands in a set, or ends what is being read; so that from any text that ends in a
parenthesis and a tail, the reader comes to the beginning of the tail (`Lands`), if the tail does
not end what has been begun before it (`Sealed`).
-/

namespace UrlRouting.Regex.Token

variable {modes modes' inner : Modes} {outer outer' : List Modes} {t u rest front tail : Text}
  {c z : Char} {token : Token} {tokens : List Token} {item : SetItem} {items items' : List SetItem}
  {value code missing fuel : Nat} {name : Text} {asciiOnly : Bool}
  {bounds : Option Nat × Option Nat} {parenthesis : Parenthesis}

/-! ### Without a parenthesis -/

/-- The second text is the first one without some characters before it, of which none is a closing
parenthesis. -/
def Clears (t rest : Text) : Prop := ∃ front, t = front ++ rest ∧ ')' ∉ front

namespace Clears

theorem refl (t : Text) : Clears t t := ⟨[], rfl, nofun⟩

theorem of_not_mem (front : Text) (h : ')' ∉ front) (rest : Text) : Clears (front ++ rest) rest :=
  ⟨front, rfl, h⟩

theorem cons (h : Clears t rest) (hc : c ≠ ')') : Clears (c :: t) rest := by
  obtain ⟨front, rfl, hfront⟩ := h
  exact ⟨c :: front, rfl, by simp [hfront, Ne.symm hc]⟩

theorem trans (h : Clears t u) (h' : Clears u rest) : Clears t rest := by
  obtain ⟨front, rfl, hfront⟩ := h
  obtain ⟨front', rfl, hfront'⟩ := h'
  refine ⟨front ++ front', (List.append_assoc _ _ _).symm, ?_⟩
  rw [List.mem_append, not_or]
  exact ⟨hfront, hfront'⟩

theorem isSuffix (h : Clears t rest) : rest <:+ t := by
  obtain ⟨front, rfl, -⟩ := h
  exact List.suffix_append _ _

theorem dropWhile {p : Char → Bool} (hp : p ')' = false) (t : Text) :
    Clears t (t.dropWhile p) := by
  refine ⟨t.takeWhile p, List.takeWhile_append_dropWhile.symm, fun hmem ↦ ?_⟩
  have hpos := List.mem_takeWhile_imp hmem
  rw [hp] at hpos
  cases hpos

theorem suffix_of_suffix (h : Clears t rest) (ht : (')' :: tail) <:+ t) :
    (')' :: tail) <:+ rest := by
  obtain ⟨front, rfl, hfront⟩ := h
  obtain ⟨before, hbefore⟩ := ht
  rcases List.append_eq_append_iff.mp hbefore with ⟨more, rfl, hmore⟩ | ⟨more, rfl, rfl⟩
  · cases more with
    | nil => exact hmore ▸ List.suffix_rfl
    | cons c more =>
      obtain ⟨rfl, -⟩ := List.cons.inj hmore
      simp at hfront
  · exact List.suffix_append _ _

end Clears

theorem clears_readOctal (value missing : Nat) (t : Text) :
    Clears t (readOctal value missing t).2 := by
  induction missing generalizing value t with
  | zero => exact .refl t
  | succ missing ih =>
    cases t with
    | nil => exact .refl []
    | cons c rest =>
      rw [readOctal]
      split
      next d hd =>
        refine (ih _ rest).cons ?_
        rintro rfl
        cases hd
      next => exact .refl _

theorem clears_of_readOctal (h : readOctal value missing t = (code, rest)) : Clears t rest := by
  have hclears := clears_readOctal value missing t
  rwa [h] at hclears

theorem clears_readHex (h : readHex value missing t = .ok (code, rest)) : Clears t rest := by
  induction missing generalizing value t with
  | zero =>
    cases h
    exact .refl _
  | succ missing ih =>
    cases t with
    | nil => cases h
    | cons c t =>
      rw [readHex] at h
      split at h
      next d hd =>
        refine (ih h).cons ?_
        rintro rfl
        cases hd
      next => cases h

theorem clears_readCode (h : readCode c t = .ok (code, rest)) : Clears t rest := by
  rw [readCode] at h
  split at h
  next =>
    cases h
    exact .refl t
  next =>
    split at h
    next => exact clears_readHex h
    next =>
      split at h
      next => exact clears_readHex h
      next =>
        split at h
        next =>
          obtain ⟨⟨found, after⟩, hread, h⟩ := bind_eq_ok h
          dsimp only at h
          split at h
          next =>
            cases h
            exact clears_readHex hread
          next => cases h
        next =>
          split at h
          next => cases h
          next =>
            cases h
            exact .refl t

theorem ne_of_isDigit (h : c.isDigit = true) : c ≠ ')' := by
  rintro rfl
  cases h

theorem clears_tail (h : t.head?.bind octalValue? = some value) : Clears t t.tail := by
  cases t with
  | nil => cases h
  | cons c rest =>
    refine (Clears.refl rest).cons ?_
    rintro rfl
    cases h

theorem clears_readEscape (h : readEscape modes c t = .ok (token, rest)) : Clears t rest := by
  rw [readEscape.eq_def] at h
  dsimp only at h
  repeat' split at h
  all_goals first
    | cases h
      first
        | exact .refl _
        | exact clears_readOctal 0 2 t
        | exact (clears_tail ‹_›).cons (ne_of_isDigit ‹_›)
        | exact (Clears.refl _).cons (ne_of_isDigit ‹_›)
    | cases h
    | obtain ⟨⟨code, after⟩, hread, hp⟩ := map_eq_ok h
      cases hp
      exact clears_readCode hread

theorem clears_readAppetite (t : Text) : Clears t (readAppetite t).2 := by
  rw [readAppetite.eq_def]
  split
  · exact (Clears.refl _).cons (by decide)
  · exact (Clears.refl _).cons (by decide)
  · exact .refl t

theorem clears_readBounds? (h : readBounds? t = some (bounds, rest)) : Clears t rest := by
  have hdigits (t : Text) : Clears t (t.dropWhile Char.isDigit) := .dropWhile (by decide) t
  rw [readBounds?.eq_def] at h
  split at h
  next => cases h
  next =>
    split at h
    next after hdrop =>
      cases h
      have hclears := hdigits t
      rw [hdrop] at hclears
      exact hclears.trans ((Clears.refl _).cons (by decide))
    next more hdrop =>
      split at h
      next after hdrop' =>
        cases h
        have hclears := hdigits t
        have hclears' := hdigits more
        rw [hdrop] at hclears
        rw [hdrop'] at hclears'
        exact hclears.trans ((hclears'.trans ((Clears.refl _).cons (by decide))).cons (by decide))
      next => cases h
    next => cases h

theorem clears_counted (h : counted bounds t = .ok (token, rest)) : Clears t rest := by
  rw [counted] at h
  dsimp only at h
  repeat' split at h
  all_goals first
    | cases h
      exact clears_readAppetite t
    | cases h

theorem clears_readModes (h : readModes modes t = .ok (inner, rest)) : Clears t rest := by
  have hletters (letters : Text) (hclosed : letters.contains ')' = false) (t : Text) :
      Clears t (t.dropWhile fun c ↦ letters.contains c) := .dropWhile hclosed t
  have hon := hletters "aimsux" (by decide) t
  rw [readModes] at h
  split at h
  next after hdrop =>
    rw [hdrop] at hon
    split at h
    next => cases h
    next =>
      obtain ⟨_, -, hp⟩ := map_eq_ok h
      cases hp
      exact hon.trans ((Clears.refl _).cons (by decide))
  next more hdrop =>
    have hoff := hletters "imsx" (by decide) more
    rw [hdrop] at hon
    split at h
    next after hdrop' =>
      rw [hdrop'] at hoff
      dsimp only at h
      split at h
      next => cases h
      next =>
        obtain ⟨_, -, hp⟩ := map_eq_ok h
        cases hp
        exact hon.trans ((hoff.trans ((Clears.refl _).cons (by decide))).cons (by decide))
    next => cases h
  next => cases h

/-! ### Sets -/

theorem suffix_readMember (h : readMember asciiOnly t = .ok (item, rest)) : rest <:+ t := by
  rw [readMember.eq_def] at h
  split at h
  next => cases h
  next => cases h
  next c after =>
    have hafter : after <:+ '\\' :: c :: after := (List.suffix_cons c after).trans
      (List.suffix_cons '\\' _)
    repeat' split at h
    all_goals first
      | cases h
        exact hafter
      | cases h
        exact (clears_of_readOctal ‹_›).isSuffix.trans hafter
      | cases h
      | obtain ⟨⟨code, more⟩, hread, hp⟩ := map_eq_ok h
        cases hp
        exact (clears_readCode hread).isSuffix.trans hafter
  next c after _ _ =>
    cases h
    exact List.suffix_cons _ _

theorem exists_append_cons (hu : u <:+ t) (h : ∃ front, u = front ++ z :: rest) :
    ∃ front, t = front ++ z :: rest := by
  obtain ⟨front, rfl⟩ := hu
  obtain ⟨front', rfl⟩ := h
  exact ⟨front ++ front', (List.append_assoc _ _ _).symm⟩

/-- The members of a set are read up to a closing bracket. -/
theorem exists_readMembers (h : readMembers asciiOnly fuel items t = .ok (items', rest)) :
    ∃ front, t = front ++ ']' :: rest := by
  induction fuel generalizing items t with
  | zero => cases h
  | succ fuel ih =>
    rw [readMembers.eq_def] at h
    dsimp only at h
    split at h
    next after _ _ =>
      cases h
      exact ⟨[], rfl⟩
    next =>
      obtain ⟨⟨item, after⟩, hfirst, h⟩ := bind_eq_ok h
      have hafter := suffix_readMember hfirst
      dsimp only at h
      split at h
      next =>
        cases h
        exact exists_append_cons hafter ⟨['-'], rfl⟩
      next more _ =>
        have hmore : more <:+ t := (List.suffix_cons _ _).trans hafter
        obtain ⟨⟨other, last⟩, hother, h⟩ := bind_eq_ok h
        obtain ⟨ranged, -, h⟩ := bind_eq_ok h
        exact exists_append_cons ((suffix_readMember hother).trans hmore) (ih h)
      next => exact exists_append_cons hafter (ih h)

theorem exists_readSet (h : readSet modes t = .ok (token, rest)) :
    ∃ front, t = front ++ ']' :: rest := by
  rw [readSet.eq_def] at h
  split at h
  next negated u hu =>
    obtain ⟨⟨items, after⟩, hread, hp⟩ := map_eq_ok h
    cases hp
    refine exists_append_cons ?_ (exists_readMembers hread)
    split at hu
    next =>
      cases hu
      exact List.suffix_cons _ _
    next =>
      cases hu
      exact List.suffix_rfl

/-! ### Up to the tail -/

/-- Nothing that has been begun before the text is ended in it. -/
structure Sealed (tail : Text) : Prop where
  bracket : ']' ∉ tail
  angle : '>' ∉ tail
  parenthesis : ∀ rest, dropThrough ')' tail ≠ .ok (some rest)
  line : ∀ rest, dropThrough '\n' tail ≠ .ok (some rest)

theorem sealed_nil : Sealed [] where
  bracket := nofun
  angle := nofun
  parenthesis := nofun
  line := nofun

/-- A reader that has gone from one text to another has not gone beyond the beginning of the tail,
if a closing parenthesis is before it. -/
structure Lands (tail t rest : Text) : Prop where
  isSuffix : rest <:+ t
  arrives : (')' :: tail) <:+ t → tail <:+ rest

theorem Clears.lands (h : Clears t rest) (tail : Text) : Lands tail t rest where
  isSuffix := h.isSuffix
  arrives ht := (List.suffix_cons _ _).trans (h.suffix_of_suffix ht)

theorem Clears.then_lands (h : Clears t u) (h' : Lands tail u rest) : Lands tail t rest where
  isSuffix := h'.isSuffix.trans h.isSuffix
  arrives ht := h'.arrives (h.suffix_of_suffix ht)

theorem Lands.reaches (h : Lands tail t rest) (ht : (')' :: tail) <:+ t) :
    rest = tail ∨ (')' :: tail) <:+ rest := by
  rcases List.suffix_or_suffix_of_suffix ht h.isSuffix with hrest | hrest
  · exact .inr hrest
  · rcases List.suffix_cons_iff.mp hrest with rfl | hrest
    · exact .inr List.suffix_rfl
    · exact .inl (hrest.eq_of_length_le (h.arrives ht).length_le)

theorem lands_of_terminator (hz : z ∉ ')' :: tail) : Lands tail (front ++ z :: rest) rest where
  isSuffix := (List.suffix_cons _ _).trans (List.suffix_append _ _)
  arrives ht := by
    rcases List.suffix_or_suffix_of_suffix ht (List.suffix_append front (z :: rest)) with h | h
    · rcases List.suffix_cons_iff.mp h with he | h
      · exact absurd (he ▸ List.mem_cons_self) hz
      · exact (List.suffix_cons _ _).trans h
    · exact absurd (h.subset List.mem_cons_self) hz

theorem lands_of_closing (hfront : ')' ∉ front) :
    Lands tail (front ++ ')' :: rest) rest where
  isSuffix := (List.suffix_cons _ _).trans (List.suffix_append _ _)
  arrives ht := by
    have hclears : Clears (front ++ ')' :: rest) (')' :: rest) := ⟨front, rfl, hfront⟩
    rcases List.suffix_cons_iff.mp (hclears.suffix_of_suffix ht) with he | h
    · exact (List.cons.inj he).2 ▸ List.suffix_rfl
    · exact (List.suffix_cons _ _).trans h

/-- An escaped parenthesis is passed over. -/
theorem lands_readEscape (h : readEscape modes c t = .ok (token, rest)) :
    Lands tail (c :: t) rest where
  isSuffix := (clears_readEscape h).isSuffix.trans (List.suffix_cons c t)
  arrives ht := by
    rcases List.suffix_cons_iff.mp ht with he | ht
    · obtain ⟨rfl, rfl⟩ := List.cons.inj he
      cases h
      exact List.suffix_rfl
    · exact ((clears_readEscape h).lands tail).arrives ht

theorem lands_readSet (hs : Sealed tail) (h : readSet modes t = .ok (token, rest)) :
    Lands tail t rest := by
  obtain ⟨front, rfl⟩ := exists_readSet h
  exact lands_of_terminator (by simp [hs.bracket])

theorem lands_dropThrough (hz : ∀ rest, dropThrough z tail ≠ .ok (some rest))
    (h : dropThrough z t = .ok (some rest)) : Lands tail t rest := by
  induction t using dropThrough.induct z with
  | case1 => cases h
  | case2 => cases h
  | case3 c t ih =>
    have hlands := ih h
    refine ⟨hlands.isSuffix.trans ((List.suffix_cons c t).trans (List.suffix_cons '\\' _)), ?_⟩
    intro ht
    have hescaped : (')' :: tail) <:+ c :: t :=
      (List.suffix_cons_iff.mp ht).resolve_left (by simp)
    rcases List.suffix_cons_iff.mp hescaped with he | ht
    · obtain ⟨-, rfl⟩ := List.cons.inj he
      exact absurd h (hz rest)
    · exact hlands.arrives ht
  | case4 t hlast hescaped =>
    rw [dropThrough, if_pos rfl] at h
    · cases h
      refine ⟨List.suffix_cons _ _, fun ht ↦ ?_⟩
      rcases List.suffix_cons_iff.mp ht with he | ht
      · exact (List.cons.inj he).2 ▸ List.suffix_rfl
      · exact (List.suffix_cons _ _).trans ht
    · exact hlast
    · exact hescaped
  | case5 c t hlast hescaped hc ih =>
    have hnext : dropThrough z t = .ok (some rest) := by
      rw [dropThrough, if_neg hc] at h
      · exact h
      · exact hlast
      · exact hescaped
    have hlands := ih hnext
    refine ⟨hlands.isSuffix.trans (List.suffix_cons c t), fun ht ↦ ?_⟩
    rcases List.suffix_cons_iff.mp ht with he | ht
    · obtain ⟨-, rfl⟩ := List.cons.inj he
      exact absurd hnext (hz rest)
    · exact hlands.arrives ht

theorem lands_cut? (hz : z = ')' ∨ z ∉ tail) (h : Text.cut? z t = some (name, rest)) :
    Lands tail t rest := by
  by_cases hclosing : z = ')'
  · subst hclosing
    rw [Text.eq_append_of_cut? h]
    exact lands_of_closing (Text.not_mem_of_cut? h)
  · rw [Text.eq_append_of_cut? h]
    refine lands_of_terminator ?_
    rw [List.mem_cons, not_or]
    exact ⟨hclosing, hz.resolve_left hclosing⟩

theorem lands_readName (hz : z = ')' ∨ z ∉ tail) (h : readName z t = .ok (name, rest)) :
    Lands tail t rest := by
  rw [readName] at h
  split at h
  next hcut =>
    split at h
    next =>
      cases h
      exact lands_cut? hz hcut
    next => cases h
  next => cases h

theorem lands_readParenthesis (hs : Sealed tail)
    (h : readParenthesis modes t = .ok (parenthesis, rest)) : Lands tail t rest := by
  cases opened_of_readParenthesis h with
  | marked mark hmark =>
    have hclosed := (by decide : ∀ entry ∈ markings, ')' ∉ '?' :: entry.1) _ hmark
    exact (Clears.of_not_mem ('?' :: mark) hclosed rest).lands tail
  | named h =>
    exact (Clears.of_not_mem "?P<" (by decide) _).then_lands (lands_readName (.inr hs.angle) h)
  | recalled h =>
    exact (Clears.of_not_mem "?P=" (by decide) _).then_lands (lands_readName (.inl rfl) h)
  | remark h =>
    exact (Clears.of_not_mem "?#" (by decide) _).then_lands (lands_dropThrough hs.parenthesis h)
  | choice hcut _ =>
    exact (Clears.of_not_mem "?(" (by decide) _).then_lands (lands_cut? (.inl rfl) hcut)
  | moded _ h =>
    exact (Clears.of_not_mem ['?'] (by decide) _).then_lands ((clears_readModes h).lands tail)
  | plain => exact (Clears.refl t).lands tail

theorem lands_readFlat (hs : Sealed tail) (h : readFlat modes c t = .ok (token, rest)) :
    Lands tail t rest := by
  have hrefl : Lands tail t t := (Clears.refl t).lands tail
  have happetite : Lands tail t (readAppetite t).2 := (clears_readAppetite t).lands tail
  rw [readFlat.eq_def] at h
  split at h
  next =>
    split at h
    next => cases h
    next => exact lands_readEscape h
  next => exact lands_readSet hs h
  -- the two anchors, the dot and the bar
  iterate 4
    next =>
      cases h
      exact hrefl
  iterate 3
    next =>
      cases h
      exact happetite
  next =>
    split at h
    next hbounds => exact ((clears_readBounds? hbounds).trans (clears_counted h)).lands tail
    next =>
      cases h
      exact hrefl
  next =>
    cases h
    exact hrefl

/-! ### Steps -/

namespace Steps

variable (h : Steps modes outer (c :: t) tokens modes' outer' rest)

include h

theorem lands (hs : Sealed tail) : Lands tail t rest := by
  cases h with
  | spacing | leave => exact (Clears.refl t).lands tail
  | comment _ _ h => exact lands_dropThrough hs.line h
  | flat _ _ _ h => exact lands_readFlat hs h
  | enter _ h | complete _ h | remark _ h => exact lands_readParenthesis hs h

theorem isSuffix : rest <:+ t := (h.lands sealed_nil).isSuffix

/-- A parenthesis that is closed is read on its own. -/
theorem eq_of_closing (hc : c = ')') : rest = t := by
  subst hc
  cases h with
  | spacing | leave => rfl
  | flat _ _ hc => exact absurd rfl hc.2

/-- After a step the reader has come to the beginning of the tail, or the last parenthesis before
the tail is still ahead of it. -/
theorem reaches (hs : Sealed tail) (ht : (')' :: tail) <:+ c :: t) :
    rest = tail ∨ (')' :: tail) <:+ rest := by
  rcases List.suffix_cons_iff.mp ht with he | ht
  · obtain ⟨rfl, rfl⟩ := List.cons.inj he
    exact .inl (h.eq_of_closing rfl)
  · exact (h.lands hs).reaches ht

end Steps

/-- The reader takes no more steps than there are characters. -/
theorem Yields.scanFrom_eq (h : Yields modes outer t tokens) (hfuel : t.length ≤ fuel) :
    scanFrom fuel modes outer t = .ok tokens := by
  induction h generalizing fuel with
  | nil => exact scanFrom_nil fuel _ _
  | hidden outer hspaced h =>
    obtain ⟨less, rfl⟩ := Nat.exists_eq_succ_of_ne_zero (Nat.ne_zero_of_lt hfuel)
    rw [scanFrom_comment hspaced, h]
    exact scanFrom_nil less _ _
  | step hstep _ ih =>
    obtain ⟨less, rfl⟩ := Nat.exists_eq_succ_of_ne_zero (Nat.ne_zero_of_lt hfuel)
    rw [hstep.scanFrom_succ, ih (hstep.isSuffix.length_le.trans (Nat.le_of_succ_le_succ hfuel))]
    rfl

end UrlRouting.Regex.Token

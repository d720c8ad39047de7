import Mathlib.Data.List.TakeWhile
import UrlRouting.Proofs.Regex.Reading
import UrlRouting.Template.Shorthand

/-!
Shorthands are written out segment by segment, all of them, and once and for all:
`normalize_settles`. A shorthand holds neither a slash nor the bracket that a variable begins with,
so that no new one arises where a variable takes the place of an old one.
-/

namespace UrlRouting.Template

variable {p t u name w : Text}

/-! ### Names -/

/-- An ASCII letter or an underscore, then word characters. -/
def IsName : Text → Prop
  | [] => False
  | c :: rest => (Text.isAsciiLetter c || c == '_') = true ∧ ∀ x ∈ rest, Text.isWord x = true

theorem IsName.isWord (h : IsName name) : ∀ x ∈ name, Text.isWord x = true := by
  cases name with
  | nil => cases h
  | cons c rest =>
    refine List.forall_mem_cons.mpr ⟨?_, h.2⟩
    cases hc : Text.isWord c with
    | true => rfl
    | false =>
      rw [Text.isWord, Bool.or_eq_false_iff] at hc
      have hstart := h.1
      rw [Regex.Token.isAsciiLetter_eq_false hc.2, hc.1] at hstart
      cases hstart

theorem nameAt?_append (h : IsName name) (hw : ∀ c, w.head? = some c → Text.isWord c = false) :
    nameAt? (name ++ w) = some name := by
  cases name with
  | nil => cases h
  | cons c rest =>
    have hstop : w.takeWhile Text.isWord = [] := by
      cases w with
      | nil => rfl
      | cons x w => exact List.takeWhile_cons_of_neg (by simp [hw x rfl])
    rw [List.cons_append, nameAt?, if_pos h.1, List.takeWhile_append_of_pos h.2, hstop,
      List.append_nil]

theorem exists_of_nameAt? (h : nameAt? t = some name) :
    IsName name ∧ ∃ w, t = name ++ w ∧ ∀ c, w.head? = some c → Text.isWord c = false := by
  cases t with
  | nil => cases h
  | cons c rest =>
    rw [nameAt?] at h
    split at h
    next hc =>
      cases h
      refine ⟨⟨hc, fun x hx ↦ List.mem_takeWhile_imp hx⟩, rest.dropWhile Text.isWord, ?_, ?_⟩
      · rw [List.cons_append, List.takeWhile_append_dropWhile]
      · intro x hx
        have hnot := List.head?_dropWhile_not Text.isWord rest
        rw [hx] at hnot
        exact hnot
    next => cases h

namespace Shorthand

variable {s q : Shorthand} {optional : Bool} {x : Char}

theorem mem_canonical (h : x ∈ canonical name optional) : x ∈ name ∨ x ∈ ['<', '>', '?'] := by
  rcases List.mem_cons.mp h with rfl | h
  · exact .inr (by decide)
  · rcases List.mem_append.mp h with h | h
    · exact .inl h
    · refine .inr ?_
      split at h
      · exact (by decide : ∀ y ∈ ['?', '>'], y ∈ ['<', '>', '?']) x h
      · exact (by decide : ∀ y ∈ ['>'], y ∈ ['<', '>', '?']) x h

/-! ### Shorthands -/

def written (s : Shorthand) (name : Text) : Text := s.opening ++ name ++ s.closing

/-- What the shorthands have in common. -/
structure IsRegular (s : Shorthand) : Prop where
  opening : s.opening ≠ []
  head : ∀ c, s.opening.head? = some c → Text.isWord c = false ∧ c ∉ ['<', '>', '?']
  plain : ∀ c ∈ s.opening ++ s.closing, c ≠ '<' ∧ c ≠ '/'
  closing : ∀ c, s.closing.head? = some c → Text.isWord c = false

theorem isRegular_of_mem (h : s ∈ all) : s.IsRegular := by
  simp only [all, List.mem_cons, List.not_mem_nil, or_false] at h
  rcases h with rfl | rfl | rfl | rfl <;>
    exact ⟨by decide, fun c hc ↦ by cases hc; decide, by decide, fun c hc ↦ by cases hc <;> decide⟩

theorem exists_of_find? (h : s.find? t = some name) : IsName name ∧
    ∃ w, t = s.written name ++ w ∧
      (s.closing = [] → ∀ c, w.head? = some c → Text.isWord c = false) := by
  rw [find?] at h
  split at h
  next hopening =>
    obtain ⟨u, rfl⟩ := Text.startsWith_iff.mp hopening
    rw [List.drop_left] at h
    split at h
    next name' hfound =>
      obtain ⟨hname, v, rfl, hv⟩ := exists_of_nameAt? hfound
      split at h
      next hclosing =>
        cases h
        rw [← List.append_assoc, ← List.length_append, List.drop_left, Text.startsWith_iff]
          at hclosing
        obtain ⟨w, rfl⟩ := hclosing
        refine ⟨hname, w, by simp [written], fun hnil ↦ ?_⟩
        rwa [hnil] at hv
      next => cases h
    next => cases h
  next => cases h

namespace IsRegular

variable (h : s.IsRegular)

include h

theorem find?_written (hname : IsName name)
    (hw : s.closing = [] → ∀ c, w.head? = some c → Text.isWord c = false) :
    s.find? (s.written name ++ w) = some name := by
  have hstop : ∀ c, (s.closing ++ w).head? = some c → Text.isWord c = false := by
    cases hclosing : s.closing with
    | nil => exact hw hclosing
    | cons x closing => exact fun c hc ↦ h.closing c (by rw [hclosing]; exact hc)
  have ht : s.written name ++ w = s.opening ++ (name ++ (s.closing ++ w)) := by simp [written]
  have hopening : Text.startsWith (s.opening ++ (name ++ (s.closing ++ w))) s.opening = true :=
    Text.startsWith_iff.mpr (List.prefix_append _ _)
  have hclosing : Text.startsWith (s.closing ++ w) s.closing = true :=
    Text.startsWith_iff.mpr (List.prefix_append _ _)
  rw [find?, ht, if_pos hopening, List.drop_left, nameAt?_append hname hstop]
  dsimp only
  rw [← List.append_assoc, ← List.length_append, List.drop_left, if_pos hclosing]

/-- Where a shorthand stands, one is found. -/
theorem find?_ne_none (hname : IsName name) (ht : s.written name <+: t) : s.find? t ≠ none := by
  obtain ⟨w, rfl⟩ := ht
  cases hclosing : s.closing with
  | cons x closing =>
    rw [h.find?_written hname fun hnil ↦ by rw [hnil] at hclosing; cases hclosing]
    exact Option.some_ne_none _
  | nil =>
    -- Without an end mark, the name that is found may be longer.
    have hlonger : IsName (name ++ w.takeWhile Text.isWord) := by
      cases name with
      | nil => cases hname
      | cons c rest =>
        refine ⟨hname.1, fun x hx ↦ (List.mem_append.mp hx).elim (hname.2 x) List.mem_takeWhile_imp⟩
    have hw : ∀ c, (w.dropWhile Text.isWord).head? = some c → Text.isWord c = false := by
      intro x hx
      have hnot := List.head?_dropWhile_not Text.isWord w
      rw [hx] at hnot
      exact hnot
    have ht : s.written name ++ w =
        s.written (name ++ w.takeWhile Text.isWord) ++ w.dropWhile Text.isWord := by
      simp [written, hclosing]
    rw [ht, h.find?_written hlonger fun _ ↦ hw]
    exact Option.some_ne_none _

theorem not_mem_written (hname : IsName name) (hx : x = '<' ∨ x = '/') : x ∉ s.written name := by
  have hword : Text.isWord x = false := by rcases hx with rfl | rfl <;> decide
  have hplain : x ∉ s.opening ++ s.closing := fun hmem ↦
    hx.elim (h.plain x hmem).1 (h.plain x hmem).2
  intro hmem
  rw [written, List.append_assoc, List.mem_append, List.mem_append] at hmem
  rcases hmem with hmem | hmem | hmem
  · exact hplain (List.mem_append_left _ hmem)
  · rw [hname.isWord x hmem] at hword
    cases hword
  · exact hplain (List.mem_append_right _ hmem)

/-- The character that a shorthand begins with is none of those of a variable in full. -/
theorem exists_written (name : Text) : ∃ c rest, s.written name = c :: rest ∧
    ∀ {other optional}, IsName other → c ∉ canonical other optional := by
  cases ho : s.opening with
  | nil => exact absurd ho h.opening
  | cons c opening =>
    refine ⟨c, opening ++ name ++ s.closing, by rw [written, ho]; rfl, fun hother hmem ↦ ?_⟩
    obtain ⟨hword, hmarks⟩ := h.head c (by rw [ho]; rfl)
    rcases mem_canonical hmem with hmem | hmem
    · rw [hother.isWord c hmem] at hword
      cases hword
    · exact hmarks hmem

theorem find?_append_slash (a b : Text) : s.find? (a ++ '/' :: b) = s.find? a := by
  cases ha : s.find? a with
  | some name =>
    obtain ⟨hname, w, rfl, hw⟩ := exists_of_find? ha
    rw [List.append_assoc, h.find?_written hname]
    intro hnil c hc
    cases w with
    | nil =>
      cases hc
      decide
    | cons x w => exact hw hnil c hc
  | none =>
    cases hb : s.find? (a ++ '/' :: b) with
    | none => rfl
    | some name =>
      obtain ⟨hname, w, ht, -⟩ := exists_of_find? hb
      exact absurd ha (h.find?_ne_none hname (Text.prefix_of_prefix_append_cons
        (h.not_mem_written hname (.inr rfl)) ⟨w, ht.symm⟩))

end IsRegular

/-! ### Expanding -/

theorem expandAfter_append (s : Shorthand) (front t : Text) :
    s.expandAfter front.length (front ++ t) = s.expand t := by
  induction front with
  | nil => rfl
  | cons c front ih => exact ih

theorem expand_cons (h : s.find? (c :: t) = none) : s.expand (c :: t) = c :: s.expand t := by
  rw [expand, expandAfter, h, expand]

theorem expand_written (h : s.find? (s.written name ++ t) = some name) (hs : s.opening ≠ []) :
    s.expand (s.written name ++ t) = canonical name s.optional ++ s.expand t := by
  cases hw : s.written name with
  | nil => simp [written, hs] at hw
  | cons c front =>
    have hsize : s.size name - 1 = front.length := by
      have hlength := congrArg List.length hw
      simp only [written, List.length_append, List.length_cons] at hlength
      rw [size, hlength, Nat.add_sub_cancel]
    rw [hw, List.cons_append] at h
    rw [List.cons_append, expand, expandAfter, h]
    dsimp only
    rw [hsize, expandAfter_append]

theorem expand_induction {motive : Text → Text → Prop} (hs : s.IsRegular) (nil : motive [] [])
    (hit : ∀ name t, IsName name → s.find? (s.written name ++ t) = some name →
      motive t (s.expand t) →
      motive (s.written name ++ t) (canonical name s.optional ++ s.expand t))
    (keep : ∀ c t, s.find? (c :: t) = none → motive t (s.expand t) →
      motive (c :: t) (c :: s.expand t)) (t : Text) : motive t (s.expand t) := by
  induction hl : t.length using Nat.strongRecOn generalizing t with
  | ind length ih =>
    subst hl
    cases hf : s.find? t with
    | some name =>
      obtain ⟨hname, w, rfl, -⟩ := exists_of_find? hf
      rw [expand_written hf hs.opening]
      refine hit name w hname hf (ih _ ?_ w rfl)
      have hpos : 0 < s.opening.length := List.length_pos_iff.mpr hs.opening
      simp only [written, List.length_append]
      omega
    | none =>
      cases t with
      | nil => exact nil
      | cons c rest =>
        rw [expand_cons hf]
        exact keep c rest hf (ih _ (Nat.lt_succ_self _) rest rfl)

theorem expand_eq_nil_iff (hs : s.IsRegular) : s.expand t = [] ↔ t = [] := by
  refine expand_induction (motive := fun t t' ↦ t' = [] ↔ t = []) hs Iff.rfl ?_ ?_ t
  · intro name t _ _ _
    have hne : s.written name ++ t ≠ [] := by simp [written, hs.opening]
    exact iff_of_false (List.cons_ne_nil _ _) hne
  · exact fun c t _ _ ↦ iff_of_false (List.cons_ne_nil _ _) (List.cons_ne_nil _ _)

theorem mem_expand (hs : s.IsRegular) (h : x ∈ s.expand t) : x ∈ t ∨ x ∈ ['<', '>', '?'] := by
  refine expand_induction (motive := fun t t' ↦ x ∈ t' → x ∈ t ∨ x ∈ ['<', '>', '?']) hs
    .inl ?_ ?_ t h
  · intro name t _ _ ih h
    rcases List.mem_append.mp h with h | h
    · refine (mem_canonical h).imp_left fun h ↦ ?_
      simp [written, h]
    · exact (ih h).imp_left (List.mem_append_right _)
  · intro c t _ ih h
    rcases List.mem_cons.mp h with rfl | h
    · exact .inl List.mem_cons_self
    · exact (ih h).imp_left (List.mem_cons_of_mem c)

/-- Shorthands are expanded segment by segment. -/
theorem expand_append_slash (hs : s.IsRegular) (a b : Text) :
    s.expand (a ++ '/' :: b) = s.expand a ++ '/' :: s.expand b := by
  refine expand_induction (motive := fun a a' ↦ s.expand (a ++ '/' :: b) = a' ++ '/' :: s.expand b)
    hs ?_ ?_ ?_ a
  · have hnone : s.find? [] = none := by
      cases hf : s.find? [] with
      | none => rfl
      | some name =>
        obtain ⟨-, w, ht, -⟩ := exists_of_find? hf
        simp [written, hs.opening] at ht
    exact expand_cons ((hs.find?_append_slash [] b).trans hnone)
  · intro name a _ hf ih
    have hfound : s.find? (s.written name ++ (a ++ '/' :: b)) = some name := by
      rw [← List.append_assoc, hs.find?_append_slash, hf]
    rw [List.append_assoc, expand_written hfound hs.opening, ih, List.append_assoc]
  · intro c a hf ih
    have hnone : s.find? (c :: (a ++ '/' :: b)) = none :=
      (hs.find?_append_slash (c :: a) b).trans hf
    rw [List.cons_append, expand_cons hnone, ih, List.cons_append]

/-! ### What is left to expand -/

/-- The shorthand does not stand anywhere in the text. -/
def IsAbsent (s : Shorthand) (t : Text) : Prop := ∀ name, IsName name → ¬s.written name <:+: t

theorem IsAbsent.expand_eq (h : s.IsAbsent t) : s.expand t = t := by
  induction t with
  | nil => rfl
  | cons c rest ih =>
    have hnone : s.find? (c :: rest) = none := by
      cases hf : s.find? (c :: rest) with
      | none => rfl
      | some name =>
        obtain ⟨hname, w, ht, -⟩ := exists_of_find? hf
        exact absurd (List.prefix_append _ _).isInfix (ht ▸ h name hname)
    rw [expand_cons hnone, ih fun name hname hp ↦ h name hname (List.infix_cons hp)]

theorem prefix_of_prefix_expand (hs : s.IsRegular) (hp : '<' ∉ p) (h : p <+: s.expand t) :
    p <+: t := by
  refine expand_induction (motive := fun t t' ↦ ∀ p, '<' ∉ p → p <+: t' → p <+: t) hs
    (fun _ _ h ↦ h) ?_ ?_ t p hp h
  · intro name t _ _ _ p hp h
    cases p with
    | nil => exact List.nil_prefix
    | cons x p =>
      rw [canonical, List.cons_append, List.cons_append] at h
      exact absurd (List.mem_cons.mpr (.inl (List.cons_prefix_cons.mp h).1.symm)) hp
  · intro c t _ ih p hp h
    cases p with
    | nil => exact List.nil_prefix
    | cons x p =>
      obtain ⟨rfl, hrest⟩ := List.cons_prefix_cons.mp h
      have hp' : '<' ∉ p := fun hmem ↦ hp (List.mem_cons_of_mem _ hmem)
      exact List.cons_prefix_cons.mpr ⟨rfl, ih p hp' hrest⟩

/-- Where a shorthand stands once another one is expanded, it stood before, and the other one did
not. -/
theorem exists_of_infix_expand (hs : s.IsRegular) (hq : q.IsRegular) (hname : IsName name)
    (h : q.written name <:+: s.expand t) :
    ∃ u, u <:+ t ∧ q.written name <+: u ∧ s.find? u = none := by
  obtain ⟨c, rest, hw, hc⟩ := hq.exists_written name
  refine expand_induction (motive := fun t t' ↦ q.written name <:+: t' →
    ∃ u, u <:+ t ∧ q.written name <+: u ∧ s.find? u = none) hs ?_ ?_ ?_ t h
  · intro h
    rw [hw] at h
    exact absurd (List.infix_nil.mp h) (List.cons_ne_nil _ _)
  · intro other t hother _ ih h
    rw [hw] at h ih ⊢
    obtain ⟨u, hu, hpu, hfu⟩ := ih (Text.infix_of_infix_append (hc hother) h)
    exact ⟨u, hu.trans (List.suffix_append _ _), hpu, hfu⟩
  · intro x t hf ih h
    rcases List.infix_cons_iff.mp h with h | h
    · rw [← expand_cons hf] at h
      exact ⟨x :: t, List.suffix_rfl,
        prefix_of_prefix_expand hs (hq.not_mem_written hname (.inl rfl)) h, hf⟩
    · obtain ⟨u, hu, hpu, hfu⟩ := ih h
      exact ⟨u, hu.trans (List.suffix_cons _ _), hpu, hfu⟩

theorem isAbsent_expand_self (hs : s.IsRegular) (t : Text) : s.IsAbsent (s.expand t) := by
  intro name hname h
  obtain ⟨u, -, hpu, hfu⟩ := exists_of_infix_expand hs hs hname h
  exact hs.find?_ne_none hname hpu hfu

theorem IsAbsent.expand (h : q.IsAbsent t) (hq : q.IsRegular) (hs : s.IsRegular) :
    q.IsAbsent (s.expand t) := by
  intro name hname hp
  obtain ⟨u, hu, hpu, -⟩ := exists_of_infix_expand hs hq hname hp
  exact h name hname (hpu.isInfix.trans hu.isInfix)

end Shorthand

/-! ### Normalizing -/

open Shorthand

theorem foldl_expand_append_slash {shorthands : List Shorthand}
    (h : ∀ s ∈ shorthands, s.IsRegular) (a b : Text) :
    shorthands.foldl (fun t s ↦ s.expand t) (a ++ '/' :: b) =
      shorthands.foldl (fun t s ↦ s.expand t) a ++
        '/' :: shorthands.foldl (fun t s ↦ s.expand t) b := by
  induction shorthands generalizing a b with
  | nil => rfl
  | cons s rest ih =>
    rw [List.foldl_cons, expand_append_slash (h s List.mem_cons_self),
      ih fun s hs ↦ h s (List.mem_cons_of_mem _ hs)]
    rfl

theorem normalize_append_slash (a b : Text) :
    normalize (a ++ '/' :: b) = normalize a ++ '/' :: normalize b :=
  foldl_expand_append_slash (fun _ ↦ isRegular_of_mem) a b

theorem isAbsent_foldl_expand {shorthands : List Shorthand}
    (hall : ∀ s ∈ shorthands, s.IsRegular) {q : Shorthand} (hq : q.IsRegular)
    (h : q.IsAbsent t ∨ q ∈ shorthands) :
    q.IsAbsent (shorthands.foldl (fun t s ↦ s.expand t) t) := by
  induction shorthands generalizing t with
  | nil => exact h.resolve_right List.not_mem_nil
  | cons s rest ih =>
    refine ih (fun s hs ↦ hall s (List.mem_cons_of_mem _ hs)) ?_
    rcases h with h | h
    · exact .inl (h.expand hq (hall s List.mem_cons_self))
    · rcases List.mem_cons.mp h with rfl | h
      · exact .inl (isAbsent_expand_self hq t)
      · exact .inr h

/-- No shorthand is left. -/
theorem isAbsent_normalize {s : Shorthand} (hs : s ∈ Shorthand.all) (t : Text) :
    s.IsAbsent (normalize t) :=
  isAbsent_foldl_expand (fun _ ↦ isRegular_of_mem) (isRegular_of_mem hs) (.inr hs)

theorem normalize_of_isAbsent (h : ∀ s ∈ Shorthand.all, s.IsAbsent t) : normalize t = t := by
  have hall : ∀ shorthands : List Shorthand, (∀ s ∈ shorthands, s.IsAbsent t) →
      shorthands.foldl (fun t s ↦ s.expand t) t = t := by
    intro shorthands
    induction shorthands with
    | nil => exact fun _ ↦ rfl
    | cons s rest ih =>
      intro h
      rw [List.foldl_cons, (h s List.mem_cons_self).expand_eq]
      exact ih fun s hs ↦ h s (List.mem_cons_of_mem _ hs)
  exact hall _ h

theorem normalize_eq_nil_iff : normalize t = [] ↔ t = [] := by
  have hall : ∀ (shorthands : List Shorthand) (t : Text), (∀ s ∈ shorthands, s.IsRegular) →
      (shorthands.foldl (fun t s ↦ s.expand t) t = [] ↔ t = []) := by
    intro shorthands
    induction shorthands with
    | nil => exact fun _ _ ↦ Iff.rfl
    | cons s rest ih =>
      intro t h
      exact (ih _ fun s hs ↦ h s (List.mem_cons_of_mem _ hs)).trans
        (expand_eq_nil_iff (h s List.mem_cons_self))
  exact hall Shorthand.all t fun _ ↦ isRegular_of_mem

/-- Expanding shorthands adds no characters but those around a variable. -/
theorem mem_normalize {rule : Text} {x : Char} (h : x ∈ normalize rule) :
    x ∈ rule ∨ x ∈ ['<', '>', '?'] := by
  have hall : ∀ (shorthands : List Shorthand) (t : Text), (∀ s ∈ shorthands, s.IsRegular) →
      x ∈ shorthands.foldl (fun t s ↦ s.expand t) t → x ∈ t ∨ x ∈ ['<', '>', '?'] := by
    intro shorthands
    induction shorthands with
    | nil => exact fun _ _ h ↦ .inl h
    | cons s rest ih =>
      intro t hregular h
      rcases ih _ (fun s hs ↦ hregular s (List.mem_cons_of_mem _ hs)) h with h | h
      · exact mem_expand (hregular s List.mem_cons_self) h
      · exact .inr h
  exact hall Shorthand.all rule (fun _ ↦ isRegular_of_mem) h

theorem normalize_normalize (t : Text) : normalize (normalize t) = normalize t :=
  normalize_of_isAbsent fun _ hs ↦ isAbsent_normalize hs t

/-- Normalizing leaves nothing to normalize: none of the shorthands stands anywhere in what it
makes of a text. And it goes segment by segment. -/
theorem normalize_settles :
    (∀ t, normalize (normalize t) = normalize t) ∧
    (∀ t, ∀ s ∈ Shorthand.all, s.IsAbsent (normalize t)) ∧
    ∀ a b, normalize (a ++ '/' :: b) = normalize a ++ '/' :: normalize b :=
  ⟨normalize_normalize, fun t _ hs ↦ isAbsent_normalize hs t, normalize_append_slash⟩

/-- What stands within a shorthand that is none may be one. -/
theorem normalize_settles_nested :
    let colon : Shorthand := ⟨":", "", false⟩
    let rule : Text := "a-\x7b:b?\x7d/[::c]"
    colon ∈ Shorthand.all ∧ normalize rule = "a-\x7b<b>?\x7d/[:<c>]".toList ∧
      colon.IsAbsent (normalize rule) ∧ normalize (normalize rule) = normalize rule := by
  intro colon rule
  have hcolon : colon ∈ Shorthand.all := List.mem_cons_of_mem _ List.mem_cons_self
  exact ⟨hcolon, by decide +kernel, normalize_settles.2.1 rule colon hcolon,
    normalize_settles.1 rule⟩

end UrlRouting.Template

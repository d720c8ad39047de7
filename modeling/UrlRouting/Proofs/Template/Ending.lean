import UrlRouting.Proofs.Regex.Closing
import UrlRouting.Proofs.Template.Expression

/-!
How the expression of a rule string ends. The patterns may be any texts: the passes over an
expression only drop question marks behind parentheses (`Thins`), so that after the last parenthesis
of the last variable there are only the literals that come after it (`exists_expression`).
-/

namespace UrlRouting.Template

open Template.Part
open Regex.Token (Spelled ending isFirm_of_forall)

variable {s : Setting} {d : Char} {part : Part} {parts : List Part} {c x : Char}
  {name t u v front ends : Text} {optional : Bool} {lead : Option Char}

/-! ### The passes -/

/-- The second text is the first one without some of the question marks that stand behind a closing
parenthesis. -/
inductive Thins : Text → Text → Prop
  | nil : Thins [] []
  | keep (c : Char) {t u : Text} (h : Thins t u) : Thins (c :: t) (c :: u)
  | drop {t u : Text} (h : Thins t u) : Thins (')' :: '?' :: t) (')' :: u)

namespace Thins

theorem append_left (front : Text) (h : Thins t u) : Thins (front ++ t) (front ++ u) := by
  induction front with
  | nil => exact h
  | cons c front ih => exact .keep c ih

theorem requireBefore (ends t : Text) : Thins t (requireBefore ends t) := by
  refine Text.replace_induction (List.cons_ne_nil _ _) .nil ?_ (fun c t _ h ↦ .keep c h) t
  exact fun t h ↦ .drop (append_left ends h)

theorem eq_of_not_mem (h : Thins t u) (ht : '?' ∉ t) : u = t := by
  induction h with
  | nil => rfl
  | keep c _ ih => rw [ih fun hmem ↦ ht (List.mem_cons_of_mem _ hmem)]
  | drop => simp at ht

/-- Up to a parenthesis, nothing is dropped. -/
theorem prefix_iff (h : Thins t u) (hfront : ')' ∉ front) : front <+: u ↔ front <+: t := by
  induction h generalizing front with
  | nil => rfl
  | keep c _ ih =>
    cases front with
    | nil => exact iff_of_true List.nil_prefix List.nil_prefix
    | cons x front =>
      rw [List.cons_prefix_cons, List.cons_prefix_cons,
        ih fun hmem ↦ hfront (List.mem_cons_of_mem _ hmem)]
  | drop =>
    cases front with
    | nil => exact iff_of_true List.nil_prefix List.nil_prefix
    | cons x front =>
      have hx : x ≠ ')' := fun he ↦ hfront (he ▸ List.mem_cons_self)
      rw [List.cons_prefix_cons, List.cons_prefix_cons]
      exact iff_of_false (fun h ↦ hx h.1) fun h ↦ hx h.1

/-- The parenthesis is not dropped either. -/
theorem prefix_closed (h : Thins t u) (hp : front ++ [')'] <+: t) (hfront : ')' ∉ front) :
    front ++ [')'] <+: u := by
  induction h generalizing front with
  | nil => exact hp
  | keep c _ ih =>
    cases front with
    | nil => exact List.cons_prefix_cons.mpr ⟨(List.cons_prefix_cons.mp hp).1, List.nil_prefix⟩
    | cons x front =>
      obtain ⟨hx, hrest⟩ := List.cons_prefix_cons.mp hp
      exact List.cons_prefix_cons.mpr ⟨hx, ih hrest fun hmem ↦ hfront (List.mem_cons_of_mem _ hmem)⟩
  | drop =>
    cases front with
    | nil => exact List.cons_prefix_cons.mpr ⟨rfl, List.nil_prefix⟩
    | cons x front =>
      exact absurd (List.cons_prefix_cons.mp hp).1 fun he ↦ hfront (he ▸ List.mem_cons_self)

theorem exists_append (h : Thins t v) (ht : t = front ++ u) (hu : u.head? ≠ some '?') :
    ∃ front' u', v = front' ++ u' ∧ Thins u u' := by
  induction h generalizing front with
  | nil =>
    obtain ⟨-, rfl⟩ := List.append_eq_nil_iff.mp ht.symm
    exact ⟨[], [], rfl, .nil⟩
  | @keep c t v h ih =>
    cases front with
    | nil =>
      obtain rfl : c :: t = u := ht
      exact ⟨[], c :: v, rfl, .keep c h⟩
    | cons x front =>
      obtain ⟨front', u', rfl, hu'⟩ := ih (List.cons.inj ht).2
      exact ⟨c :: front', u', rfl, hu'⟩
  | @drop t v h ih =>
    match front, ht with
    | [], ht =>
      obtain rfl : ')' :: '?' :: t = u := ht
      exact ⟨[], ')' :: v, rfl, .drop h⟩
    | [x], ht => exact absurd (congrArg List.head? (List.cons.inj ht).2.symm) hu
    | x :: y :: front, ht =>
      obtain ⟨front', u', rfl, hu'⟩ := ih (List.cons.inj (List.cons.inj ht).2).2
      exact ⟨')' :: front', u', rfl, hu'⟩

end Thins

/-- The text is at the end of the other one, behind a closing parenthesis with or without a question
mark. -/
def Follows (t u : Text) : Prop :=
  ∃ front, ∃ optional : Bool, u = front ++ ')' :: ((if optional then ['?'] else []) ++ t)

/-- Only the mark that stands before the text may be dropped. -/
theorem Thins.follows (h : Thins u v) (ht : '?' ∉ t) (hu : Follows t u) : Follows t v := by
  obtain ⟨front, optional, hfront⟩ := hu
  obtain ⟨front', u', rfl, hlast⟩ := h.exists_append hfront (by simp)
  generalize hw : ')' :: ((if optional then ['?'] else []) ++ t) = w at hlast
  cases hlast with
  | nil => cases hw
  | keep c hrest =>
    obtain ⟨rfl, rfl⟩ := List.cons.inj hw
    cases optional with
    | false => exact ⟨front', false, by rw [hrest.eq_of_not_mem ht]⟩
    | true =>
      cases hrest with
      | keep _ hrest => exact ⟨front', true, by rw [hrest.eq_of_not_mem ht]; rfl⟩
  | drop hrest =>
    obtain ⟨-, hw⟩ := List.cons.inj hw
    cases optional with
    | false =>
      obtain rfl : t = '?' :: _ := hw
      simp at ht
    | true =>
      obtain ⟨-, rfl⟩ := List.cons.inj hw
      exact ⟨front', false, by rw [hrest.eq_of_not_mem ht]; rfl⟩

/-! ### Literals -/

theorem spelled_separator (hd : Config.isDelimiter d = true) (hx : isSeparator [d] x = true) :
    Spelled (separator [x]) := by
  rw [separator]
  split
  next hc =>
    simp only [Bool.or_eq_true, decide_eq_true_eq, List.cons.injEq, and_true] at hc
    refine .firm ?_ .nil
    rcases hc with rfl | rfl <;> decide
  next hc =>
    simp only [Bool.or_eq_true, decide_eq_true_eq, List.cons.injEq, and_true, not_or] at hc
    obtain rfl : x = d := by simpa [hc] using isSeparator_singleton.mp hx
    obtain ⟨halpha, hmark⟩ := isDelimiter_iff.mp hd
    rw [escape, List.flatMap_singleton]
    split
    next =>
      refine .escaped halpha (fun hmem ↦ hmark ?_) .nil
      exact (by decide : ∀ c ∈ [']', '>', '?'], c ∈ Config.reservedMarks) x hmem
    next hspecial =>
      refine .firm (isFirm_of_forall (p := fun c ↦ isSpecial c = false ∧ c ∉ Config.reservedMarks)
        (by decide) ⟨Bool.eq_false_iff.mpr hspecial, hmark⟩) .nil

theorem spelled_literal (hdelimiter : s.delimiter = [d]) (hd : Config.isDelimiter d = true)
    (h : (literal c).isPlain (isSeparator [d]) = true) : Spelled (s.fragment (literal c)) := by
  rw [isPlain, Bool.or_eq_true] at h
  rcases h with hc | hc
  · rw [fragment_word hdelimiter hd hc]
    exact .firm (isFirm_of_forall (p := fun c ↦ Text.isWord c = true) (by decide) hc) .nil
  · rw [fragment_separator hdelimiter hc]
    exact spelled_separator hd hc

/-! ### The last variable -/

theorem Follows.append (h : Follows t u) (v : Text) : Follows (t ++ v) (u ++ v) := by
  obtain ⟨front, optional, rfl⟩ := h
  exact ⟨front, optional, by simp only [List.append_assoc, List.cons_append]⟩

theorem follows_slot (s : Setting) (lead : Option Char) (name : Text) (optional : Bool) :
    Follows [] (s.fragment (slot lead name optional)) := by
  refine ⟨'(' :: (lead.elim [] (fun c ↦ separator [c]) ++
    ("(?P<".toList ++ name ++ s.ending ++ '>' :: s.inner name ++ [')'])), optional, ?_⟩
  rw [fragment_slot]
  simp only [List.cons_append, List.append_assoc, List.nil_append, List.append_nil]

theorem exists_follows (hdelimiter : s.delimiter = [d]) (hd : Config.isDelimiter d = true)
    (h : ∀ part ∈ parts, part.isPlain (isSeparator [d]) = true)
    (hslot : slot lead name optional ∈ parts) :
    ∃ t, Spelled t ∧ Follows t (parts.flatMap s.fragment) := by
  induction parts using List.reverseRecOn with
  | nil => cases hslot
  | append_singleton parts part ih =>
    rw [List.flatMap_append, List.flatMap_singleton]
    cases part with
    | slot lead name optional =>
      obtain ⟨front, mark, hfragment⟩ := follows_slot s lead name optional
      refine ⟨[], .nil, parts.flatMap s.fragment ++ front, mark, ?_⟩
      rw [hfragment, List.append_assoc]
    | literal c =>
      have hmem : slot lead name optional ∈ parts := by simpa using hslot
      obtain ⟨t, ht, hfollows⟩ := ih (fun part hpart ↦ h part (List.mem_append_left _ hpart)) hmem
      have hc := h (literal c) (List.mem_append_right _ (List.mem_singleton_self _))
      exact ⟨_, ht.append (spelled_literal hdelimiter hd hc), hfollows.append _⟩

theorem mem_rdropWhile (p : Char → Bool) (h : slot lead name optional ∈ parts) :
    slot lead name optional ∈ parts.rdropWhile (isLiteral p) := by
  induction parts using List.reverseRecOn with
  | nil => cases h
  | append_singleton parts part ih =>
    rw [List.rdropWhile_concat]
    split
    next hpart =>
      refine ih ((List.mem_append.mp h).resolve_right fun hlast ↦ ?_)
      rw [← List.mem_singleton.mp hlast] at hpart
      cases hpart
    next => exact h

/-- The expression of a rule string with a variable ends in a closing parenthesis, characters that
stand for themselves and the anchor. -/
theorem exists_expression (hdelimiter : s.delimiter = [d]) (hd : Config.isDelimiter d = true)
    (h : ∀ part ∈ parts, part.isPlain (isSeparator [d]) = true)
    (hg : Gathered (isSeparator [d]) parts) (hslot : slot lead name optional ∈ parts)
    (dropEnd : Bool) : ∃ front, ∃ mark : Bool, ∃ t, Spelled t ∧
      s.expression (written parts) (tokens [d] (written parts)) true dropEnd =
        front ++ ')' :: Regex.Token.ending mark t := by
  have hne : parts ≠ [literal d] := by
    rintro rfl
    simp at hslot
  have hkept := List.rdropWhile_prefix (isLiteral (· == d)) parts
  obtain ⟨t, ht, hfollows⟩ := exists_follows hdelimiter hd (fun part hpart ↦ h part
    (hkept.subset hpart)) (mem_rdropWhile _ hslot)
  have hmark : '?' ∉ t := ht.not_mem (by decide)
  obtain ⟨front, mark, hbody⟩ := (Thins.requireBefore (separator [d]) _).follows hmark
    ((Thins.requireBefore "-" _).follows hmark ((Thins.requireBefore "/" _).follows hmark hfollows))
  rw [Setting.expression, hdelimiter, trimEnd_written hd, if_neg hne]
  dsimp only
  rw [replaceAll_written hdelimiter hd h hg hkept.isInfix, hbody]
  have hclosing : Spelled (if !dropEnd && parts.getLast? == some (literal d) then separator [d]
      else []) := by
    split
    · exact spelled_separator hd (by simp [isSeparator])
    · exact .nil
  refine ⟨front, mark, _, ht.append hclosing, ?_⟩
  simp only [Regex.Token.ending, List.append_assoc, List.cons_append, if_true]

end UrlRouting.Template

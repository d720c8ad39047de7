import UrlRouting.Proofs.Regex.Reading
import UrlRouting.Proofs.Template.Fragments

/-!
The expression of a rule in parts, after the passes over it. A pass makes a variable required before
a literal separator and changes nothing else (`requireBefore_parts`), so that the expression
consists of the fragments of parts again: `expression_written`.
-/

namespace UrlRouting.Template

open Template.Part
open Regex.Token (isVerbatim isVerbatim_of_forall ne_of_isVerbatim)

variable {s : Setting} {d : Char} {parts : List Part} {c x : Char} {name t front ends : Text}
  {optional : Bool} {lead : Option Char}

/-- A literal of a kind stands first. -/
def leads (p : Char → Bool) : List Part → Bool
  | literal c :: _ => p c
  | _ => false

theorem exists_of_leads (h : leads (· == x) parts = true) : ∃ rest, parts = literal x :: rest := by
  rw [leads.eq_def] at h
  split at h
  next c rest => exact ⟨rest, by rw [beq_iff_eq.mp h]⟩
  next => cases h

/-- Variables are required before the literals of a kind. -/
def settle (p : Char → Bool) : List Part → List Part
  | [] => []
  | literal c :: rest => literal c :: settle p rest
  | slot lead name optional :: rest => slot lead name (optional && !leads p rest) :: settle p rest

theorem leads_settle (p q : Char → Bool) (parts : List Part) :
    leads p (settle q parts) = leads p parts := by
  cases parts with
  | nil => rfl
  | cons part rest => cases part <;> rfl

theorem settle_settle (p q : Char → Bool) (parts : List Part) :
    settle p (settle q parts) = settle (fun c ↦ q c || p c) parts := by
  induction parts with
  | nil => rfl
  | cons part rest ih =>
    cases part with
    | literal c => rw [settle, settle, settle, ih]
    | slot lead name optional =>
      have hleads : leads (fun c ↦ q c || p c) rest = (leads q rest || leads p rest) := by
        cases rest with
        | nil => rfl
        | cons part rest => cases part <;> rfl
      rw [settle, settle, settle, ih, leads_settle, hleads, Bool.not_or, Bool.and_assoc]

theorem isPlain_settle {separates p : Char → Bool}
    (h : ∀ part ∈ parts, part.isPlain separates = true) :
    ∀ part ∈ settle p parts, part.isPlain separates = true := by
  induction parts with
  | nil => exact h
  | cons part rest ih =>
    obtain ⟨hpart, hrest⟩ := List.forall_mem_cons.mp h
    cases part with
    | literal c => exact List.forall_mem_cons.mpr ⟨hpart, ih hrest⟩
    | slot lead name optional => exact List.forall_mem_cons.mpr ⟨hpart, ih hrest⟩

/-! ### Separators in an expression -/

theorem isVerbatim_of_isWord (h : Text.isWord c = true) : isVerbatim c = true :=
  isVerbatim_of_forall (p := fun c ↦ Text.isWord c = true) (by decide) h

/-- A separator stands for itself, or a backslash stands before it. -/
theorem separator_singleton (c : Char) :
    separator [c] = [c] ∧ isVerbatim c = true ∨ separator [c] = ['\\', c] := by
  rw [separator]
  split
  next hc =>
    refine .inl ⟨rfl, ?_⟩
    simp only [Bool.or_eq_true, decide_eq_true_eq, List.cons.injEq, and_true] at hc
    rcases hc with rfl | rfl <;> decide
  next =>
    rw [escape, List.flatMap_singleton]
    split
    next => exact .inr rfl
    next hc =>
      exact .inl ⟨rfl, isVerbatim_of_forall (p := fun c ↦ ¬isSpecial c = true) (by decide) hc⟩

theorem fragment_literal (hdelimiter : s.delimiter = [d])
    (h : (literal c).isPlain (isSeparator [d]) = true) :
    s.fragment (literal c) = [c] ∧ isVerbatim c = true ∨
      s.fragment (literal c) = ['\\', c] ∧ c = d := by
  rw [Setting.fragment, hdelimiter]
  split
  next he =>
    obtain rfl := (List.cons.inj he).1
    exact (separator_singleton d).imp id fun hs ↦ ⟨hs, rfl⟩
  next hne =>
    refine .inl ⟨rfl, ?_⟩
    rw [isPlain, Bool.or_eq_true, isSeparator_singleton] at h
    rcases h with hc | rfl | rfl | rfl
    · exact isVerbatim_of_isWord hc
    · decide
    · decide
    · exact absurd rfl hne

theorem fragment_separator (hdelimiter : s.delimiter = [d]) (hx : isSeparator [d] x = true) :
    s.fragment (literal x) = separator [x] := by
  rw [Setting.fragment]
  split
  next => rfl
  next hne =>
    rcases isSeparator_singleton.mp hx with rfl | rfl | rfl
    · decide
    · decide
    · exact absurd hdelimiter hne

theorem fragment_word (hdelimiter : s.delimiter = [d]) (hd : Config.isDelimiter d = true)
    (hc : Text.isWord c = true) : s.fragment (literal c) = [c] := by
  rw [Setting.fragment, if_neg]
  intro he
  rw [← (List.cons.inj (hdelimiter.symm.trans he)).1, isWord_of_isDelimiter hd] at hc
  cases hc

theorem fragment_slot (s : Setting) (lead : Option Char) (name : Text) (optional : Bool) :
    s.fragment (slot lead name optional) = '(' :: (lead.elim [] (fun c ↦ separator [c]) ++
      ("(?P<".toList ++ name ++ s.ending ++ '>' :: s.inner name ++
        (')' :: ')' :: if optional then ['?'] else []))) := by
  simp only [Setting.fragment, Setting.group, List.cons_append, List.append_assoc,
    List.nil_append]

theorem head_fragments (hdelimiter : s.delimiter = [d]) (hd : Config.isDelimiter d = true)
    (h : ∀ part ∈ parts, part.isPlain (isSeparator [d]) = true) :
    (parts.flatMap s.fragment).head? ≠ some '?' := by
  cases parts with
  | nil => nofun
  | cons part rest =>
    rw [List.flatMap_cons]
    cases part with
    | slot lead name optional =>
      rw [fragment_slot]
      simp
    | literal c =>
      have hpart := h _ List.mem_cons_self
      have hc : c ≠ '?' := by
        rintro rfl
        rw [isPlain, isSeparator_mark hd (by simp), Bool.or_false] at hpart
        exact absurd hpart (by decide)
      rcases fragment_literal hdelimiter hpart with ⟨hf, -⟩ | ⟨hf, -⟩ <;> simp [hf, hc]

/-- A separator stands at the head of fragments where it is the first part. -/
theorem separator_prefix_iff (hdelimiter : s.delimiter = [d])
    (hx : isSeparator [d] x = true) (h : ∀ part ∈ parts, part.isPlain (isSeparator [d]) = true) :
    separator [x] <+: parts.flatMap s.fragment ↔ leads (· == x) parts = true := by
  cases parts with
  | nil =>
    rcases separator_singleton x with ⟨hs, -⟩ | hs <;> simp [hs, leads]
  | cons part rest =>
    rw [List.flatMap_cons]
    cases part with
    | slot lead name optional =>
      rw [fragment_slot]
      rcases separator_singleton x with ⟨hs, hx⟩ | hs
      · simp [hs, leads, ne_of_isVerbatim hx (x := '(') (by decide)]
      · simp [hs, leads]
    | literal c =>
      rw [leads, beq_iff_eq]
      constructor
      · intro hp
        rcases fragment_literal hdelimiter (h _ List.mem_cons_self) with
          ⟨hf, hc⟩ | ⟨hf, rfl⟩ <;>
          rcases separator_singleton x with ⟨hs, hx'⟩ | hs
        · rw [hf, hs] at hp
          exact (List.cons_prefix_cons.mp hp).1.symm
        · rw [hf, hs] at hp
          exact absurd (List.cons_prefix_cons.mp hp).1.symm (ne_of_isVerbatim hc (by decide))
        · rw [hf, hs] at hp
          exact absurd (List.cons_prefix_cons.mp hp).1 (ne_of_isVerbatim hx' (by decide))
        · rw [hf, hs] at hp
          exact (List.cons_prefix_cons.mp (List.cons_prefix_cons.mp hp).2).1.symm
      · rintro rfl
        rw [fragment_separator hdelimiter hx]
        exact List.prefix_append _ _

/-! ### The passes -/

theorem requireBefore_cons (h : c ≠ ')' ∨ t.head? ≠ some '?') :
    requireBefore ends (c :: t) = c :: requireBefore ends t := by
  refine Text.replace_cons ?_ _
  rintro ⟨u, hu⟩
  obtain ⟨hc, hu⟩ := List.cons.inj hu
  rcases h with h | h
  · exact h hc.symm
  · exact h (hu ▸ rfl)

theorem requireBefore_append (h : ')' ∉ front) :
    requireBefore ends (front ++ t) = front ++ requireBefore ends t := by
  induction front with
  | nil => rfl
  | cons c rest ih =>
    rw [List.mem_cons, not_or] at h
    rw [List.cons_append, requireBefore_cons (.inl (Ne.symm h.1)), ih h.2, List.cons_append]

theorem requireBefore_hit (ends t : Text) :
    requireBefore ends (')' :: '?' :: (ends ++ t)) = ')' :: (ends ++ requireBefore ends t) :=
  Text.replace_append (List.cons_ne_nil _ _) _ _

theorem requireBefore_miss (h : ¬ends <+: t) :
    requireBefore ends (')' :: '?' :: t) = ')' :: '?' :: requireBefore ends t := by
  have hmiss : ¬")?".toList ++ ends <+: ')' :: '?' :: t := fun hp ↦
    h (List.cons_prefix_cons.mp (List.cons_prefix_cons.mp hp).2).2
  rw [requireBefore, Text.replace_cons hmiss]
  exact congrArg _ (requireBefore_cons (.inl (by decide)))

/-- A pass leaves a character alone that may stand behind a backslash. -/
theorem requireBefore_single
    (hf : front = [c] ∧ isVerbatim c = true ∨ front = ['\\', c])
    (ht : t.head? ≠ some '?') :
    requireBefore ends (front ++ t) = front ++ requireBefore ends t := by
  rcases hf with ⟨rfl, hc⟩ | rfl
  · exact requireBefore_cons (.inl (ne_of_isVerbatim hc (by decide)))
  · rw [List.cons_append, List.singleton_append, requireBefore_cons (.inl (by decide)),
      requireBefore_cons (.inr ht)]
    rfl

/-- All up to the last parenthesis of a variable stays. -/
theorem requireBefore_slot (hname : ∀ c ∈ name, Text.isWord c = true)
    (hinner : ')' ∉ s.ending ++ s.inner name) (lead : Option Char) (ends t : Text) :
    requireBefore ends ('(' :: (lead.elim [] (fun c ↦ separator [c]) ++
        ("(?P<".toList ++ name ++ s.ending ++ '>' :: s.inner name ++ ')' :: ')' :: t))) =
      '(' :: (lead.elim [] (fun c ↦ separator [c]) ++
        ("(?P<".toList ++ name ++ s.ending ++ '>' :: s.inner name ++
          ')' :: requireBefore ends (')' :: t))) := by
  have hlead {t : Text} (ht : t.head? ≠ some '?') :
      requireBefore ends (lead.elim [] (fun c ↦ separator [c]) ++ t) =
        lead.elim [] (fun c ↦ separator [c]) ++ requireBefore ends t := by
    cases lead with
    | none => rfl
    | some c => exact requireBefore_single (separator_singleton c) ht
  have hclosed : ')' ∉ "(?P<".toList ++ name ++ s.ending ++ '>' :: s.inner name := by
    have hword : ')' ∉ name := fun hmem ↦ absurd (hname _ hmem) (by decide)
    rw [List.mem_append, not_or] at hinner
    simp [hinner, hword]
  rw [requireBefore_cons (.inl (by decide)), hlead (by simp), requireBefore_append hclosed,
    requireBefore_cons (.inr (by simp))]

section Passes

variable (hdelimiter : s.delimiter = [d]) (hd : Config.isDelimiter d = true)
  (hx : isSeparator [d] x = true) (h : ∀ part ∈ parts, part.isPlain (isSeparator [d]) = true)

include hdelimiter hd hx h

/-- Behind the last parenthesis of a variable, the mark is left out where the separator follows. -/
theorem requireBefore_mark (optional : Bool) : requireBefore (separator [x])
      (')' :: ((if optional then ['?'] else []) ++ parts.flatMap s.fragment)) =
    ')' :: ((if optional && !leads (· == x) parts then ['?'] else []) ++
      requireBefore (separator [x]) (parts.flatMap s.fragment)) := by
  cases optional with
  | false => exact requireBefore_cons (.inr (head_fragments hdelimiter hd h))
  | true =>
    rw [if_pos rfl, Bool.true_and, List.singleton_append]
    cases hl : leads (· == x) parts with
    | true =>
      obtain ⟨rest, rfl⟩ := exists_of_leads hl
      have hrest := head_fragments hdelimiter hd (List.forall_mem_cons.mp h).2
      rw [List.flatMap_cons, fragment_separator hdelimiter hx, requireBefore_hit,
        requireBefore_single (separator_singleton x) hrest]
      rfl
    | false =>
      refine requireBefore_miss fun hp ↦ ?_
      rw [(separator_prefix_iff hdelimiter hx h).mp hp] at hl
      cases hl

theorem requireBefore_parts (hinner : ∀ lead name optional, slot lead name optional ∈ parts →
      ')' ∉ s.ending ++ s.inner name) :
    requireBefore (separator [x]) (parts.flatMap s.fragment) =
      (settle (· == x) parts).flatMap s.fragment := by
  induction parts with
  | nil => rfl
  | cons part rest ih =>
    obtain ⟨hpart, hrest⟩ := List.forall_mem_cons.mp h
    have hrest' := ih hrest fun lead name optional hmem ↦ hinner lead name optional
      (List.mem_cons_of_mem _ hmem)
    rw [List.flatMap_cons]
    cases part with
    | literal c =>
      have hf := (fragment_literal hdelimiter hpart).imp id And.left
      rw [settle, List.flatMap_cons, requireBefore_single hf (head_fragments hdelimiter hd hrest),
        hrest']
    | slot lead name optional =>
      have hslot := requireBefore_slot (isPlain_slot.mp hpart).2.2
        (hinner _ _ _ List.mem_cons_self) lead (separator [x])
      have hmark := requireBefore_mark hdelimiter hd hx hrest optional
      rw [settle, List.flatMap_cons, fragment_slot, fragment_slot, ← hrest']
      simp only [List.cons_append, List.append_assoc] at hslot hmark ⊢
      rw [hslot, hmark]

end Passes

theorem exists_of_mem_settle {p : Char → Bool} (h : slot lead name optional ∈ settle p parts) :
    ∃ optional', slot lead name optional' ∈ parts := by
  induction parts with
  | nil => cases h
  | cons part rest ih =>
    cases part with
    | literal c =>
      rcases List.mem_cons.mp h with he | h
      · cases he
      · exact (ih h).imp fun _ ↦ List.mem_cons_of_mem _
    | slot lead' name' optional' =>
      rcases List.mem_cons.mp h with he | h
      · cases he
        exact ⟨optional', List.mem_cons_self⟩
      · exact (ih h).imp fun _ ↦ List.mem_cons_of_mem _

theorem passes_parts (hdelimiter : s.delimiter = [d]) (hd : Config.isDelimiter d = true)
    (hinner : ∀ lead name optional, slot lead name optional ∈ parts →
      ')' ∉ s.ending ++ s.inner name)
    (h : ∀ part ∈ parts, part.isPlain (isSeparator [d]) = true) :
    requireBefore (separator [d])
        (requireBefore "-" (requireBefore "/" (parts.flatMap s.fragment))) =
      (settle (isSeparator [d]) parts).flatMap s.fragment := by
  have hset : ∀ {p : Char → Bool}, ∀ lead name optional,
      slot lead name optional ∈ settle p parts → ')' ∉ s.ending ++ s.inner name :=
    fun lead name _ hmem ↦
      let ⟨optional', hmem'⟩ := exists_of_mem_settle hmem
      hinner lead name optional' hmem'
  have hslash := requireBefore_parts hdelimiter hd (x := '/') (by simp [isSeparator]) h hinner
  have hhyphen := requireBefore_parts hdelimiter hd (x := '-') (by simp [isSeparator])
    (isPlain_settle (p := (· == '/')) h) hset
  rw [settle_settle] at hhyphen
  have hlast := requireBefore_parts hdelimiter hd (x := d) (by simp [isSeparator])
    (isPlain_settle (p := fun c ↦ c == '/' || c == '-') h) hset
  have hall : (fun c ↦ (c == '/' || c == '-') || c == d) = isSeparator [d] := by
    funext c
    simp [isSeparator, Bool.beq_eq_decide_eq]
  rw [settle_settle, hall] at hlast
  rw [← hlast, ← hhyphen, ← hslash]
  rfl

/-! ### The whole expression -/

/-- The parts that the expression of a rule consists of: those of the rule without delimiters at the
end, and one delimiter where the expression has to ask for it. -/
def standing (d : Char) (dropEnd : Bool) (parts : List Part) : List Part :=
  if parts = [literal d] then parts
  else settle (isSeparator [d]) (parts.rdropWhile (isLiteral (· == d))) ++
    if !dropEnd && parts.getLast? == some (literal d) then [literal d] else []

theorem written_eq_singleton (hd : d ≠ '<') : written parts = [d] ↔ parts = [literal d] := by
  refine ⟨fun h ↦ ?_, fun h ↦ h ▸ rfl⟩
  cases parts with
  | nil => cases h
  | cons part rest =>
    cases part with
    | literal c =>
      obtain ⟨rfl, hrest⟩ := List.cons.inj h
      cases rest with
      | nil => rfl
      | cons other rest =>
        exact absurd hrest (List.append_ne_nil_of_left_ne_nil other.text_ne_nil _)
    | slot lead name optional =>
      have hlength := congrArg List.length h
      cases lead <;> cases optional <;> simp [text, Shorthand.canonical] at hlength

theorem endsWith_written (hd : d ≠ '>') :
    Text.endsWith (written parts) [d] = (parts.getLast? == some (literal d)) := by
  rw [Bool.eq_iff_iff, Text.endsWith_iff, beq_iff_eq]
  induction parts using List.reverseRecOn with
  | nil => simp
  | append_singleton init part _ =>
    rw [List.getLast?_concat, written_append, written_cons, written_nil, List.append_nil,
      Option.some_inj]
    cases part with
    | literal c =>
      rw [text]
      constructor
      · rintro ⟨front, hfront⟩
        rw [(List.cons.inj (List.append_inj_right' hfront rfl)).1]
      · intro he
        cases he
        exact List.suffix_append _ _
    | slot lead name optional =>
      obtain ⟨front, hfront⟩ := exists_text_slot lead name optional
      constructor
      · rintro ⟨init', hinit⟩
        rw [hfront, ← List.append_assoc] at hinit
        exact absurd (List.cons.inj (List.append_inj_right' hinit rfl)).1 hd
      · intro he
        cases he

theorem trimEnd_written (hd : Config.isDelimiter d = true) (dropEnd : Bool) :
    trimEnd [d] dropEnd (written parts) =
      if parts = [literal d] then (written parts, false)
      else (written (parts.rdropWhile (isLiteral (· == d))),
        !dropEnd && parts.getLast? == some (literal d)) := by
  have hne : d ≠ '<' ∧ d ≠ '>' := by
    constructor <;>
      · rintro rfl
        exact absurd hd (by decide)
  have hcontains : (fun c ↦ [d].contains c) = fun c ↦ c == d := by
    funext c
    simp [Bool.beq_eq_decide_eq]
  have htrim : Text.trimRight [d].contains (written parts) =
      written (parts.rdropWhile (isLiteral (· == d))) := by
    rw [show [d].contains = fun c ↦ c == d from hcontains,
      trimRight_written (by simpa using Ne.symm hne.2)]
  rw [trimEnd, endsWith_written hne.2, htrim]
  by_cases hone : parts = [literal d]
  · rw [if_pos ((written_eq_singleton hne.1).mpr hone), if_pos hone]
  · rw [if_neg (mt (written_eq_singleton hne.1).mp hone), if_neg hone]
    cases dropEnd with
    | true => rfl
    | false =>
      rw [if_neg (by decide)]
      split
      next hlast => rw [hlast]; rfl
      next hlast =>
        rw [Bool.eq_false_iff.mpr hlast]
        have hkeep : parts.rdropWhile (isLiteral (· == d)) = parts := by
          rw [List.rdropWhile_eq_self_iff]
          intro hnil hlit
          refine hlast ?_
          rw [List.getLast?_eq_some_getLast hnil, beq_iff_eq]
          cases hl : parts.getLast hnil with
          | literal c =>
            rw [hl] at hlit
            rw [beq_iff_eq.mp hlit]
          | slot lead name optional =>
            rw [hl] at hlit
            cases hlit
        rw [hkeep]
        rfl

theorem expression_written (hdelimiter : s.delimiter = [d]) (hd : Config.isDelimiter d = true)
    (hinner : ∀ lead name optional, slot lead name optional ∈ parts →
      ')' ∉ s.ending ++ s.inner name)
    (h : ∀ part ∈ parts, part.isPlain (isSeparator [d]) = true)
    (hg : Gathered (isSeparator [d]) parts) (complete dropEnd : Bool) :
    s.expression (written parts) (tokens [d] (written parts)) complete dropEnd =
      (standing d dropEnd parts).flatMap s.fragment ++ if complete then ['$'] else [] := by
  have hpart (more : List Part) (hmore : more <:+: parts) :
      requireBefore (separator [d]) (requireBefore "-" (requireBefore "/"
        (replaceAll (s.replacements (tokens [d] (written parts))) (written more)))) =
      (settle (isSeparator [d]) more).flatMap s.fragment := by
    rw [replaceAll_written hdelimiter hd h hg hmore,
      passes_parts hdelimiter hd (fun lead name optional hmem ↦
        hinner lead name optional (hmore.mem hmem)) fun part hmem ↦ h part (hmore.mem hmem)]
  have hsep := fragment_separator hdelimiter (x := d) (by simp [isSeparator])
  rw [Setting.expression, hdelimiter, trimEnd_written hd, standing]
  by_cases hone : parts = [literal d]
  · rw [if_pos hone, if_pos hone]
    dsimp only
    rw [hpart parts List.infix_rfl, hone]
    simp [settle]
  · rw [if_neg hone, if_neg hone]
    dsimp only
    rw [hpart _ (List.rdropWhile_prefix _ _).isInfix, List.flatMap_append]
    split
    next => rw [List.flatMap_singleton, hsep]
    next => simp

end UrlRouting.Template

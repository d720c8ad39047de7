import UrlRouting.Proofs.Regex.Leading
import UrlRouting.Proofs.Template.Ending
import UrlRouting.Proofs.Template.Parsed

/-!
The text before the first variable of a rule string, whatever comes after it. If its characters are
inert, the tokens go on with the variable (`suffix_tokens`), and nothing in it is replaced but the
delimiter (`replaceAll_head`). So the expression begins with these characters and the parenthesis of
the variable: `exists_expression_head`.
-/

namespace UrlRouting.Template

open Template.Part
open Regex.Token (isVerbatim)

variable {s : Setting} {d c x : Char} {head t u more after : Text} {lead : Option Char}
  {name : Text} {optional : Bool} {v : Variable} {ts : List Text}

/-! ### Where the first variable begins -/

theorem dropChar_cases (mark : Char) (t : Text) :
    t = dropChar mark t ∨ t = mark :: dropChar mark t := by
  cases t with
  | nil => exact .inl rfl
  | cons c rest =>
    rw [dropChar]
    split
    next hc => exact .inr (by rw [hc])
    next => exact .inl rfl

theorem dropChar_suffix (mark : Char) (t : Text) : dropChar mark t <:+ t := by
  rcases dropChar_cases mark t with h | h
  · exact ⟨[], h.symm⟩
  · exact ⟨[mark], h.symm⟩

theorem exists_of_afterVariable? (h : afterVariable? t = some after) :
    ∃ name optional, (slot none name optional).isPlain (isSeparator [d]) = true ∧
      t = (slot none name optional).text ++ after := by
  rw [afterVariable?.eq_def] at h
  split at h
  next inner =>
    dsimp only at h
    split at h
    next hlength =>
      split at h
      next rest hmark =>
        cases h
        have hinner := List.takeWhile_append_dropWhile (p := Text.isWord) (l := inner)
        have hplain (optional : Bool) : (slot none (inner.takeWhile Text.isWord) optional).isPlain
            (isSeparator [d]) = true := by
          refine isPlain_slot.mpr
            ⟨fun _ he ↦ (by cases he), fun hnil ↦ ?_, fun c hc ↦ List.mem_takeWhile_imp hc⟩
          rw [hnil, List.nil_append] at hinner
          rw [hinner] at hlength
          exact Nat.lt_irrefl _ hlength
        have hsame := dropChar_cases '?' (inner.dropWhile Text.isWord)
        rw [hmark] at hsame
        rcases hsame with hsame | hsame
        all_goals
          rw [hsame] at hinner
        · exact ⟨_, false, hplain false, by simp [text, Shorthand.canonical, hinner]⟩
        · exact ⟨_, true, hplain true, by simp [text, Shorthand.canonical, hinner]⟩
      next => cases h
    next => cases h
  next => cases h

theorem exists_of_afterSeparated? (h : afterSeparated? [d] afterVariable? t = some after) :
    ∃ lead name optional, (slot lead name optional).isPlain (isSeparator [d]) = true ∧
      t = (slot lead name optional).text ++ after := by
  have hbare (h : afterVariable? t = some after) :
      ∃ lead name optional, (slot lead name optional).isPlain (isSeparator [d]) = true ∧
        t = (slot lead name optional).text ++ after := ⟨none, exists_of_afterVariable? h⟩
  cases t with
  | nil => cases h
  | cons c rest =>
    rw [afterSeparated?] at h
    split at h
    next hc =>
      split at h
      next more hmore =>
        cases h
        obtain ⟨name, optional, hplain, rfl⟩ := exists_of_afterVariable? (d := d) hmore
        obtain ⟨-, hname⟩ := isPlain_slot.mp hplain
        exact ⟨some c, name, optional, isPlain_slot.mpr ⟨fun _ he ↦ Option.some.inj he ▸ hc, hname⟩,
          rfl⟩
      next => exact hbare h
    next => exact hbare h

/-- A variable takes the separator before it with it. -/
def Adjoins (d : Char) (head : Text) (lead : Option Char) : Prop :=
  ∀ front c, head = front ++ [c] → lead = none → isSeparator [d] c = false

theorem Adjoins.of_append (h : Adjoins d (t ++ head) lead) : Adjoins d head lead :=
  fun front c hhead ↦ h (t ++ front) c (by rw [hhead, List.append_assoc])

/-- A rule string without a variable is literal all through, another one up to the first. -/
theorem literalHead_cases (d : Char) (t : Text) : literalHead [d] t = t ∨
    ∃ lead name optional more, (slot lead name optional).isPlain (isSeparator [d]) = true ∧
      t = literalHead [d] t ++ ((slot lead name optional).text ++ more) ∧
      Adjoins d (literalHead [d] t) lead := by
  induction t with
  | nil => exact .inl rfl
  | cons c rest ih =>
    rw [literalHead]
    split
    next after hafter =>
      obtain ⟨lead, name, optional, hplain, htext⟩ := exists_of_afterSeparated? hafter
      exact .inr ⟨lead, name, optional, after, hplain, htext, fun front c hnil ↦ by simp at hnil⟩
    next hnone =>
      refine ih.imp (congrArg (c :: ·)) fun hvariable ↦ ?_
      obtain ⟨lead, name, optional, more, hplain, htext, hadjoins⟩ := hvariable
      refine ⟨lead, name, optional, more, hplain, by rw [List.cons_append, ← htext], ?_⟩
      intro front x hfront hlead
      cases front with
      | cons y front => exact hadjoins front x (List.cons.inj hfront).2 hlead
      | nil =>
        obtain ⟨rfl, hnil⟩ := List.cons.inj hfront
        rw [hnil, List.nil_append, hlead] at htext
        obtain ⟨-, hne, hname⟩ := isPlain_slot.mp hplain
        refine Bool.eq_false_iff.mpr fun hc ↦ ?_
        have hsome : afterSeparated? [d] afterVariable?
            (c :: ((slot none name optional).text ++ more)) = some more :=
          afterSeparated?_of_separator hc (afterVariable?_canonical hne hname optional more)
        rw [htext, hsome] at hnone
        cases hnone

/-! ### Tokens -/

/-- The character stands for itself in an expression, if need be behind a backslash, and begins no
variable. -/
def isInert (d c : Char) : Bool := c != '<' && (c == d || isVerbatim c)

theorem ne_of_isInert (hd : Config.isDelimiter d = true) (h : isInert d c = true) :
    c ≠ '<' ∧ c ≠ '?' := by
  simp only [isInert, Bool.and_eq_true, bne_iff_ne, Bool.or_eq_true, beq_iff_eq] at h
  refine ⟨h.1, ?_⟩
  rintro rfl
  rcases h.2 with rfl | h
  · exact absurd hd (by decide)
  · exact absurd h (by decide)

theorem dropWhile_append_cons {p : Char → Bool} {x : Char} (hx : p x = false) (t u : Text) :
    (t ++ x :: u).dropWhile p = t.dropWhile p ++ x :: u := by
  rw [List.dropWhile_append, List.dropWhile_cons_of_neg (by simp [hx])]
  split
  next hnil => rw [List.isEmpty_iff.mp hnil, List.nil_append]
  next => rfl

theorem dropChar_append {mark : Char} (h : c ≠ mark) (t u : Text) :
    dropChar mark (t ++ c :: u) = dropChar mark t ++ c :: u := by
  cases t with
  | nil => exact dropChar_cons_of_ne h u
  | cons x rest =>
    rw [List.cons_append, dropChar, dropChar]
    split <;> rfl

section Head

variable (hd : Config.isDelimiter d = true)
  (hslot : (slot lead name optional).isPlain (isSeparator [d]) = true)

include hd hslot

theorem exists_cons_text : ∃ x u, (slot lead name optional).text = x :: u ∧
    Text.isWord x = false ∧ x ≠ '?' ∧ x ≠ '>' := by
  cases lead with
  | none => exact ⟨'<', _, rfl, by decide, by decide, by decide⟩
  | some x =>
    have hx := (isPlain_slot.mp hslot).1 x rfl
    have hne {z : Char} (hz : z ∈ ['<', '>', '?']) : x ≠ z := by
      rintro rfl
      rw [isSeparator_mark hd hz] at hx
      cases hx
    exact ⟨x, _, rfl, isWord_eq_false hd hx, hne (by decide), hne (by decide)⟩

/-- A word in the head ends there. -/
theorem exists_of_afterWord? (hhead : ∀ c ∈ head, isInert d c = true) (hne : head ≠ [])
    (h : afterWord? (head ++ ((slot lead name optional).text ++ more)) = some after) :
    ∃ token rest, head = token ++ rest ∧ token ≠ [] ∧
      after = rest ++ ((slot lead name optional).text ++ more) := by
  obtain ⟨x, u, htext, hword, hask, hclose⟩ := exists_cons_text hd hslot
  rw [htext, List.cons_append] at h ⊢
  generalize u ++ more = u at h ⊢
  have hmark {rest : Text} (hrest : rest <:+ head) : (rest ++ x :: u).head? ≠ some '?' := by
    cases rest with
    | nil => exact fun he ↦ hask (Option.some.inj he)
    | cons c rest =>
      exact fun he ↦ (ne_of_isInert hd (hhead c (hrest.mem List.mem_cons_self))).2
        (Option.some.inj he)
  have hopen : (head ++ x :: u).head? ≠ some '<' := by
    cases head with
    | nil => exact absurd rfl hne
    | cons c rest =>
      exact fun he ↦ (ne_of_isInert hd (hhead c List.mem_cons_self)).1 (Option.some.inj he)
  have hsplit := List.takeWhile_append_dropWhile (p := Text.isWord) (l := head)
  rw [afterWord?, dropChar_of_head hopen, dropWhile_append_cons hword] at h
  split at h
  next hlength =>
    rw [dropChar_of_head (hmark (List.dropWhile_suffix _))] at h
    have htoken : head.takeWhile Text.isWord ≠ [] := by
      intro hnil
      rw [hnil, List.nil_append] at hsplit
      rw [hsplit] at hlength
      exact Nat.lt_irrefl _ hlength
    obtain ⟨closing, hrest⟩ := dropChar_suffix '>' (head.dropWhile Text.isWord)
    rw [dropChar_append hclose] at h
    refine ⟨head.takeWhile Text.isWord ++ closing, _, ?_, ?_, (Option.some.inj h).symm⟩
    · rw [List.append_assoc, hrest, hsplit]
    · exact List.append_ne_nil_of_left_ne_nil htoken _
  next => cases h

/-- A token in the head ends there. -/
theorem exists_of_afterSeparated (hhead : ∀ x ∈ c :: head, isInert d x = true)
    (hadjoins : Adjoins d (c :: head) lead)
    (h : afterSeparated? [d] afterWord? (c :: (head ++ ((slot lead name optional).text ++ more))) =
      some after) : ∃ token rest, c :: head = token ++ rest ∧ token ≠ [] ∧
      after = rest ++ ((slot lead name optional).text ++ more) := by
  have hbare (h : afterWord? (c :: (head ++ ((slot lead name optional).text ++ more))) =
      some after) : ∃ token rest, c :: head = token ++ rest ∧ token ≠ [] ∧
      after = rest ++ ((slot lead name optional).text ++ more) :=
    exists_of_afterWord? hd hslot hhead (List.cons_ne_nil _ _) h
  rw [afterSeparated?] at h
  split at h
  next hc =>
    split at h
    next rest hrest =>
      cases h
      cases head with
      | nil =>
        -- a separator goes with a word that follows it, but not with a variable
        cases lead with
        | none =>
          rw [hadjoins [] c rfl rfl] at hc
          cases hc
        | some x =>
          have hx := (isPlain_slot.mp hslot).1 x rfl
          have hnone : afterWord? ((slot (some x) name optional).text ++ more) = none := by
            refine afterWord?_eq_none (fun he ↦ ?_) fun c he ↦ ?_
            · rw [Option.some.inj he, isSeparator_mark hd (by decide)] at hx
              cases hx
            · exact Option.some.inj he ▸ isWord_eq_false hd hx
          rw [List.nil_append, hnone] at hrest
          cases hrest
      | cons y head =>
        obtain ⟨token, rest, htoken, -, rfl⟩ := exists_of_afterWord? hd hslot
          (fun x hx ↦ hhead x (List.mem_cons_of_mem _ hx)) (List.cons_ne_nil _ _) hrest
        exact ⟨c :: token, rest, by rw [htoken, List.cons_append], List.cons_ne_nil _ _, rfl⟩
    next => exact hbare h
  next => exact hbare h

/-- The tokens of a rule string go on with those from its first variable on. -/
theorem suffix_tokens (hhead : ∀ c ∈ head, isInert d c = true) (hadjoins : Adjoins d head lead) :
    tokens [d] ((slot lead name optional).text ++ more) <:+
      tokens [d] (head ++ ((slot lead name optional).text ++ more)) := by
  induction hl : head.length using Nat.strongRecOn generalizing head with
  | ind length ih =>
    subst hl
    cases head with
    | nil => exact List.suffix_rfl
    | cons c rest =>
      cases htoken : afterSeparated? [d] afterWord?
        (c :: (rest ++ ((slot lead name optional).text ++ more))) with
      | none =>
        rw [List.cons_append, tokens_cons htoken]
        exact ih rest.length (Nat.lt_succ_self _) (fun x hx ↦ hhead x (List.mem_cons_of_mem _ hx))
          (hadjoins.of_append (t := [c])) rfl
      | some after =>
        obtain ⟨token, last, hsplit, hne, rfl⟩ :=
          exists_of_afterSeparated hd hslot hhead hadjoins htoken
        have hlength : last.length < (c :: rest).length := by
          rw [hsplit, List.length_append]
          exact Nat.lt_add_of_pos_left (List.length_pos_iff.mpr hne)
        have hmore := ih last.length hlength
          (fun x hx ↦ hhead x (by rw [hsplit]; exact List.mem_append_right _ hx))
          (by rw [hsplit] at hadjoins; exact hadjoins.of_append) rfl
        rw [← List.cons_append, hsplit, List.append_assoc] at htoken
        rw [hsplit, List.append_assoc, tokens_append hne htoken]
        exact hmore.trans (List.suffix_cons _ _)

theorem text_mem_tokens (hhead : ∀ c ∈ head, isInert d c = true) (hadjoins : Adjoins d head lead)
    (more : Text) : (slot lead name optional).text ∈
      tokens [d] (head ++ ((slot lead name optional).text ++ more)) := by
  refine (suffix_tokens hd hslot hhead hadjoins).mem ?_
  rw [tokens_slot hd hslot]
  exact List.mem_cons_self

end Head

/-! ### Variables among the tokens -/

theorem separator_of_ofBrackets? {ends : Text} (h : Variable.ofBrackets? ends t = some v) :
    v.separator = ends ∧ t.head? = some '<' := by
  rw [Variable.ofBrackets?.eq_def] at h
  repeat' split at h
  all_goals
    cases h
  all_goals exact ⟨rfl, rfl⟩

theorem separator_of_ofToken? (h : Variable.ofToken? [d] t = some v) :
    v.separator = [] ∨ ∃ c, v.separator = separator [c] := by
  cases t with
  | nil => cases h
  | cons c rest =>
    rw [Variable.ofToken?] at h
    split at h
    next => exact .inr ⟨c, (separator_of_ofBrackets? h).1⟩
    next => exact .inl (separator_of_ofBrackets? h).1

/-- A token that is a variable begins with a bracket, or with a separator before it. -/
theorem bracket_of_ofToken? (h : Variable.ofToken? [d] t = some v) :
    t.head? = some '<' ∨ ∃ c rest, t = c :: rest ∧ isSeparator [d] c = true ∧
      rest.head? = some '<' := by
  cases t with
  | nil => cases h
  | cons c rest =>
    rw [Variable.ofToken?] at h
    split at h
    next hc =>
      refine .inr ⟨c, rest, rfl, isSeparator_singleton.mpr ?_, (separator_of_ofBrackets? h).2⟩
      simp only [Bool.or_eq_true, decide_eq_true_eq, List.cons.injEq, and_true, or_assoc] at hc
      exact hc.imp_right (Or.imp_right Eq.symm)
    next => exact .inl (separator_of_ofBrackets? h).2

/-- The group of a variable is a plain parenthesis. -/
theorem exists_group (s : Setting) (h : Variable.ofToken? [d] t = some v) :
    ∃ x u, x ≠ '?' ∧ s.group v = '(' :: x :: u := by
  have hgroup : s.group v = '(' :: (v.separator ++ '(' :: ("?P<".toList ++ v.name ++ s.ending ++
      '>' :: s.inner v.name ++ [')', ')'] ++ if v.optional then ['?'] else [])) := by
    simp [Setting.group]
  rw [hgroup]
  rcases separator_of_ofToken? h with hnone | ⟨c, hc⟩
  · exact ⟨'(', _, by decide, by rw [hnone, List.nil_append]⟩
  · rw [hc]
    rcases separator_singleton c with ⟨hs, hverbatim⟩ | hs
    · exact ⟨c, _, Regex.Token.ne_of_isVerbatim hverbatim (by decide),
        by rw [hs, List.singleton_append]⟩
    · exact ⟨'\\', _, by decide, by rw [hs, List.cons_append]⟩

section Expression

variable (hdelimiter : s.delimiter = [d]) (hd : Config.isDelimiter d = true)
  (hslot : (slot lead name optional).isPlain (isSeparator [d]) = true)

include hdelimiter hd hslot

/-- Of the text before the variable, only delimiters are replaced. -/
theorem replaceAll_head (hhead : ∀ c ∈ head, isInert d c = true) (hadjoins : Adjoins d head lead)
    (ts : List Text) :
    replaceAll (s.replacements ts) (head ++ ((slot lead name optional).text ++ more)) =
      (head.map literal).flatMap s.fragment ++
        replaceAll (s.replacements ts) ((slot lead name optional).text ++ more) := by
  induction head with
  | nil => rfl
  | cons c rest ih =>
    obtain ⟨hc, hrest⟩ := List.forall_mem_cons.mp hhead
    -- no variable begins at the character
    have hvariable {t : Text} {v : Variable} (hv : Variable.ofToken? [d] t = some v) :
        ¬t <+: c :: (rest ++ ((slot lead name optional).text ++ more)) := by
      rintro ⟨u, hu⟩
      rcases bracket_of_ofToken? hv with hbracket | ⟨x, t, rfl, hx, hbracket⟩
      · cases t with
        | nil => cases hbracket
        | cons x t =>
          obtain ⟨rfl, -⟩ := List.cons.inj hu
          exact (ne_of_isInert hd hc).1 (Option.some.inj hbracket)
      · rw [List.cons_append] at hu
        obtain ⟨rfl, ht⟩ := List.cons.inj hu
        have hnext : (rest ++ ((slot lead name optional).text ++ more)).head? = some '<' := by
          rw [← ht, List.head?_append, hbracket, Option.some_or]
        cases rest with
        | cons y rest =>
          exact (ne_of_isInert hd (hrest y List.mem_cons_self)).1 (Option.some.inj hnext)
        | nil =>
          cases lead with
          | none =>
            rw [hadjoins [] x rfl rfl] at hx
            cases hx
          | some y =>
            have hy := (isPlain_slot.mp hslot).1 y rfl
            rw [Option.some.inj hnext, isSeparator_mark hd (by decide)] at hy
            cases hy
    rw [List.map_cons, List.flatMap_cons, List.append_assoc,
      ← ih hrest (hadjoins.of_append (t := [c])), List.cons_append]
    exact replaceAll_literal hdelimiter hd fun token v _ hv ↦ hvariable hv

/-- The variable becomes a group. -/
theorem exists_replaceAll_slot (htoken : (slot lead name optional).text ∈ ts) (more : Text) :
    ∃ x u, x ≠ '?' ∧ replaceAll (s.replacements ts) ((slot lead name optional).text ++ more) =
      '(' :: x :: u := by
  obtain ⟨hlead, -, hname⟩ := isPlain_slot.mp hslot
  have hopen : d ≠ '<' := by
    rintro rfl
    exact absurd hd (by decide)
  have hlength : 1 < (slot lead name optional).text.length := by
    cases lead <;> cases optional <;> simp [text, Shorthand.canonical]
  obtain ⟨new, hnew⟩ := exists_mem_replacements hdelimiter htoken
    (ofToken?_slot ((Option.all_eq_true _ _).mpr hlead) hopen hname)
  obtain ⟨longest, hlongest, hle⟩ :=
    exists_foldl_longer none (.inr ⟨hnew, List.prefix_append _ more⟩)
  obtain ⟨hin, -⟩ := (foldl_longer_eq_some hlongest).resolve_left fun he ↦ by cases he
  rcases mem_replacements hdelimiter hin with ⟨v, -, hv, hgroup⟩ | ⟨rfl, -⟩
  · obtain ⟨x, u, hx, hu⟩ := exists_group s hv
    cases htext : (slot lead name optional).text ++ more with
    | nil => exact absurd (List.append_eq_nil_iff.mp htext).1 (Part.text_ne_nil _)
    | cons c rest =>
      rw [← longestAt?_eq_foldl, htext] at hlongest
      refine ⟨x, u ++ replaceAllAfter (s.replacements ts) (longest.1.length - 1) rest, hx, ?_⟩
      rw [replaceAll, replaceAllAfter, hlongest]
      dsimp only
      rw [hgroup, hu, List.cons_append, List.cons_append]
  · exact absurd (hlength.trans_le hle) (by simp)

end Expression

/-! ### The beginning of an expression -/

theorem Thins.exists_cons (h : Thins (c :: t) u) : ∃ rest, u = c :: rest := by
  cases h <;> exact ⟨_, rfl⟩

theorem requireBefore_head (ends : Text) (h : '?' ∉ head) :
    requireBefore ends (head ++ '(' :: t) = head ++ '(' :: requireBefore ends t := by
  induction head with
  | nil => exact requireBefore_cons (.inl (by decide))
  | cons c rest ih =>
    rw [List.mem_cons, not_or] at h
    rw [List.cons_append, requireBefore_cons (.inr ?_), ih h.2, List.cons_append]
    cases rest with
    | nil => simp
    | cons x rest => exact fun he ↦ h.2 (Option.some.inj he ▸ List.mem_cons_self)

/-- A pass begins with the same characters up to the one behind the parenthesis. -/
theorem exists_requireBefore (ends : Text) (h : '?' ∉ head) (x : Char) (u : Text) : ∃ u',
    requireBefore ends (head ++ '(' :: x :: u) = head ++ '(' :: x :: u' := by
  obtain ⟨u', hu⟩ := (Thins.requireBefore ends (x :: u)).exists_cons
  exact ⟨u', by rw [requireBefore_head ends h, hu]⟩

theorem exists_trimRight {p : Char → Bool} (hx : p x = false) (t u : Text) :
    ∃ u', Text.trimRight p (t ++ [x] ++ u) = t ++ [x] ++ u' := by
  induction u using List.reverseRecOn with
  | nil => exact ⟨[], by rw [List.append_nil, trimRight_append_cons hx]⟩
  | append_singleton u c ih =>
    rw [← List.append_assoc]
    cases hc : p c with
    | true => rwa [trimRight_append_of_pos hc]
    | false => exact ⟨u ++ [c], by rw [trimRight_append_cons hc, List.append_assoc _ u]⟩

theorem exists_trimEnd (hd : Config.isDelimiter d = true) (dropEnd : Bool) (t more : Text) :
    ∃ more', (trimEnd [d] dropEnd (t ++ ((slot lead name optional).text ++ more))).1 =
      t ++ ((slot lead name optional).text ++ more') := by
  have hclose : [d].contains '>' = false := by
    refine Bool.eq_false_iff.mpr fun hmem ↦ ?_
    rw [← List.mem_singleton.mp (List.contains_iff_mem.mp hmem)] at hd
    exact absurd hd (by decide)
  obtain ⟨front, hfront⟩ := exists_text_slot lead name optional
  have htrim : ∃ more', Text.trimRight [d].contains
      (t ++ ((slot lead name optional).text ++ more)) =
        t ++ ((slot lead name optional).text ++ more') := by
    obtain ⟨more', hmore⟩ := exists_trimRight hclose (t ++ front) more
    refine ⟨more', ?_⟩
    rw [hfront]
    simpa only [List.append_assoc] using hmore
  rw [trimEnd]
  split
  next => exact ⟨more, rfl⟩
  next =>
    split
    next => exact htrim
    next =>
      split
      next => exact htrim
      next => exact ⟨more, rfl⟩

theorem fragment_of_isInert (hdelimiter : s.delimiter = [d]) (h : isInert d c = true) :
    s.fragment (literal c) = [c] ∧ isVerbatim c = true ∨
      s.fragment (literal c) = separator [c] ∧ c = d := by
  rw [Setting.fragment, hdelimiter]
  split
  next he => exact .inr ⟨rfl, (List.cons.inj he).1.symm⟩
  next hne =>
    simp only [isInert, Bool.and_eq_true, Bool.or_eq_true, beq_iff_eq] at h
    exact .inl ⟨rfl, h.2.resolve_left fun he ↦ hne (he ▸ rfl)⟩

section Head

variable (hdelimiter : s.delimiter = [d]) (hd : Config.isDelimiter d = true)
  (hhead : ∀ c ∈ head, isInert d c = true)

include hdelimiter hd hhead

theorem not_mem_literals : '?' ∉ (head.map literal).flatMap s.fragment := by
  rw [List.flatMap_map, List.mem_flatMap]
  rintro ⟨c, hc, hmem⟩
  have hne := (ne_of_isInert hd (hhead c hc)).2
  rcases fragment_of_isInert hdelimiter (hhead c hc) with ⟨hf, -⟩ | ⟨hf, -⟩
  · rw [hf] at hmem
    exact hne (List.mem_singleton.mp hmem).symm
  · rw [hf] at hmem
    rcases separator_singleton c with ⟨hs, -⟩ | hs <;> simp [hs, Ne.symm hne] at hmem

theorem reads_literals (ignoreCase : Bool) (outer : List Regex.Modes) :
    Regex.Token.Reads (.initial ignoreCase) outer ((head.map literal).flatMap s.fragment)
      ((head.map (single ignoreCase)).map .char) outer fun _ ↦ True := by
  induction head with
  | nil => exact .nil _ _ _
  | cons c rest ih =>
    obtain ⟨hc, hrest⟩ := List.forall_mem_cons.mp hhead
    have hfirst : Regex.Token.Reads (.initial ignoreCase) outer (s.fragment (literal c))
        [.char (single ignoreCase c)] outer fun _ ↦ True := by
      rcases fragment_of_isInert hdelimiter hc with ⟨hf, hverbatim⟩ | ⟨hf, rfl⟩
      · rw [hf]
        exact .literal _ outer hverbatim (absurd · Bool.false_ne_true) _
      · rw [hf]
        exact reads_separator ignoreCase outer hd (by simp [isSeparator]) _
    exact hfirst.append (ih hrest) fun _ _ ↦ trivial

/-- The expression of a rule string begins with the literals before its first variable and with the
parenthesis of that variable. -/
theorem exists_expression_head (hslot : (slot lead name optional).isPlain (isSeparator [d]) = true)
    (hadjoins : Adjoins d head lead)
    (ht : t = head ++ ((slot lead name optional).text ++ more)) (complete dropEnd : Bool) :
    ∃ x u, x ≠ '?' ∧ s.expression t (tokens [d] t) complete dropEnd =
      (head.map literal).flatMap s.fragment ++ '(' :: x :: u := by
  subst ht
  obtain ⟨more', htrim⟩ := exists_trimEnd hd dropEnd head more
  obtain ⟨x, u, hx, hu⟩ := exists_replaceAll_slot hdelimiter hd hslot
    (text_mem_tokens hd hslot hhead hadjoins more) more'
  have hfront := not_mem_literals hdelimiter hd hhead
  generalize htrimmed : trimEnd [d] dropEnd _ = trimmed at htrim
  obtain ⟨rule, closed⟩ := trimmed
  obtain rfl := htrim
  rw [Setting.expression, hdelimiter, htrimmed]
  dsimp only
  rw [replaceAll_head hdelimiter hd hslot hhead hadjoins, hu]
  obtain ⟨u, hu⟩ := exists_requireBefore "/" hfront x u
  rw [hu]
  obtain ⟨u, hu⟩ := exists_requireBefore "-" hfront x u
  rw [hu]
  obtain ⟨u, hu⟩ := exists_requireBefore (separator [d]) hfront x u
  rw [hu]
  refine ⟨x, u ++ ((if closed then separator [d] else []) ++ if complete then ['$'] else []),
    hx, ?_⟩
  simp only [List.append_assoc, List.cons_append]

end Head

end UrlRouting.Template

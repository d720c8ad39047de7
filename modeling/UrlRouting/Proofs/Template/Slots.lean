import UrlRouting.Config
import UrlRouting.Proofs.Template.Parts

/-!
The tokens of a rule string in parts. What is taken for a variable among the tokens are the
variables of the parts, each as it is written: `placeholders_tokens`. Words are tokens as well, of
which a run of literals makes up one, and nothing else is.
-/

namespace UrlRouting.Template

open Template.Part

variable {d : Char} {part : Part} {parts more : List Part} {c : Char} {name t run : Text}
  {optional : Bool} {lead : Option Char}

/-! ### Separators -/

theorem isSeparator_singleton :
    isSeparator [d] c = true ↔ c = '/' ∨ c = '-' ∨ c = d := by
  simp [isSeparator, or_assoc]

theorem isDelimiter_iff : Config.isDelimiter d = true ↔
    Text.isAlphanumeric d = false ∧ d ∉ Config.reservedMarks := by
  simp [Config.isDelimiter]

theorem isWord_of_isDelimiter (hd : Config.isDelimiter d = true) : Text.isWord d = false := by
  obtain ⟨halpha, hmark⟩ := isDelimiter_iff.mp hd
  have hline : d ≠ '_' := fun he ↦ hmark (he ▸ by decide)
  simp [Text.isWord, halpha, hline]

theorem isWord_eq_false (hd : Config.isDelimiter d = true) (h : isSeparator [d] c = true) :
    Text.isWord c = false := by
  rcases isSeparator_singleton.mp h with rfl | rfl | rfl
  · decide
  · decide
  · exact isWord_of_isDelimiter hd

theorem isSeparator_eq_false (hd : Config.isDelimiter d = true) (h : Text.isWord c = true) :
    isSeparator [d] c = false := by
  by_contra hs
  rw [isWord_eq_false hd (Bool.not_eq_false _ ▸ hs)] at h
  cases h

theorem isSeparator_mark (hd : Config.isDelimiter d = true) (h : c ∈ ['<', '>', '?']) :
    isSeparator [d] c = false := by
  obtain ⟨-, hmark⟩ := isDelimiter_iff.mp hd
  have hc : c ≠ d := by
    rintro rfl
    refine hmark ?_
    simp only [List.mem_cons, List.not_mem_nil, or_false] at h
    rcases h with rfl | rfl | rfl <;> decide
  refine Bool.eq_false_iff.mpr fun hs ↦ ?_
  rcases isSeparator_singleton.mp hs with rfl | rfl | he
  · revert h
    decide
  · revert h
    decide
  · exact hc he

/-! ### One token -/

theorem dropChar_cons_of_ne {mark : Char} (h : c ≠ mark) (t : Text) :
    dropChar mark (c :: t) = c :: t := if_neg h

theorem dropChar_of_head {mark : Char} (h : t.head? ≠ some mark) : dropChar mark t = t := by
  cases t with
  | nil => rfl
  | cons c rest => exact dropChar_cons_of_ne (fun he ↦ h (congrArg some he)) rest

theorem dropWhile_append_of_head {p : Char → Bool} (hrun : ∀ c ∈ run, p c = true)
    (ht : ∀ c, t.head? = some c → p c = false) : (run ++ t).dropWhile p = t := by
  rw [List.dropWhile_append_of_pos hrun]
  cases t with
  | nil => rfl
  | cons c rest => exact List.dropWhile_cons_of_neg (by simp [ht c rfl])

theorem dropWhile_canonical (hname : ∀ c ∈ name, Text.isWord c = true) (t : Text) :
    (name ++ ((if optional then ['?', '>'] else ['>']) ++ t)).dropWhile Text.isWord =
      (if optional then ['?', '>'] else ['>']) ++ t := by
  refine dropWhile_append_of_head hname ?_
  cases optional <;>
    · rintro c ⟨⟩
      decide

theorem canonical_append (name : Text) (optional : Bool) (t : Text) :
    Shorthand.canonical name optional ++ t =
      '<' :: (name ++ ((if optional then ['?', '>'] else ['>']) ++ t)) := by
  rw [Shorthand.canonical, List.cons_append, List.cons_append, List.append_assoc]

theorem afterWord?_canonical (hne : name ≠ []) (hname : ∀ c ∈ name, Text.isWord c = true)
    (optional : Bool) (t : Text) :
    afterWord? (Shorthand.canonical name optional ++ t) = some t := by
  have hpos := List.length_pos_iff.mpr hne
  have hlength (t : Text) : t.length < (name ++ t).length := by
    rw [List.length_append]
    omega
  rw [canonical_append, afterWord?, dropChar, if_pos rfl]
  rw [dropWhile_canonical hname, if_pos (hlength _)]
  cases optional <;> rfl

theorem afterVariable?_canonical (hne : name ≠ []) (hname : ∀ c ∈ name, Text.isWord c = true)
    (optional : Bool) (t : Text) :
    afterVariable? (Shorthand.canonical name optional ++ t) = some t := by
  have hpos := List.length_pos_iff.mpr hne
  have hlength (t : Text) : t.length < (name ++ t).length := by
    rw [List.length_append]
    omega
  rw [canonical_append, afterVariable?]
  rw [dropWhile_canonical hname, if_pos (hlength _)]
  cases optional <;> rfl

theorem afterVariable?_eq_none (h : t.head? ≠ some '<') : afterVariable? t = none := by
  rw [afterVariable?.eq_def]
  split
  · exact absurd rfl h
  · rfl

theorem afterWord?_run (hne : run ≠ []) (hrun : ∀ c ∈ run, Text.isWord c = true)
    (ht : ∀ c, t.head? = some c → Text.isWord c = false ∧ c ≠ '?' ∧ c ≠ '>') :
    afterWord? (run ++ t) = some t := by
  have hpos := List.length_pos_iff.mpr hne
  have hopen : (run ++ t).head? ≠ some '<' := by
    cases run with
    | nil => exact absurd rfl hne
    | cons c rest =>
      intro he
      cases he
      exact absurd (hrun '<' List.mem_cons_self) (by decide)
  rw [afterWord?, dropChar_of_head hopen,
    dropWhile_append_of_head hrun fun c hc ↦ (ht c hc).1, List.length_append,
    if_pos (by omega), dropChar_of_head fun he ↦ (ht _ he).2.1 rfl,
    dropChar_of_head fun he ↦ (ht _ he).2.2 rfl]

theorem afterWord?_eq_none (hopen : t.head? ≠ some '<')
    (h : ∀ c, t.head? = some c → Text.isWord c = false) : afterWord? t = none := by
  rw [afterWord?, dropChar_of_head hopen]
  have hnil : ∀ c ∈ ([] : Text), Text.isWord c = true := nofun
  have hall : t.dropWhile Text.isWord = t := dropWhile_append_of_head hnil h
  rw [hall, if_neg (Nat.lt_irrefl _)]

/-! ### Tokens -/

theorem tokensAfter_append (delimiter front t : Text) :
    tokensAfter delimiter front.length (front ++ t) = tokens delimiter t := by
  induction front with
  | nil => rfl
  | cons c front ih => exact ih

theorem tokens_append {delimiter token : Text} (hne : token ≠ [])
    (h : afterSeparated? delimiter afterWord? (token ++ t) = some t) :
    tokens delimiter (token ++ t) = token :: tokens delimiter t := by
  cases token with
  | nil => exact absurd rfl hne
  | cons c rest =>
    rw [List.cons_append] at h
    have htake : (c :: (rest ++ t)).length - t.length = (c :: rest).length := by
      rw [← List.cons_append, List.length_append, Nat.add_sub_cancel]
    have hskip : (rest ++ t).length - t.length = rest.length := by
      rw [List.length_append, Nat.add_sub_cancel]
    rw [tokens, List.cons_append, tokensAfter, h]
    dsimp only
    rw [htake, hskip, tokensAfter_append, ← List.cons_append, List.take_left]

theorem tokens_cons {delimiter : Text}
    (h : afterSeparated? delimiter afterWord? (c :: t) = none) :
    tokens delimiter (c :: t) = tokens delimiter t := by
  rw [tokens, tokensAfter, h, tokens]

theorem afterSeparated?_of_none {delimiter : Text} {piece : Text → Option Text}
    (h : piece t = none) : afterSeparated? delimiter piece (c :: t) = piece (c :: t) := by
  rw [afterSeparated?, h]
  split <;> rfl

theorem afterSeparated?_of_separator {delimiter after : Text} {piece : Text → Option Text}
    (hc : isSeparator delimiter c = true) (h : piece t = some after) :
    afterSeparated? delimiter piece (c :: t) = some after := by
  rw [afterSeparated?, if_pos hc, h]

theorem afterSeparated?_of_false {delimiter : Text} {piece : Text → Option Text}
    (hc : isSeparator delimiter c = false) :
    afterSeparated? delimiter piece (c :: t) = piece (c :: t) := by
  rw [afterSeparated?, if_neg (by simp [hc])]

/-! ### The variables of parts -/

def Part.asVariable? : Part → Option Variable
  | literal _ => none
  | slot lead name optional => some ⟨lead.elim [] fun c ↦ separator [c], name, optional⟩

/-- The variables of parts, each with the text it is written as. -/
def placeholders (parts : List Part) : List (Text × Variable) :=
  parts.filterMap fun part ↦ part.asVariable?.map (part.text, ·)

@[simp] theorem placeholders_nil : placeholders [] = [] := rfl

@[simp] theorem placeholders_literal (c : Char) (parts : List Part) :
    placeholders (literal c :: parts) = placeholders parts := rfl

@[simp] theorem placeholders_slot (lead : Option Char) (name : Text) (optional : Bool)
    (parts : List Part) : placeholders (slot lead name optional :: parts) =
      ((slot lead name optional).text,
        ⟨lead.elim [] fun c ↦ separator [c], name, optional⟩) :: placeholders parts := rfl

theorem ofBrackets?_canonical (separator : Text) (name : Text)
    (hname : ∀ c ∈ name, Text.isWord c = true) (optional : Bool) :
    Variable.ofBrackets? separator (Shorthand.canonical name optional) =
      some ⟨separator, name, optional⟩ := by
  cases optional with
  | true =>
    have hends : Text.endsWith (name ++ ['?', '>']) "?>" = true :=
      Text.endsWith_iff.mpr (List.suffix_append _ _)
    have htake : (name ++ ['?', '>']).take ((name ++ ['?', '>']).length - 2) = name := by
      rw [List.length_append]
      exact List.take_left
    rw [Shorthand.canonical, if_pos rfl, List.cons_append, Variable.ofBrackets?, if_pos hends,
      htake]
  | false =>
    have hends : Text.endsWith (name ++ ['>']) ">" = true :=
      Text.endsWith_iff.mpr (List.suffix_append _ _)
    have hmark : ¬Text.endsWith (name ++ ['>']) "?>" = true := by
      rw [Text.endsWith_iff]
      rintro ⟨front, hfront⟩
      have hfront' : (front ++ ['?']) ++ ['>'] = name ++ ['>'] := by
        rw [List.append_assoc]
        exact hfront
      have hmem : '?' ∈ name := (List.append_inj_left' hfront' rfl) ▸ by simp
      exact absurd (hname _ hmem) (by decide)
    rw [Shorthand.canonical, if_neg (by decide), List.cons_append, Variable.ofBrackets?,
      if_neg hmark, if_pos hends, List.dropLast_concat]

theorem ofToken?_slot (hlead : lead.all (isSeparator [d]) = true) (hd : d ≠ '<')
    (hname : ∀ c ∈ name, Text.isWord c = true) :
    Variable.ofToken? [d] (slot lead name optional).text =
      (slot lead name optional).asVariable? := by
  cases lead with
  | none =>
    have hopen : ¬(decide ('<' = '/') || decide ('<' = '-') || decide ([d] = ['<'])) = true := by
      simpa using hd
    have h := ofBrackets?_canonical [] name hname optional
    rw [Shorthand.canonical, List.cons_append] at h
    rw [text, Option.toList_none, List.nil_append, Shorthand.canonical, List.cons_append,
      Variable.ofToken?, if_neg hopen, h]
    rfl
  | some c =>
    have hc : (decide (c = '/') || decide (c = '-') || decide ([d] = [c])) = true := by
      have h := isSeparator_singleton.mp hlead
      simp only [Bool.or_eq_true, decide_eq_true_eq, List.cons.injEq, and_true, or_assoc]
      exact h.imp id (Or.imp id Eq.symm)
    have h := ofBrackets?_canonical (separator [c]) name hname optional
    rw [text, Option.toList_some, List.singleton_append, Variable.ofToken?, if_pos hc, h]
    rfl

theorem ofBrackets?_of_head (separator : Text) (h : t.head? ≠ some '<') :
    Variable.ofBrackets? separator t = none := by
  rw [Variable.ofBrackets?.eq_def]
  split
  · exact absurd rfl h
  · rfl

/-- A token that is a word is no variable. -/
theorem ofToken?_run (hc : c ≠ '<') (h : t.head? ≠ some '<') :
    Variable.ofToken? [d] (c :: t) = none := by
  rw [Variable.ofToken?]
  split
  · exact ofBrackets?_of_head _ h
  · exact ofBrackets?_of_head _ fun he ↦ hc (Option.some.inj he)

theorem head_written (h : ∀ part ∈ parts, part.isPlain (isSeparator [d]) = true)
    (hc : (written parts).head? = some c) :
    Text.isWord c = true ∨ isSeparator [d] c = true ∨ c = '<' := by
  cases parts with
  | nil => cases hc
  | cons part rest =>
    have hpart := h part List.mem_cons_self
    cases part with
    | literal c' =>
      cases hc
      rw [isPlain, Bool.or_eq_true] at hpart
      exact hpart.imp id .inl
    | slot lead name optional =>
      rw [isPlain, Bool.and_eq_true] at hpart
      cases lead with
      | none =>
        cases hc
        exact .inr (.inr rfl)
      | some c' =>
        cases hc
        exact .inr (.inl hpart.1)

/-- A text that begins with a bracket begins with a variable. -/
theorem head_written_eq_bracket (hd : Config.isDelimiter d = true)
    (h : ∀ part ∈ parts, part.isPlain (isSeparator [d]) = true)
    (hc : (written parts).head? = some '<') :
    ∃ name optional rest, parts = slot none name optional :: rest := by
  cases parts with
  | nil => cases hc
  | cons part rest =>
    have hpart := h part List.mem_cons_self
    have hsep := isSeparator_mark hd (c := '<') (by simp)
    cases part with
    | literal c' =>
      cases hc
      rw [isPlain, hsep, Bool.or_false] at hpart
      exact absurd hpart (by decide)
    | slot lead name optional =>
      cases lead with
      | none => exact ⟨name, optional, rest, rfl⟩
      | some c' =>
        cases hc
        rw [isPlain, Option.all_some, hsep] at hpart
        cases hpart

/-- Parts begin with a run of words. -/
theorem exists_run (hd : Config.isDelimiter d = true)
    (h : ∀ part ∈ parts, part.isPlain (isSeparator [d]) = true) :
    ∃ run rest, written parts = run ++ written rest ∧ (∀ c ∈ run, Text.isWord c = true) ∧
      rest <:+ parts ∧ placeholders parts = placeholders rest ∧
      ∀ c, (written rest).head? = some c → Text.isWord c = false := by
  induction parts with
  | nil => exact ⟨[], [], rfl, nofun, List.suffix_rfl, rfl, nofun⟩
  | cons part rest ih =>
    obtain ⟨hpart, hrest⟩ := List.forall_mem_cons.mp h
    cases part with
    | literal c =>
      by_cases hc : Text.isWord c = true
      · obtain ⟨run, more, hwritten, hrun, hsuffix, hslots, hmore⟩ := ih hrest
        refine ⟨c :: run, more, ?_, List.forall_mem_cons.mpr ⟨hc, hrun⟩,
          hsuffix.trans (List.suffix_cons _ _), hslots, hmore⟩
        rw [written_cons, hwritten]
        rfl
      · refine ⟨[], literal c :: rest, rfl, nofun, List.suffix_rfl, rfl, ?_⟩
        rintro _ ⟨⟩
        exact Bool.eq_false_iff.mpr hc
    | slot lead name optional =>
      refine ⟨[], slot lead name optional :: rest, rfl, nofun, List.suffix_rfl, rfl, ?_⟩
      rw [isPlain, Bool.and_eq_true] at hpart
      cases lead with
      | none =>
        rintro _ ⟨⟩
        decide
      | some c =>
        rintro _ ⟨⟩
        exact isWord_eq_false hd hpart.1

theorem tokens_slot (hd : Config.isDelimiter d = true)
    (h : (slot lead name optional).isPlain (isSeparator [d]) = true) (t : Text) :
    tokens [d] ((slot lead name optional).text ++ t) =
      (slot lead name optional).text :: tokens [d] t := by
  refine tokens_append (Part.text_ne_nil _) ?_
  simp only [isPlain, Bool.and_eq_true, List.all_eq_true, Bool.not_eq_true',
    List.isEmpty_eq_false_iff] at h
  have hword := afterWord?_canonical h.2.1 h.2.2 optional t
  cases lead with
  | none =>
    rw [text, Option.toList_none, List.nil_append, canonical_append,
      afterSeparated?_of_false (isSeparator_mark hd (by simp)), ← canonical_append, hword]
  | some c =>
    rw [text, Option.toList_some, List.singleton_append, List.cons_append]
    exact afterSeparated?_of_separator h.1 hword

theorem tokens_run (hd : Config.isDelimiter d = true) (front : Text)
    (hrun : ∀ c ∈ run, Text.isWord c = true) (hne : run ≠ [])
    (h : ∀ part ∈ parts, part.isPlain (isSeparator [d]) = true)
    (ht : ∀ c, (written parts).head? = some c → Text.isWord c = false)
    (hfront : front.length ≤ 1) (hsep : ∀ c ∈ front, isSeparator [d] c = true) :
    tokens [d] (front ++ run ++ written parts) = (front ++ run) :: tokens [d] (written parts) := by
  refine tokens_append (List.append_ne_nil_of_right_ne_nil _ hne) ?_
  have hhead : ∀ c, (written parts).head? = some c →
      Text.isWord c = false ∧ c ≠ '?' ∧ c ≠ '>' := by
    intro c hc
    refine ⟨ht c hc, ?_, ?_⟩
    all_goals
      rintro rfl
      rcases head_written h hc with hw | hs | he
      · exact absurd hw (by decide)
      · rw [isSeparator_mark hd (by simp)] at hs
        cases hs
      · cases he
  have hafter := afterWord?_run hne hrun hhead
  match front with
  | [] =>
    cases run with
    | nil => exact absurd rfl hne
    | cons c rest =>
      have hc := hrun c List.mem_cons_self
      rw [List.nil_append, List.cons_append,
        afterSeparated?_of_false (isSeparator_eq_false hd hc), ← List.cons_append, hafter]
  | [c] =>
    rw [List.append_assoc, List.singleton_append]
    exact afterSeparated?_of_separator (hsep c List.mem_cons_self) hafter

/-- With a literal there begins at most one token, which is no variable, and the tokens go on with
parts that are fewer. -/
theorem exists_tokens_literal (hd : Config.isDelimiter d = true)
    (h : ∀ part ∈ literal c :: parts, part.isPlain (isSeparator [d]) = true)
    (hg : Gathered (isSeparator [d]) (literal c :: parts)) : ∃ words more,
    tokens [d] (c :: written parts) = words ++ tokens [d] (written more) ∧
      (∀ t ∈ words, Variable.ofToken? [d] t = none) ∧ more <:+ parts ∧
      placeholders parts = placeholders more := by
  obtain ⟨hc, hparts⟩ := List.forall_mem_cons.mp h
  obtain ⟨run, more, hwritten, hrun, hsuffix, hslots, hmore⟩ := exists_run hd hparts
  have hplain : ∀ part ∈ more, part.isPlain (isSeparator [d]) = true :=
    fun part hmem ↦ hparts part (hsuffix.mem hmem)
  have hmark : run.head? ≠ some '<' := fun he ↦
    absurd (hrun '<' (List.mem_of_head? he)) (by decide)
  have hne : c ≠ '<' := by
    rintro rfl
    rw [isPlain, isSeparator_mark hd (by simp)] at hc
    exact absurd hc (by decide)
  rw [hwritten]
  by_cases hword : Text.isWord c = true
  · have htokens := tokens_run hd [] (List.forall_mem_cons.mpr ⟨hword, hrun⟩)
      (List.cons_ne_nil _ _) hplain hmore (Nat.zero_le 1) (by simp)
    exact ⟨[c :: run], more, htokens, List.forall_mem_singleton.mpr (ofToken?_run hne hmark),
      hsuffix, hslots⟩
  · have hsep : isSeparator [d] c = true := by simpa [isPlain, hword] using hc
    cases run with
    | cons w run =>
      have htokens := tokens_run hd [c] hrun (List.cons_ne_nil _ _) hplain hmore le_rfl
        (by simpa using hsep)
      exact ⟨[c :: w :: run], more, htokens,
        List.forall_mem_singleton.mpr (ofToken?_run hne hmark), hsuffix, hslots⟩
    | nil =>
      rw [List.nil_append] at hwritten ⊢
      have hbracket : (written more).head? ≠ some '<' := by
        intro he
        rw [← hwritten] at he
        obtain ⟨name, optional, last, rfl⟩ := head_written_eq_bracket hd hparts he
        rw [hg.separates_eq_false] at hsep
        cases hsep
      have hnone : afterWord? (written more) = none := afterWord?_eq_none hbracket hmore
      have hnone' : afterWord? (c :: written more) = none :=
        afterWord?_eq_none (fun he ↦ hne (Option.some.inj he)) fun c' he ↦
          Option.some.inj he ▸ Bool.eq_false_iff.mpr hword
      exact ⟨[], more, tokens_cons ((afterSeparated?_of_none hnone).trans hnone'),
        List.forall_mem_nil _, hsuffix, hslots⟩

/-- What the tokens of parts take for variables. -/
theorem placeholders_tokens (hd : Config.isDelimiter d = true)
    (h : ∀ part ∈ parts, part.isPlain (isSeparator [d]) = true)
    (hg : Gathered (isSeparator [d]) parts) :
    (tokens [d] (written parts)).filterMap (fun t ↦ (Variable.ofToken? [d] t).map (t, ·)) =
      placeholders parts := by
  induction hl : parts.length using Nat.strongRecOn generalizing parts with
  | ind length ih =>
    subst hl
    cases parts with
    | nil => rfl
    | cons part rest =>
      obtain ⟨hpart, hrest⟩ := List.forall_mem_cons.mp h
      have hgo {more : List Part} (hsuffix : more <:+ rest) :
          (tokens [d] (written more)).filterMap
            (fun t ↦ (Variable.ofToken? [d] t).map (t, ·)) = placeholders more :=
        ih more.length (Nat.lt_succ_of_le hsuffix.length_le)
          (fun part hmem ↦ hrest part (hsuffix.mem hmem)) (hg.tail.of_infix hsuffix.isInfix) rfl
      cases part with
      | slot lead name optional =>
        have hopen : d ≠ '<' := by
          rintro rfl
          exact absurd hd (by decide)
        have hslot := tokens_slot hd hpart (written rest)
        simp only [isPlain, Bool.and_eq_true, List.all_eq_true] at hpart
        rw [written_cons, hslot, List.filterMap_cons, ofToken?_slot hpart.1 hopen hpart.2.2,
          hgo List.suffix_rfl]
        rfl
      | literal c =>
        obtain ⟨words, more, htokens, hwords, hsuffix, hslots⟩ := exists_tokens_literal hd h hg
        have hnone : words.filterMap (fun t ↦ (Variable.ofToken? [d] t).map (t, ·)) = [] :=
          List.filterMap_eq_nil_iff.mpr fun t hmem ↦ by rw [hwords t hmem, Option.map_none]
        rw [written_cons, text, List.singleton_append, htokens, List.filterMap_append, hnone,
          hgo hsuffix, placeholders_literal, hslots]
        rfl

/-- The literal head of parts is written by the literals before the first variable. -/
theorem isPrefix_literalHead (delimiter t : Text) : literalHead delimiter t <+: t := by
  induction t with
  | nil => exact List.prefix_rfl
  | cons c rest ih =>
    rw [literalHead]
    split
    · exact List.nil_prefix
    · exact (List.prefix_cons_inj c).mpr ih

theorem literalHead_written (hd : Config.isDelimiter d = true)
    (h : ∀ part ∈ parts, part.isPlain (isSeparator [d]) = true)
    (hg : Gathered (isSeparator [d]) parts) :
    literalHead [d] (written parts) = written (parts.takeWhile (isLiteral fun _ ↦ true)) := by
  induction parts with
  | nil => rfl
  | cons part rest ih =>
    obtain ⟨hpart, hrest⟩ := List.forall_mem_cons.mp h
    cases part with
    | slot lead name optional =>
      simp only [isPlain, Bool.and_eq_true, List.all_eq_true, Bool.not_eq_true',
        List.isEmpty_eq_false_iff] at hpart
      have hafter := afterVariable?_canonical hpart.2.1 hpart.2.2 optional (written rest)
      have hsome : ∃ c t, (slot lead name optional).text ++ written rest = c :: t ∧
          afterSeparated? [d] afterVariable? (c :: t) = some (written rest) := by
        cases lead with
        | none =>
          rw [text, Option.toList_none, List.nil_append, canonical_append]
          refine ⟨_, _, rfl, ?_⟩
          rw [afterSeparated?_of_false (isSeparator_mark hd (by simp)), ← canonical_append, hafter]
        | some c =>
          rw [text, Option.toList_some, List.singleton_append, List.cons_append]
          exact ⟨_, _, rfl, afterSeparated?_of_separator hpart.1 hafter⟩
      obtain ⟨c, t, htext, hafter⟩ := hsome
      rw [written_cons, htext, literalHead, hafter]
      rfl
    | literal c =>
      have hbracket (hc : isSeparator [d] c = true) : (written rest).head? ≠ some '<' := by
        intro he
        obtain ⟨name, optional, last, rfl⟩ := head_written_eq_bracket hd hrest he
        rw [hg.separates_eq_false] at hc
        cases hc
      have hc : c ≠ '<' := by
        rintro rfl
        rw [isPlain, isSeparator_mark hd (by simp), Bool.or_false] at hpart
        exact absurd hpart (by decide)
      have hnone : afterSeparated? [d] afterVariable? (c :: written rest) = none := by
        have hcons := afterVariable?_eq_none (t := c :: written rest)
          fun he ↦ hc (Option.some.inj he)
        cases hs : isSeparator [d] c with
        | false => exact (afterSeparated?_of_false hs).trans hcons
        | true => exact (afterSeparated?_of_none (afterVariable?_eq_none (hbracket hs))).trans hcons
      rw [written_cons, text, List.singleton_append, literalHead, hnone]
      dsimp only
      rw [ih hrest hg.tail]
      rfl

end UrlRouting.Template

import UrlRouting.Proofs.Regex.Enclosing
import UrlRouting.Proofs.Template.Intact
import UrlRouting.Template.Given

/-!
Where an expression opens the group of a variable. No text of a rule string opens one, since a name
behind a bracket is read as a variable, and a separator that is escaped does not either; so if the
patterns of the other variables do not, then it is only the variable itself that does, and its
pattern stands next: `opens_expression`.
-/

namespace UrlRouting.Template

open Regex.Token (Opens groupOpening isVerbatim ne_of_isVerbatim)

variable {s : Setting} {d c x : Char} {t u front ends more name other body token word : Text}
  {v : Variable}

/-! ### Openings in a text -/

theorem groupOpening_eq (name : Text) :
    groupOpening name = '(' :: '?' :: 'P' :: '<' :: (name ++ ['>']) := by
  simp [groupOpening]

theorem opens_nil (name body : Text) : Opens name body [] := by
  intro u hu hp
  obtain rfl := List.suffix_nil.mp hu
  exact absurd (List.prefix_nil.mp hp) (by simp [groupOpening_eq])

theorem opens_cons (h : Opens name body t)
    (hhead : groupOpening name <+: c :: t → groupOpening name ++ body <+: c :: t) :
    Opens name body (c :: t) := by
  intro u hu hp
  rcases List.suffix_cons_iff.mp hu with rfl | hu
  · exact hhead hp
  · exact h u hu hp

theorem opens_cons_of_ne (hc : c ≠ '(') (h : Opens name body t) : Opens name body (c :: t) := by
  refine opens_cons h fun hp ↦ absurd ?_ hc
  rw [groupOpening_eq] at hp
  exact (List.cons_prefix_cons.mp hp).1.symm

/-- A parenthesis that no question mark stands behind. -/
theorem opens_cons_cons (hx : x ≠ '?') (h : Opens name body (x :: t)) :
    Opens name body (c :: x :: t) := by
  refine opens_cons h fun hp ↦ absurd ?_ hx
  rw [groupOpening_eq] at hp
  exact (List.cons_prefix_cons.mp (List.cons_prefix_cons.mp hp).2).1.symm

theorem opens_append_of_not_mem (hfront : '(' ∉ front) (h : Opens name body t) :
    Opens name body (front ++ t) := by
  induction front with
  | nil => exact h
  | cons c front ih =>
    rw [List.mem_cons, not_or] at hfront
    exact opens_cons_of_ne (Ne.symm hfront.1) (ih hfront.2)

/-- A text without openings, in front of a closing parenthesis. -/
theorem opens_append_closing (hname : ')' ∉ groupOpening name)
    (hfront : ¬groupOpening name <:+: front) (h : Opens name body (')' :: t)) :
    Opens name body (front ++ ')' :: t) := by
  induction front with
  | nil => exact h
  | cons c front ih =>
    refine opens_cons (ih fun hin ↦ hfront (hin.trans (List.suffix_cons c front).isInfix))
      fun hp ↦ ?_
    exact absurd (Text.prefix_of_prefix_append_cons (t := c :: front) hname hp).isInfix hfront

/-- Behind a text in which no opening can end. -/
theorem opens_append (hends : '>' ∉ ends) (h : Opens name body t) :
    Opens name body (t ++ ends) := by
  have hangle : '>' ∈ groupOpening name := by simp [groupOpening]
  intro u hu hp
  rcases List.suffix_or_suffix_of_suffix hu (List.suffix_append t ends) with hu | ⟨w, rfl⟩
  · exact absurd (hu.subset (hp.subset hangle)) hends
  · have hw : w <:+ t := by
      obtain ⟨front, hfront⟩ := hu
      rw [← List.append_assoc] at hfront
      exact ⟨front, List.append_cancel_right hfront⟩
    exact (h w hw (Text.prefix_of_prefix_append hends hp)).trans (List.prefix_append w ends)

/-- Question marks behind closing parentheses do not matter. -/
theorem opens_of_thins (hname : ')' ∉ groupOpening name) (hbody : ')' ∉ body)
    (hthins : Thins t u) (h : Opens name (body ++ [')']) t) : Opens name (body ++ [')']) u := by
  induction hthins with
  | nil => exact h
  | @keep c t u hthins ih =>
    have hrest := ih (h.of_suffix (List.suffix_cons c t))
    refine opens_cons hrest fun hp ↦ ?_
    have hopen : groupOpening name <+: c :: t := ((Thins.keep c hthins).prefix_iff hname).mp hp
    have hnext := h (c :: t) List.suffix_rfl hopen
    rw [← List.append_assoc] at hnext ⊢
    refine (Thins.keep c hthins).prefix_closed hnext ?_
    rw [List.mem_append, not_or]
    exact ⟨hname, hbody⟩
  | @drop t u _ ih =>
    exact opens_cons_of_ne (by decide)
      (ih (h.of_suffix ((List.suffix_cons _ _).trans (List.suffix_cons _ _))))

/-! ### Names of variables -/

/-- A name begins with a word character; a question mark may come last. -/
def IsVariableName (name : Text) : Prop :=
  (∃ c rest, name = c :: rest ∧ Text.isWord c = true) ∧
    ∀ c ∈ name, Text.isWord c = true ∨ c = '?'

theorem isVariableName_of_enclosed (hne : word ≠ []) (hword : ∀ c ∈ word, Text.isWord c = true)
    {asked closed : Bool} {ends : Text}
    (h : Variable.ofBrackets? ends (enclosed word true asked closed) = some v) :
    IsVariableName v.name := by
  have hname (mark : Bool) : IsVariableName (word ++ if mark then ['?'] else []) := by
    constructor
    · cases word with
      | nil => exact absurd rfl hne
      | cons c rest => exact ⟨c, _, rfl, hword c List.mem_cons_self⟩
    · intro c hc
      rcases List.mem_append.mp hc with hc | hc
      · exact .inl (hword c hc)
      · refine .inr ?_
        cases mark <;> simp_all
  cases closed with
  | true =>
    have hcanonical : enclosed word true asked true = Shorthand.canonical word asked := by
      cases asked <;> simp [enclosed, Shorthand.canonical]
    rw [hcanonical, ofBrackets?_canonical ends word hword] at h
    cases h
    simpa using hname false
  | false =>
    have henclosed : enclosed word true asked false =
        '<' :: (word ++ if asked then ['?'] else []) := by simp [enclosed]
    have hangle : '>' ∉ word ++ if asked then ['?'] else [] := fun hmem ↦
      absurd ((hname asked).2 '>' hmem) (by decide)
    have hends {mark : Text} (hmark : '>' ∈ mark) :
        ¬Text.endsWith (word ++ if asked then ['?'] else []) mark = true := fun hend ↦
      hangle ((Text.endsWith_iff.mp hend).subset hmark)
    rw [henclosed, Variable.ofBrackets?, if_neg (hends (by decide)),
      if_neg (hends (by decide))] at h
    cases h
    exact hname asked

theorem exists_brackets (h : Variable.ofToken? [d] token = some v) :
    ∃ ends t, Variable.ofBrackets? ends t = some v ∧
      (token = t ∨ ∃ c, isSeparator [d] c = true ∧ token = c :: t) := by
  cases token with
  | nil => cases h
  | cons c rest =>
    rw [Variable.ofToken?] at h
    split at h
    next hc =>
      refine ⟨_, rest, h, .inr ⟨c, isSeparator_singleton.mpr ?_, rfl⟩⟩
      simp only [Bool.or_eq_true, decide_eq_true_eq, List.cons.injEq, and_true, or_assoc] at hc
      exact hc.imp_right (Or.imp_right Eq.symm)
    next => exact ⟨_, c :: rest, h, .inl rfl⟩

theorem isVariableName (htoken : afterSeparated? [d] afterWord? (token ++ more) = some more)
    (hd : Config.isDelimiter d = true) (hv : Variable.ofToken? [d] token = some v) :
    IsVariableName v.name := by
  obtain ⟨lead, word, opened, asked, closed, hlead, hne, hword, htext⟩ := exists_of_token htoken
  obtain rfl := List.append_cancel_right htext
  obtain ⟨ends, t, hbrackets, ht⟩ := exists_brackets hv
  obtain ⟨x, rest, hx, hmark⟩ := exists_enclosed hne hword opened asked closed
  have hopen : isSeparator [d] '<' = false := isSeparator_mark hd (by decide)
  have hhead := (separator_of_ofBrackets? hbrackets).2
  obtain rfl : enclosed word opened asked closed = t := by
    cases lead with
    | none =>
      refine ht.resolve_right ?_
      rintro ⟨c, hc, he⟩
      rw [Option.toList_none, List.nil_append, hx] at he
      obtain ⟨rfl, -⟩ := List.cons.inj he
      rw [hmark.elim (fun he ↦ he ▸ hopen) (isSeparator_eq_false hd)] at hc
      cases hc
    | some c =>
      rcases ht with ht | ⟨y, -, ht⟩
      · rw [← ht] at hhead
        obtain rfl : c = '<' := Option.some.inj hhead
        rw [hlead '<' rfl] at hopen
        cases hopen
      · exact (List.cons.inj ht).2
  cases opened with
  | true => exact isVariableName_of_enclosed hne hword hbrackets
  | false =>
    obtain ⟨c, rest, rfl⟩ := List.exists_cons_of_ne_nil hne
    obtain rfl : c = '<' := Option.some.inj hhead
    exact absurd (hword '<' List.mem_cons_self) (by decide)

theorem IsVariableName.not_mem (h : IsVariableName name) (hc : c ∈ ['(', ')', '>']) :
    c ∉ name := by
  intro hmem
  have hboth := h.2 c hmem
  simp only [List.mem_cons, List.not_mem_nil, or_false] at hc
  rcases hc with rfl | rfl | rfl <;> exact absurd hboth (by decide)

/-! ### Items -/

/-- What the expression goes on with stands in the rule string, unless it is a parenthesis or a
backslash. -/
theorem exists_literal (hx : x ≠ '(' ∧ x ≠ '\\')
    (h : x :: u <+: (items d t).flatMap s.replaced) :
    ∃ rest, t = x :: rest ∧ variableAt? d t = none ∧ u <+: (items d rest).flatMap s.replaced := by
  revert h
  refine items_induction (motive := fun t is ↦ x :: u <+: is.flatMap s.replaced →
    ∃ rest, t = x :: rest ∧ variableAt? d t = none ∧ u <+: (items d rest).flatMap s.replaced)
    (fun h ↦ by cases List.prefix_nil.mp h) ?_ ?_ t
  · intro token v t hfound _ h
    have hgroup : s.replaced (.group token v) = s.group v := rfl
    rw [List.flatMap_cons, hgroup, Setting.group] at h
    exact absurd (List.cons_prefix_cons.mp h).1 hx.1
  · intro c t hnone _ h
    rw [List.flatMap_cons, Setting.replaced, Setting.fragment] at h
    split at h
    next hc =>
      rcases separator_singleton c with ⟨hs, -⟩ | hs
      · rw [hs] at h
        obtain ⟨rfl, hu⟩ := List.cons_prefix_cons.mp h
        exact ⟨t, rfl, hnone, hu⟩
      · rw [hs] at h
        exact absurd (List.cons_prefix_cons.mp h).1 hx.2
    next =>
      obtain ⟨rfl, hu⟩ := List.cons_prefix_cons.mp h
      exact ⟨t, rfl, hnone, hu⟩

/-- A bracket before a word begins a variable. -/
theorem exists_variableAt?_bracket (hd : Config.isDelimiter d = true) (hc : Text.isWord c = true)
    (t : Text) : ∃ found, variableAt? d ('<' :: c :: t) = some found := by
  have hopen : isSeparator [d] '<' = false := isSeparator_mark hd (by decide)
  have htoken : afterSeparated? [d] afterWord? (['<', c] ++ []) = some [] := by
    rw [List.append_nil, afterSeparated?_of_false hopen]
    simp [afterWord?, dropChar, hc]
  obtain ⟨v, hv⟩ := exists_ofToken? (t := ['<', c]) hd (.inl rfl)
  obtain ⟨longest, w, hfound, -⟩ := exists_variableAt? hd htoken hv t
  exact ⟨_, hfound⟩

/-- A parenthesis in a rule string opens no group of a variable. -/
theorem not_opening (hd : Config.isDelimiter d = true) (hname : IsVariableName name) (t : Text) :
    ¬groupOpening name <+: '(' :: (items d t).flatMap s.replaced := by
  intro h
  obtain ⟨⟨c, rest, rfl, hc⟩, -⟩ := hname
  have hplain : c ≠ '(' ∧ c ≠ '\\' := by
    constructor <;>
      · rintro rfl
        exact absurd hc (by decide)
  rw [groupOpening_eq] at h
  obtain ⟨t, rfl, -, h⟩ := exists_literal (by decide) (List.cons_prefix_cons.mp h).2
  obtain ⟨t, rfl, -, h⟩ := exists_literal (by decide) h
  obtain ⟨t, rfl, hnone, h⟩ := exists_literal (by decide) h
  obtain ⟨t, rfl, -, -⟩ := exists_literal hplain h
  obtain ⟨found, hfound⟩ := exists_variableAt?_bracket hd hc t
  rw [hnone] at hfound
  cases hfound

theorem eq_of_groupOpening_prefix (hname : '>' ∉ name) (hother : '>' ∉ other)
    (h : groupOpening name <+: groupOpening other ++ t) : name = other := by
  rw [groupOpening, groupOpening, List.append_assoc, List.append_assoc, List.append_assoc,
    List.prefix_append_right_inj] at h
  obtain ⟨u, hu⟩ := h
  have hcut := congrArg (Text.cut? '>') hu
  rw [List.append_assoc, List.singleton_append, List.singleton_append,
    Text.cut?_append_cons hname, Text.cut?_append_cons hother] at hcut
  exact (Prod.mk.inj (Option.some.inj hcut)).1

theorem separator_append (h : Variable.ofToken? [d] token = some v) (hclosing : t.head? = some '(')
    (ht : Opens name body t) : Opens name body (v.separator ++ t) := by
  obtain ⟨t, rfl⟩ : ∃ rest, t = '(' :: rest := by
    cases t with
    | nil => cases hclosing
    | cons c rest => exact ⟨rest, by rw [Option.some.inj hclosing]⟩
  rcases separator_of_ofToken? h with hs | ⟨c, hs⟩
  · rw [hs]
    exact ht
  · have hc : Opens name body (c :: '(' :: t) := opens_cons_cons (by decide) ht
    rcases separator_singleton c with ⟨hs', -⟩ | hs'
    · rw [hs, hs']
      exact hc
    · rw [hs, hs']
      exact opens_cons_of_ne (by decide) hc

section Variables

variable (hd : Config.isDelimiter d = true) (hname : IsVariableName name) (hending : s.ending = [])
  (hbody : s.inner name = body) (hplain : '(' ∉ body)

include hd hname hending hbody hplain

/-- A variable opens its own group, and no other one. -/
theorem opens_group (htoken : afterSeparated? [d] afterWord? (token ++ more) = some more)
    (hv : Variable.ofToken? [d] token = some v)
    (hother : v.name ≠ name → ¬groupOpening name <:+: s.inner v.name)
    (h : Opens name (body ++ [')']) t) : Opens name (body ++ [')']) (s.group v ++ t) := by
  have hvname : IsVariableName v.name := isVariableName htoken hd hv
  have hinner : ¬groupOpening name <:+: s.inner v.name := by
    by_cases hsame : v.name = name
    · rw [hsame, hbody]
      exact fun hin ↦ hplain (hin.subset (by simp [groupOpening]))
    · exact hother hsame
  have hclosing : ')' ∉ groupOpening name := by
    simp [groupOpening, hname.not_mem (c := ')') (by decide)]
  generalize hrest : ')' :: ((if v.optional then ['?'] else []) ++ t) = rest
  have hafter : Opens name (body ++ [')']) (')' :: rest) := by
    rw [← hrest]
    refine opens_cons_of_ne (by decide) (opens_cons_of_ne (by decide) ?_)
    cases v.optional with
    | false => exact h
    | true => exact opens_cons_of_ne (by decide) h
  have hpattern := opens_append_closing hclosing hinner hafter
  have hopening : Opens name (body ++ [')'])
      (groupOpening v.name ++ (s.inner v.name ++ ')' :: rest)) := by
    have hmark : '(' ∉ "?P<".toList ++ v.name ++ ['>'] := by
      simp [hvname.not_mem (c := '(') (by decide)]
    refine opens_cons (t := "?P<".toList ++ v.name ++ ['>'] ++ (s.inner v.name ++ ')' :: rest))
      (opens_append_of_not_mem hmark hpattern) fun hp ↦ ?_
    have hsame := eq_of_groupOpening_prefix (hname.not_mem (by decide))
      (hvname.not_mem (by decide)) hp
    rw [← hsame, hbody]
    change groupOpening name ++ (body ++ [')']) <+: groupOpening name ++ (body ++ ')' :: rest)
    rw [List.prefix_append_right_inj, List.prefix_append_right_inj]
    exact List.cons_prefix_cons.mpr ⟨rfl, List.nil_prefix⟩
  have hseparator := separator_append hv rfl hopening
  have hgroup : s.group v ++ t =
      '(' :: (v.separator ++ (groupOpening v.name ++ (s.inner v.name ++ ')' :: rest))) := by
    rw [← hrest]
    simp [Setting.group, groupOpening, hending]
  obtain ⟨x, u, hx, hu⟩ := exists_group s hv
  rw [hu, List.cons_append, List.cons_append] at hgroup
  rw [← (List.cons.inj hgroup).2] at hseparator
  rw [hu]
  exact opens_cons_cons hx hseparator

theorem opens_items (hother : ∀ token v, .group token v ∈ items d t → v.name ≠ name →
      ¬groupOpening name <:+: s.inner v.name) :
    Opens name (body ++ [')']) ((items d t).flatMap s.replaced) := by
  revert hother
  refine items_induction (motive := fun t is ↦ (∀ token v, .group token v ∈ is → v.name ≠ name →
      ¬groupOpening name <:+: s.inner v.name) →
      Opens name (body ++ [')']) (is.flatMap s.replaced))
    (fun _ ↦ opens_nil _ _) ?_ ?_ t
  · intro token v t hfound ih hother
    obtain ⟨after, ht, -, htoken, hv⟩ := exists_of_variableAt? hfound
    obtain rfl := List.append_cancel_left ht
    exact opens_group hd hname hending hbody hplain htoken hv (hother token v List.mem_cons_self)
      (ih fun token v hmem ↦ hother token v (List.mem_cons_of_mem _ hmem))
  · intro c t _ ih hother
    have hrest := ih fun token v hmem ↦ hother token v (List.mem_cons_of_mem _ hmem)
    have hliteral : Opens name (body ++ [')']) (c :: (items d t).flatMap s.replaced) := by
      by_cases hc : c = '('
      · exact opens_cons hrest fun hp ↦ absurd (hc ▸ hp) (not_opening hd hname t)
      · exact opens_cons_of_ne hc hrest
    rw [List.flatMap_cons, Setting.replaced, Setting.fragment]
    split
    next =>
      rcases separator_singleton c with ⟨hs, -⟩ | hs
      · rw [hs]
        exact hliteral
      · rw [hs]
        exact opens_cons_of_ne (by decide) hliteral
    next => exact hliteral

end Variables

theorem exists_of_mem_variableNames {rule : Text} (h : name ∈ variableNames [d] (tokens [d] rule)) :
    ∃ token ∈ tokens [d] rule, ∃ v, Variable.ofToken? [d] token = some v ∧ v.name = name := by
  obtain ⟨v, hv, rfl⟩ := List.mem_map.mp h
  obtain ⟨token, htoken, hv⟩ := List.mem_filterMap.mp hv
  exact ⟨token, htoken, v, hv, rfl⟩

theorem name_mem_variableNames (hd : Config.isDelimiter d = true)
    (h : .group token v ∈ items d t) : v.name ∈ variableNames [d] (tokens [d] t) := by
  obtain ⟨htoken, hv⟩ := of_mem_items hd h
  exact List.mem_map_of_mem (List.mem_filterMap.mpr ⟨token, htoken, hv⟩)

/-- Behind the opening of the group of a variable, its pattern stands next and the group is closed,
if no pattern of another variable opens a group with the name. -/
theorem opens_expression (hdelimiter : s.delimiter = [d]) (hd : Config.isDelimiter d = true)
    (rule : Text) (complete dropEnd : Bool) (hending : s.ending = [])
    (hname : name ∈ variableNames [d] (tokens [d] rule))
    (hbody : s.inner name = body) (hplain : '(' ∉ body ∧ ')' ∉ body)
    (hothers : ∀ other ∈ variableNames [d] (tokens [d] rule), other ≠ name →
      ¬groupOpening name <:+: s.inner other) :
    Opens name (body ++ [')']) (s.expression rule (tokens [d] rule) complete dropEnd) := by
  have hvariable : IsVariableName name := by
    obtain ⟨token, htoken, v, hv, rfl⟩ := exists_of_mem_variableNames hname
    obtain ⟨more, hmore⟩ := exists_of_mem_tokens htoken
    exact isVariableName hmore hd hv
  have hclosing : ')' ∉ groupOpening name := by
    simp [groupOpening, hvariable.not_mem (c := ')') (by decide)]
  have hpass (ends : Text) {t : Text} (h : Opens name (body ++ [')']) t) :
      Opens name (body ++ [')']) (requireBefore ends t) :=
    opens_of_thins hclosing hplain.2 (.requireBefore ends t) h
  have hitems : Opens name (body ++ [')'])
      ((items d (trimEnd [d] dropEnd rule).1).flatMap s.replaced) := by
    refine opens_items hd hvariable hending hbody hplain.1 fun token v hmem hne ↦ ?_
    exact hothers v.name (tokens_trimEnd hd dropEnd rule ▸ name_mem_variableNames hd hmem) hne
  rw [expression_eq_passes hdelimiter hd]
  refine opens_append ?_ (opens_append ?_ (hpass _ (hpass _ (hpass _ hitems))))
  · cases complete <;> decide
  · have hangle : d ≠ '>' := by
      rintro rfl
      exact absurd hd (by decide)
    split
    · rcases separator_singleton d with ⟨hs, -⟩ | hs <;> simp [hs, hangle.symm]
    · exact List.not_mem_nil

end UrlRouting.Template

import UrlRouting.Proofs.Template.Heading

/-!
Any rule string in items: the variables as they are written, and the characters of all other text.
The variables are those among the tokens (`variables_items`), and each of them becomes a group of
its own: a token that stands within a longer one, or in a word, is not replaced there
(`replaceAll_items`).
-/

namespace UrlRouting.Template

variable {s : Setting} {d c : Char} {t u more after token word : Text} {v : Variable}
  {opened asked closed : Bool}

/-! ### The form of a token -/

/-- A word with the marks that may stand around it. -/
def enclosed (word : Text) (opened asked closed : Bool) : Text :=
  (if opened then ['<'] else []) ++ word ++ (if asked then ['?'] else []) ++
    if closed then ['>'] else []

theorem exists_of_afterWord (h : afterWord? t = some after) : ∃ word opened asked closed,
    word ≠ [] ∧ (∀ c ∈ word, Text.isWord c = true) ∧
      t = enclosed word opened asked closed ++ after := by
  have hmark (mark : Char) (t : Text) :
      ∃ b : Bool, t = (if b then [mark] else []) ++ dropChar mark t :=
    (dropChar_cases mark t).elim (fun h ↦ ⟨false, h⟩) fun h ↦ ⟨true, h⟩
  rw [afterWord?] at h
  split at h
  next hlength =>
    obtain ⟨opened, hopened⟩ := hmark '<' t
    generalize dropChar '<' t = inner at h hlength hopened
    have hword := List.takeWhile_append_dropWhile (p := Text.isWord) (l := inner)
    obtain ⟨asked, hasked⟩ := hmark '?' (inner.dropWhile Text.isWord)
    obtain ⟨closed, hclosed⟩ := hmark '>' (dropChar '?' (inner.dropWhile Text.isWord))
    refine ⟨inner.takeWhile Text.isWord, opened, asked, closed, fun hnil ↦ ?_,
      fun c hc ↦ List.mem_takeWhile_imp hc, ?_⟩
    · rw [hnil, List.nil_append] at hword
      rw [hword] at hlength
      exact Nat.lt_irrefl _ hlength
    · rw [Option.some.inj h] at hclosed
      have hinner : inner = inner.takeWhile Text.isWord ++
          ((if asked then ['?'] else []) ++ ((if closed then ['>'] else []) ++ after)) := by
        rw [← hclosed, ← hasked, hword]
      rw [hopened, enclosed]
      simp only [List.append_assoc]
      exact congrArg _ hinner
  next => cases h

/-- Behind a word with its marks, a reader has read these, and possibly more of the word. -/
theorem afterWord?_enclosed (hne : word ≠ []) (hword : ∀ c ∈ word, Text.isWord c = true)
    (opened asked closed : Bool) (u : Text) :
    ∃ after, after <:+ u ∧ afterWord? (enclosed word opened asked closed ++ u) = some after := by
  have hopen : ∀ t, dropChar '<' ((if opened then ['<'] else []) ++ (word ++ t)) = word ++ t := by
    intro t
    cases opened with
    | true => rfl
    | false =>
      refine dropChar_of_head fun he ↦ ?_
      rw [if_neg Bool.false_ne_true, List.nil_append, List.head?_append_of_ne_nil _ hne] at he
      exact absurd (hword '<' (List.mem_of_head? he)) (by decide)
  generalize hrest : (if asked then ['?'] else []) ++ ((if closed then ['>'] else []) ++ u) = rest
  have hlength : ((word ++ rest).dropWhile Text.isWord).length < (word ++ rest).length := by
    have hpos := List.length_pos_iff.mpr hne
    have hle := (List.dropWhile_suffix Text.isWord (l := rest)).length_le
    rw [List.dropWhile_append_of_pos hword, List.length_append]
    omega
  refine ⟨dropChar '>' (dropChar '?' (rest.dropWhile Text.isWord)), ?_, ?_⟩
  · cases asked <;> cases closed <;> subst hrest
    · exact (dropChar_suffix _ _).trans
        ((dropChar_suffix _ _).trans (List.dropWhile_suffix _))
    · exact List.suffix_rfl
    · exact dropChar_suffix _ _
    · exact List.suffix_rfl
  · simp only [enclosed, List.append_assoc]
    rw [hrest, afterWord?, hopen, if_pos hlength, List.dropWhile_append_of_pos hword]

/-- A token is a word with its marks, behind a separator or not. -/
theorem exists_of_token (h : afterSeparated? [d] afterWord? t = some after) :
    ∃ (lead : Option Char) (word : Text) (opened asked closed : Bool),
      (∀ c, lead = some c → isSeparator [d] c = true) ∧ word ≠ [] ∧
        (∀ c ∈ word, Text.isWord c = true) ∧
        t = lead.toList ++ enclosed word opened asked closed ++ after := by
  have hbare (h : afterWord? t = some after) : ∃ (lead : Option Char) (word : Text)
      (opened asked closed : Bool), (∀ c, lead = some c → isSeparator [d] c = true) ∧ word ≠ [] ∧
        (∀ c ∈ word, Text.isWord c = true) ∧
        t = lead.toList ++ enclosed word opened asked closed ++ after := by
    obtain ⟨word, opened, asked, closed, hne, hword, ht⟩ := exists_of_afterWord h
    exact ⟨none, word, opened, asked, closed, nofun, hne, hword, ht⟩
  cases t with
  | nil => cases h
  | cons c rest =>
    rw [afterSeparated?] at h
    split at h
    next hc =>
      split at h
      next last hlast =>
        obtain rfl := Option.some.inj h
        obtain ⟨word, opened, asked, closed, hne, hword, rfl⟩ := exists_of_afterWord hlast
        exact ⟨some c, word, opened, asked, closed, fun x he ↦ Option.some.inj he ▸ hc, hne, hword,
          rfl⟩
      next => exact hbare h
    next => exact hbare h

theorem exists_enclosed (hne : word ≠ []) (hword : ∀ c ∈ word, Text.isWord c = true)
    (opened asked closed : Bool) : ∃ c rest, enclosed word opened asked closed = c :: rest ∧
      (c = '<' ∨ Text.isWord c = true) := by
  cases word with
  | nil => exact absurd rfl hne
  | cons c rest =>
    cases opened with
    | true => exact ⟨'<', _, rfl, .inl rfl⟩
    | false => exact ⟨c, _, rfl, .inr (hword c List.mem_cons_self)⟩

/-- Where a token stands, the text has that token or a longer one. -/
theorem exists_longer_token (hd : Config.isDelimiter d = true)
    (h : afterSeparated? [d] afterWord? (token ++ more) = some more) (u : Text) :
    ∃ after, after <:+ u ∧ afterSeparated? [d] afterWord? (token ++ u) = some after := by
  obtain ⟨lead, word, opened, asked, closed, hlead, hne, hword, htoken⟩ := exists_of_token h
  obtain rfl := List.append_cancel_right htoken
  obtain ⟨after, hsuffix, hafter⟩ := afterWord?_enclosed hne hword opened asked closed u
  refine ⟨after, hsuffix, ?_⟩
  cases lead with
  | some c => exact afterSeparated?_of_separator (hlead c rfl) hafter
  | none =>
    obtain ⟨c, rest, hrest, hc⟩ := exists_enclosed hne hword opened asked closed
    have hseparator : isSeparator [d] c = false :=
      hc.elim (fun he ↦ he ▸ isSeparator_mark hd (by decide)) (isSeparator_eq_false hd)
    rw [Option.toList_none, List.nil_append]
    rw [hrest, List.cons_append] at hafter ⊢
    rw [afterSeparated?_of_false hseparator, hafter]

/-! ### Variables -/

theorem exists_ofToken? (hd : Config.isDelimiter d = true) (h : t.head? = some '<' ∨
    ∃ c rest, t = c :: rest ∧ isSeparator [d] c = true ∧ rest.head? = some '<') :
    ∃ v, Variable.ofToken? [d] t = some v := by
  have hbrackets (ends : Text) {t : Text} (h : t.head? = some '<') :
      ∃ v, Variable.ofBrackets? ends t = some v := by
    cases t with
    | nil => cases h
    | cons c rest =>
      obtain rfl := Option.some.inj h
      rw [Variable.ofBrackets?]
      split
      · exact ⟨_, rfl⟩
      · split <;> exact ⟨_, rfl⟩
  rcases h with h | ⟨c, rest, rfl, hc, h⟩
  · cases t with
    | nil => cases h
    | cons c rest =>
      obtain rfl := Option.some.inj h
      have hopen : d ≠ '<' := by
        rintro rfl
        exact absurd hd (by decide)
      rw [Variable.ofToken?, if_neg (by simpa using hopen)]
      exact hbrackets [] rfl
  · have hmark : (decide (c = '/') || decide (c = '-') || decide ([d] = [c])) = true := by
      simp only [Bool.or_eq_true, decide_eq_true_eq, List.cons.injEq, and_true, or_assoc]
      exact (isSeparator_singleton.mp hc).imp_right (Or.imp_right Eq.symm)
    rw [Variable.ofToken?, if_pos hmark]
    exact hbrackets _ h

/-- A token that goes on behind a variable is a variable as well. -/
theorem exists_ofToken?_append (hd : Config.isDelimiter d = true)
    (h : Variable.ofToken? [d] token = some v) (t : Text) :
    ∃ v, Variable.ofToken? [d] (token ++ t) = some v := by
  have hhead {u : Text} (hu : u.head? = some '<') : (u ++ t).head? = some '<' := by
    rw [List.head?_append, hu, Option.some_or]
  refine exists_ofToken? hd ((bracket_of_ofToken? h).imp hhead ?_)
  rintro ⟨c, rest, rfl, hc, hrest⟩
  exact ⟨c, rest ++ t, rfl, hc, hhead hrest⟩

/-- The token at the head of a text, if that is a variable. -/
def variableAt? (d : Char) (t : Text) : Option (Text × Variable) :=
  match afterSeparated? [d] afterWord? t with
  | some after =>
    let token := t.take (t.length - after.length)
    (Variable.ofToken? [d] token).map (token, ·)
  | none => none

theorem variableAt?_append (h : afterSeparated? [d] afterWord? (token ++ t) = some t) :
    variableAt? d (token ++ t) = (Variable.ofToken? [d] token).map (token, ·) := by
  have htake : (token ++ t).take ((token ++ t).length - t.length) = token := by
    rw [List.length_append, Nat.add_sub_cancel, List.take_left]
  rw [variableAt?, h]
  dsimp only
  rw [htake]

theorem exists_token (h : afterSeparated? [d] afterWord? t = some after) :
    ∃ token, token ≠ [] ∧ t = token ++ after := by
  obtain ⟨lead, word, opened, asked, closed, -, hne, hword, rfl⟩ := exists_of_token h
  obtain ⟨c, rest, hrest, -⟩ := exists_enclosed hne hword opened asked closed
  exact ⟨_, by simp [hrest], rfl⟩

theorem exists_of_variableAt? (h : variableAt? d t = some (token, v)) : ∃ after,
    t = token ++ after ∧ token ≠ [] ∧ afterSeparated? [d] afterWord? t = some after ∧
      Variable.ofToken? [d] token = some v := by
  cases hafter : afterSeparated? [d] afterWord? t with
  | none =>
    rw [variableAt?, hafter] at h
    cases h
  | some after =>
    obtain ⟨front, hne, rfl⟩ := exists_token hafter
    rw [variableAt?_append hafter] at h
    obtain ⟨v', hv, he⟩ := Option.map_eq_some_iff.mp h
    obtain ⟨rfl, rfl⟩ := Prod.mk.inj he
    exact ⟨after, rfl, hne, rfl, hv⟩

/-- Wherever the text of a variable stands, a variable is read, which may be a longer one. -/
theorem exists_variableAt? (hd : Config.isDelimiter d = true)
    (htoken : afterSeparated? [d] afterWord? (token ++ more) = some more)
    (hv : Variable.ofToken? [d] token = some v) (u : Text) :
    ∃ longest v', variableAt? d (token ++ u) = some (longest, v') ∧ token <+: longest := by
  obtain ⟨after, ⟨front, rfl⟩, hafter⟩ := exists_longer_token hd htoken u
  obtain ⟨v', hv'⟩ := exists_ofToken?_append hd hv front
  refine ⟨token ++ front, v', ?_, List.prefix_append _ _⟩
  rw [← List.append_assoc] at hafter ⊢
  rw [variableAt?_append hafter, hv']
  rfl

/-! ### Items -/

/-- A variable as it is written, or a character of other text. -/
inductive Item
  | literal (c : Char)
  | group (token : Text) (v : Variable)

def Item.text : Item → Text
  | literal c => [c]
  | group token _ => token

def Item.asVariable? : Item → Option (Text × Variable)
  | literal _ => none
  | group token v => some (token, v)

/-- The items of a text, after `skip` characters of the variable at hand. -/
def itemsAfter (d : Char) : Nat → Text → List Item
  | _, [] => []
  | skip + 1, _ :: rest => itemsAfter d skip rest
  | 0, c :: rest =>
    match variableAt? d (c :: rest) with
    | some (token, v) => .group token v :: itemsAfter d (token.length - 1) rest
    | none => .literal c :: itemsAfter d 0 rest

def items (d : Char) (t : Text) : List Item := itemsAfter d 0 t

theorem itemsAfter_append (front t : Text) :
    itemsAfter d front.length (front ++ t) = items d t := by
  induction front with
  | nil => rfl
  | cons c front ih => exact ih

theorem items_append (h : variableAt? d (token ++ t) = some (token, v)) :
    items d (token ++ t) = .group token v :: items d t := by
  obtain ⟨-, -, hne, -, -⟩ := exists_of_variableAt? h
  cases token with
  | nil => exact absurd rfl hne
  | cons c rest =>
    rw [List.cons_append] at h
    rw [items, List.cons_append, itemsAfter, h]
    exact congrArg _ (itemsAfter_append rest t)

theorem items_cons (h : variableAt? d (c :: t) = none) :
    items d (c :: t) = .literal c :: items d t := by
  rw [items, itemsAfter, h, items]

theorem items_induction {motive : Text → List Item → Prop} (nil : motive [] [])
    (group : ∀ token v t, variableAt? d (token ++ t) = some (token, v) → motive t (items d t) →
      motive (token ++ t) (.group token v :: items d t))
    (literal : ∀ c t, variableAt? d (c :: t) = none → motive t (items d t) →
      motive (c :: t) (.literal c :: items d t)) (t : Text) : motive t (items d t) := by
  induction hl : t.length using Nat.strongRecOn generalizing t with
  | ind length ih =>
    subst hl
    cases t with
    | nil => exact nil
    | cons c rest =>
      cases hfound : variableAt? d (c :: rest) with
      | none =>
        rw [items_cons hfound]
        exact literal c rest hfound (ih _ (Nat.lt_succ_self _) rest rfl)
      | some found =>
        obtain ⟨token, v⟩ := found
        obtain ⟨after, ht, hne, -, -⟩ := exists_of_variableAt? hfound
        have hpos : 0 < token.length := List.length_pos_iff.mpr hne
        have hlength := congrArg List.length ht
        rw [List.length_append] at hlength
        rw [ht] at hfound ⊢
        rw [items_append hfound]
        exact group token v after hfound (ih _ (by omega) after rfl)

/-- The items of a text make up the text. -/
theorem text_items (d : Char) (t : Text) : (items d t).flatMap Item.text = t := by
  refine items_induction (motive := fun t is ↦ is.flatMap Item.text = t) rfl ?_ ?_ t
  · intro token v t _ ih
    exact congrArg (token ++ ·) ih
  · intro c t _ ih
    exact congrArg (c :: ·) ih

/-- Text without a bracket and without a separator is literal. -/
theorem items_literals (hplain : ∀ c ∈ word, c ≠ '<' ∧ isSeparator [d] c = false) (t : Text) :
    items d (word ++ t) = word.map .literal ++ items d t := by
  induction word with
  | nil => rfl
  | cons c rest ih =>
    obtain ⟨⟨hopen, hc⟩, hrest⟩ := List.forall_mem_cons.mp hplain
    have hnone : variableAt? d (c :: (rest ++ t)) = none := by
      cases hfound : variableAt? d (c :: (rest ++ t)) with
      | none => rfl
      | some found =>
        obtain ⟨after, htoken, hne, -, hv⟩ := exists_of_variableAt? hfound
        rcases bracket_of_ofToken? hv with hbracket | ⟨x, last, hx, hseparator, -⟩
        · have hhead := congrArg List.head? htoken
          rw [List.head?_append_of_ne_nil _ hne, hbracket] at hhead
          exact absurd (Option.some.inj hhead) hopen
        · rw [hx] at htoken
          obtain ⟨rfl, -⟩ := List.cons.inj htoken
          rw [hseparator] at hc
          cases hc
    rw [List.cons_append, items_cons hnone, ih hrest, List.map_cons, List.cons_append]

/-- A token that is no variable goes on, after its first character, with a word. -/
theorem tail_of_ofToken?_eq_none (hd : Config.isDelimiter d = true)
    (htoken : afterSeparated? [d] afterWord? (token ++ more) = some more)
    (hv : Variable.ofToken? [d] token = none) :
    ∀ c ∈ token.tail, c ≠ '<' ∧ isSeparator [d] c = false := by
  obtain ⟨lead, word, opened, asked, closed, hlead, hne, hword, ht⟩ := exists_of_token htoken
  obtain rfl := List.append_cancel_right ht
  cases opened with
  | true =>
    have hbracket : (enclosed word true asked closed).head? = some '<' := rfl
    have hsome : ∃ v, Variable.ofToken? [d]
        (lead.toList ++ enclosed word true asked closed) = some v := by
      refine exists_ofToken? hd ?_
      cases lead with
      | none => exact .inl hbracket
      | some c => exact .inr ⟨c, _, rfl, hlead c rfl, hbracket⟩
    rw [hv] at hsome
    obtain ⟨v, hv⟩ := hsome
    cases hv
  | false =>
    have hmark {c : Char} (hc : c ∈ ['?', '>']) : c ≠ '<' ∧ isSeparator [d] c = false := by
      refine ⟨?_, isSeparator_mark hd (List.mem_cons_of_mem _ ?_)⟩
      · rintro rfl
        exact absurd hc (by decide)
      · simpa [or_comm] using hc
    have hplain : ∀ c ∈ enclosed word false asked closed,
        c ≠ '<' ∧ isSeparator [d] c = false := by
      intro c hc
      simp only [enclosed, Bool.false_eq_true, if_false, List.nil_append, List.mem_append] at hc
      rcases hc with (hc | hc) | hc
      · refine ⟨?_, isSeparator_eq_false hd (hword c hc)⟩
        rintro rfl
        exact absurd (hword '<' hc) (by decide)
      · refine hmark ?_
        cases asked <;> simp_all
      · refine hmark ?_
        cases closed <;> simp_all
    intro c hc
    cases lead with
    | none => exact hplain c (List.mem_of_mem_tail hc)
    | some x => exact hplain c hc

/-- The variables among the items are those among the tokens, in the same order. -/
theorem variables_items (hd : Config.isDelimiter d = true) (t : Text) :
    (items d t).filterMap Item.asVariable? =
      (tokens [d] t).filterMap fun token ↦ (Variable.ofToken? [d] token).map (token, ·) := by
  induction hl : t.length using Nat.strongRecOn generalizing t with
  | ind length ih =>
    subst hl
    cases t with
    | nil => rfl
    | cons c rest =>
      cases hafter : afterSeparated? [d] afterWord? (c :: rest) with
      | none =>
        have hnone : variableAt? d (c :: rest) = none := by rw [variableAt?, hafter]
        rw [tokens_cons hafter, items_cons hnone, ← ih _ (Nat.lt_succ_self _) rest rfl]
        rfl
      | some after =>
        obtain ⟨token, hne, ht⟩ := exists_token hafter
        have hpos : 0 < token.length := List.length_pos_iff.mpr hne
        have hlength := congrArg List.length ht
        rw [List.length_append] at hlength
        rw [ht] at hafter ⊢
        rw [tokens_append hne hafter, List.filterMap_cons, ← ih _ (by omega) after rfl]
        have hfound := variableAt?_append hafter
        cases hv : Variable.ofToken? [d] token with
        | some v =>
          rw [hv] at hfound
          rw [items_append hfound]
          rfl
        | none =>
          rw [hv] at hfound
          cases token with
          | nil => exact absurd rfl hne
          | cons x word =>
            have hword : ∀ c ∈ word, c ≠ '<' ∧ isSeparator [d] c = false :=
              tail_of_ofToken?_eq_none hd hafter hv
            rw [List.cons_append] at hfound ⊢
            rw [items_cons hfound, items_literals hword, ← List.cons_append, ← List.map_cons,
              List.filterMap_append, List.filterMap_map, List.filterMap_eq_nil_iff.mpr]
            · rfl
            · exact fun _ _ ↦ rfl

theorem of_mem_items (hd : Config.isDelimiter d = true) (h : .group token v ∈ items d t) :
    token ∈ tokens [d] t ∧ Variable.ofToken? [d] token = some v := by
  have hmem : (token, v) ∈ (items d t).filterMap Item.asVariable? :=
    List.mem_filterMap.mpr ⟨_, h, rfl⟩
  rw [variables_items hd] at hmem
  obtain ⟨found, hfound, he⟩ := List.mem_filterMap.mp hmem
  obtain ⟨w, hw, he⟩ := Option.map_eq_some_iff.mp he
  obtain ⟨rfl, rfl⟩ := Prod.mk.inj he
  exact ⟨hfound, hw⟩

/-! ### Replacements -/

theorem exists_of_mem_tokens (h : token ∈ tokens [d] t) :
    ∃ more, afterSeparated? [d] afterWord? (token ++ more) = some more := by
  induction hl : t.length using Nat.strongRecOn generalizing t with
  | ind length ih =>
    subst hl
    cases t with
    | nil => cases h
    | cons c rest =>
      cases hafter : afterSeparated? [d] afterWord? (c :: rest) with
      | none =>
        rw [tokens_cons hafter] at h
        exact ih _ (Nat.lt_succ_self _) h rfl
      | some after =>
        obtain ⟨front, hne, ht⟩ := exists_token hafter
        have hpos : 0 < front.length := List.length_pos_iff.mpr hne
        have hlength := congrArg List.length ht
        rw [List.length_append] at hlength
        rw [ht] at hafter h
        rw [tokens_append hne hafter] at h
        rcases List.mem_cons.mp h with rfl | h
        · exact ⟨after, hafter⟩
        · exact ih _ (by omega) h rfl

/-- What the replacements put in the place of an item. -/
def Setting.replaced (s : Setting) : Item → Text
  | .literal c => s.fragment (.literal c)
  | .group _ v => s.group v

/-- The replacements of a rule string, in a text with no other variables. -/
theorem replaceAll_items (hdelimiter : s.delimiter = [d]) (hd : Config.isDelimiter d = true)
    (rule : Text) (h : ∀ token v, .group token v ∈ items d t → token ∈ tokens [d] rule) :
    replaceAll (s.replacements (tokens [d] rule)) t = (items d t).flatMap s.replaced := by
  revert h
  refine items_induction (motive := fun t is ↦
    (∀ token v, .group token v ∈ is → token ∈ tokens [d] rule) →
      replaceAll (s.replacements (tokens [d] rule)) t = is.flatMap s.replaced)
    (fun _ ↦ rfl) ?_ ?_ t
  · intro token v t hfound ih h
    obtain ⟨after, ht, hne, hafter, hv⟩ := exists_of_variableAt? hfound
    obtain rfl := List.append_cancel_left ht
    have hmem := h token v List.mem_cons_self
    rw [List.flatMap_cons, ← ih fun token v hin ↦ h token v (List.mem_cons_of_mem _ hin)]
    refine replaceAll_append hne (longestAt?_eq_some
      (exists_mem_replacements hdelimiter hmem hv) (List.prefix_append _ _) ?_)
    intro entry hentry hp
    rcases mem_replacements hdelimiter hentry with ⟨v', htoken, hv', hgroup⟩ | ⟨rfl, -⟩
    · -- a shorter variable that stands here has been read as this one
      obtain ⟨more, hmore⟩ := exists_of_mem_tokens htoken
      obtain ⟨u, hu⟩ := hp
      obtain ⟨longest, w, hlongest, hshorter⟩ := exists_variableAt? hd hmore hv' u
      rw [hu, hfound] at hlongest
      obtain ⟨rfl, -⟩ := Prod.mk.inj (Option.some.inj hlongest)
      rcases hshorter.length_le.lt_or_eq with hlt | heq
      · exact .inr hlt
      · have hsame := hshorter.eq_of_length heq
        rw [hsame, hv] at hv'
        exact .inl (Prod.ext hsame (hgroup.trans (congrArg s.group (Option.some.inj hv').symm)))
    · refine .inr ?_
      have hopen : d ≠ '<' := by
        rintro rfl
        exact absurd hd (by decide)
      rcases bracket_of_ofToken? hv with hbracket | ⟨c, rest, rfl, -, hbracket⟩
      · cases token with
        | nil => cases hbracket
        | cons c rest =>
          exact absurd ((List.cons_prefix_cons.mp hp).1.trans (Option.some.inj hbracket)) hopen
      · cases rest with
        | nil => cases hbracket
        | cons x rest => simp
  · intro c t hnone ih h
    rw [List.flatMap_cons, ← ih fun token v hin ↦ h token v (List.mem_cons_of_mem _ hin)]
    refine replaceAll_literal hdelimiter hd fun token v htoken hv hp ↦ ?_
    obtain ⟨more, hmore⟩ := exists_of_mem_tokens htoken
    obtain ⟨u, hu⟩ := hp
    obtain ⟨longest, w, hlongest, -⟩ := exists_variableAt? hd hmore hv u
    rw [hu, hnone] at hlongest
    cases hlongest

/-! ### Delimiters at the end -/

theorem afterWord?_append (hd : Config.isDelimiter d = true) (t u : Text) :
    afterWord? (t ++ d :: u) = (afterWord? t).map (· ++ d :: u) := by
  have hne {mark : Char} (hmark : mark ∈ ['<', '>', '?']) : d ≠ mark := by
    rintro rfl
    have hseparator := isSeparator_mark hd hmark
    simp [isSeparator] at hseparator
  rw [afterWord?, afterWord?, dropChar_append (hne (by decide)),
    dropWhile_append_cons (isWord_of_isDelimiter hd), dropChar_append (hne (by decide)),
    dropChar_append (hne (by decide))]
  simp only [List.length_append, Nat.add_lt_add_iff_right]
  split <;> rfl

theorem afterSeparated?_append (hd : Config.isDelimiter d = true) (c : Char) (t u : Text) :
    afterSeparated? [d] afterWord? (c :: t ++ d :: u) =
      (afterSeparated? [d] afterWord? (c :: t)).map (· ++ d :: u) := by
  have hbare := afterWord?_append hd (c :: t) u
  rw [List.cons_append] at hbare ⊢
  rw [afterSeparated?, afterSeparated?, afterWord?_append hd, hbare]
  split
  · cases afterWord? t <;> rfl
  · rfl

/-- No token runs over a delimiter. -/
theorem tokens_append_delimiter (hd : Config.isDelimiter d = true) (t u : Text) :
    tokens [d] (t ++ d :: u) = tokens [d] t ++ tokens [d] (d :: u) := by
  induction hl : t.length using Nat.strongRecOn generalizing t with
  | ind length ih =>
    subst hl
    cases t with
    | nil => rfl
    | cons c rest =>
      have hlocal := afterSeparated?_append hd c rest u
      cases hafter : afterSeparated? [d] afterWord? (c :: rest) with
      | none =>
        rw [hafter] at hlocal
        rw [List.cons_append] at hlocal ⊢
        rw [tokens_cons hafter, tokens_cons hlocal, ih _ (Nat.lt_succ_self _) rest rfl]
      | some after =>
        obtain ⟨token, hne, ht⟩ := exists_token hafter
        have hpos : 0 < token.length := List.length_pos_iff.mpr hne
        have hlength := congrArg List.length ht
        rw [List.length_append] at hlength
        rw [hafter, ht, List.append_assoc] at hlocal
        rw [ht] at hafter
        rw [ht, List.append_assoc, tokens_append hne hlocal, tokens_append hne hafter,
          ih _ (by omega) after rfl, List.cons_append]

theorem tokens_delimiters (hd : Config.isDelimiter d = true) (ends : Text)
    (h : ∀ c ∈ ends, c = d) (t : Text) : tokens [d] (t ++ ends) = tokens [d] t := by
  have hnone : tokens [d] [d] = [] :=
    tokens_cons ((afterSeparated?_of_none rfl).trans (afterWord?_append hd [] []))
  induction ends generalizing t with
  | nil => rw [List.append_nil]
  | cons c rest ih =>
    obtain ⟨rfl, hrest⟩ := List.forall_mem_cons.mp h
    have hends : tokens [c] (c :: rest) = [] := (ih hrest [c]).trans hnone
    rw [tokens_append_delimiter hd, hends, List.append_nil]

theorem exists_trimEnd_append (d : Char) (dropEnd : Bool) (t : Text) :
    ∃ ends, t = (trimEnd [d] dropEnd t).1 ++ ends ∧ ∀ c ∈ ends, c = d := by
  have htrim : ∃ ends, t = Text.trimRight [d].contains t ++ ends ∧ ∀ c ∈ ends, c = d := by
    obtain ⟨ends, ht, hends⟩ := exists_trimRight_append [d].contains t
    exact ⟨ends, ht, fun c hc ↦ by simpa using hends c hc⟩
  have hsame : ∃ ends, t = t ++ ends ∧ ∀ c ∈ ends, c = d := ⟨[], (List.append_nil t).symm, nofun⟩
  rw [trimEnd]
  split
  · exact hsame
  · split
    · exact htrim
    · split
      · exact htrim
      · exact hsame

/-- Without the delimiters at its end, a rule string has the same tokens. -/
theorem tokens_trimEnd (hd : Config.isDelimiter d = true) (dropEnd : Bool) (t : Text) :
    tokens [d] (trimEnd [d] dropEnd t).1 = tokens [d] t := by
  obtain ⟨ends, ht, hends⟩ := exists_trimEnd_append d dropEnd t
  conv_rhs => rw [ht, tokens_delimiters hd ends hends]

end UrlRouting.Template

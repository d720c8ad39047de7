import UrlRouting.Proofs.Template.Items

/-!
The passes over an expression whose patterns are arbitrary. In a text in which no separator stands
behind a closing parenthesis and a question mark, but for the optional variables before a literal
separator, each pass does for the variables what it is meant to do and nothing else
(`requireBefore_settled`); otherwise it removes a question mark from a pattern or from the text of
the rule string.
-/

namespace UrlRouting.Template

open Regex.Token (isVerbatim ne_of_isVerbatim)

variable {s : Setting} {d x y c : Char} {t u front ends : Text} {v : Variable} {is : List Item}
  {q : Char → Bool}

/-! ### Variables before a separator -/

/-- A literal of a kind stands first. -/
def Item.leads (q : Char → Bool) : List Item → Bool
  | .literal c :: _ => q c
  | _ => false

def Variable.required (v : Variable) : Variable := { v with optional := false }

/-- The items one after the other, where a variable is required before a literal of a kind. -/
def Setting.settled (s : Setting) (q : Char → Bool) : List Item → Text
  | [] => []
  | .literal c :: rest => s.fragment (.literal c) ++ s.settled q rest
  | .group _ v :: rest =>
    s.group (if Item.leads q rest then v.required else v) ++ s.settled q rest

theorem settled_false (s : Setting) (is : List Item) :
    s.settled (fun _ ↦ false) is = is.flatMap s.replaced := by
  induction is with
  | nil => rfl
  | cons item rest ih =>
    cases item with
    | literal c => exact congrArg _ ih
    | group token v =>
      have hleads : Item.leads (fun _ ↦ false) rest = false := by
        cases rest with
        | nil => rfl
        | cons item rest => cases item <;> rfl
      rw [Setting.settled, hleads, ih]
      rfl

theorem leads_or (p q : Char → Bool) (is : List Item) :
    Item.leads (fun c ↦ p c || q c) is = (Item.leads p is || Item.leads q is) := by
  cases is with
  | nil => rfl
  | cons item rest => cases item <;> rfl

theorem leads_eq_true (h : Item.leads q is = true) :
    ∃ c rest, is = .literal c :: rest ∧ q c = true := by
  rw [Item.leads.eq_def] at h
  split at h
  next c rest => exact ⟨c, rest, rfl, h⟩
  next => cases h

/-- The question mark of an optional variable stands behind its group. -/
theorem group_eq (s : Setting) (v : Variable) :
    s.group v = s.group v.required ++ if v.optional then ['?'] else [] := by
  simp [Setting.group, Variable.required]

theorem exists_group_required (s : Setting) (v : Variable) :
    ∃ front, s.group v.required = front ++ [')', ')'] ∧ 6 ≤ front.length := by
  refine ⟨'(' :: (v.separator ++ ("(?P<".toList ++ (v.name ++ (s.ending ++ '>' ::
    s.inner v.name)))), ?_, ?_⟩
  · simp [Setting.group, Variable.required]
  · simp
    omega

/-- The group in an expression, with its question mark or without. -/
theorem group_required (s : Setting) (v : Variable) (b : Bool) :
    s.group (if b then v.required else v) =
      s.group v.required ++ if v.optional && !b then ['?'] else [] := by
  cases b with
  | true => simp
  | false => simpa using group_eq s v

/-! ### Where a pass applies -/

/-- What a pass looks for. -/
def loose (x : Char) : Text := ")?".toList ++ separator [x]

theorem loose_eq (x : Char) :
    loose x = [')', '?', x] ∧ isVerbatim x = true ∨ loose x = [')', '?', '\\', x] := by
  rcases separator_singleton x with ⟨hs, hx⟩ | hs
  · exact .inl ⟨by rw [loose, hs]; rfl, hx⟩
  · exact .inr (by rw [loose, hs]; rfl)

theorem length_loose_le (x : Char) : (loose x).length ≤ 4 := by
  rcases loose_eq x with ⟨h, -⟩ | h <;> simp [h]

theorem separator_unique (h : separator [x] <+: separator [y] ++ t) : x = y := by
  rcases separator_singleton x with ⟨hx, hverbatim⟩ | hx <;>
    rcases separator_singleton y with ⟨hy, hverbatim'⟩ | hy <;> rw [hx, hy] at h
  · exact (List.cons_prefix_cons.mp h).1
  · exact absurd (List.cons_prefix_cons.mp h).1 (ne_of_isVerbatim hverbatim (by decide))
  · exact absurd (List.cons_prefix_cons.mp h).1.symm (ne_of_isVerbatim hverbatim' (by decide))
  · exact (List.cons_prefix_cons.mp (List.cons_prefix_cons.mp h).2).1

/-- Up to the end of a first group, it does not matter which variables are required. -/
theorem take_settled (s : Setting) (p q : Char → Bool) (is : List Item) {n : Nat} (hn : n ≤ 8) :
    (s.settled p is).take n = (s.settled q is).take n := by
  induction is generalizing n with
  | nil => rfl
  | cons item rest ih =>
    cases item with
    | literal c =>
      rw [Setting.settled, Setting.settled, List.take_append, List.take_append,
        ih ((Nat.sub_le _ _).trans hn)]
    | group token v =>
      obtain ⟨front, hfront, hlength⟩ := exists_group_required s v
      have hle : n ≤ (s.group v.required).length := by
        rw [hfront, List.length_append]
        exact hn.trans (Nat.add_le_add_right hlength 2)
      rw [Setting.settled, Setting.settled, group_required, group_required, List.append_assoc,
        List.append_assoc, List.take_append_of_le_length hle, List.take_append_of_le_length hle]

/-- So it does not matter for an occurrence that begins in front of them either. -/
theorem loose_prefix_settled (p q : Char → Bool) (h : loose x <+: u ++ s.settled p is) :
    loose x <+: u ++ s.settled q is := by
  have hlength := length_loose_le x
  rw [List.prefix_iff_eq_take, List.take_append] at h ⊢
  rw [take_settled s q p is (by omega)]
  exact h

/-- An occurrence that begins in a group, but not with its last character, ends in the group. -/
theorem loose_prefix_group (hsuffix : u <:+ front ++ [')']) (hne : u ≠ [])
    (h : loose x <+: u ++ ')' :: t) : loose x <:+: front ++ [')', ')'] := by
  obtain ⟨back, hback⟩ := hsuffix
  obtain ⟨w, rfl⟩ : ∃ w, u = w ++ [')'] := by
    rcases List.eq_nil_or_concat' u with hnil | ⟨w, c, rfl⟩
    · exact absurd hnil hne
    · rw [← List.append_assoc] at hback
      exact ⟨w, by rw [(List.append_inj' hback rfl).2]⟩
  rw [← List.append_assoc] at hback
  obtain rfl := List.append_cancel_right hback
  have hclose : loose x <+: w ++ [')', ')'] ++ t := by simpa using h
  rcases List.prefix_or_prefix_of_prefix hclose (List.prefix_append _ _) with hp | hp
  · rw [List.append_assoc]
    exact hp.isInfix.trans (List.suffix_append _ _).isInfix
  · -- an occurrence that goes on behind both parentheses would be longer
    have hshort : w.length + 2 ≤ 4 := by
      have hlength := hp.length_le.trans (length_loose_le x)
      rwa [List.length_append] at hlength
    rcases loose_eq x with ⟨hx, -⟩ | hx <;> rw [hx] at hp <;>
      rcases w with _ | ⟨a, _ | ⟨b, _ | ⟨c, w⟩⟩⟩
    all_goals first
      | exact absurd hshort (by simp only [List.length_cons]; omega)
      | simp at hp

theorem requireBefore_group (hgroup : ¬loose x <:+: s.group v.required) (t : Text) :
    ∃ front, s.group v.required = front ++ [')'] ∧
      requireBefore (separator [x]) (s.group v.required ++ t) =
        front ++ requireBefore (separator [x]) (')' :: t) := by
  obtain ⟨front, hfront, -⟩ := exists_group_required s v
  rw [hfront] at hgroup ⊢
  refine ⟨front ++ [')'], by simp, ?_⟩
  have hsplit : front ++ [')', ')'] ++ t = front ++ [')'] ++ ')' :: t := by simp
  rw [hsplit]
  exact Text.replace_front (fun u hsuffix hne hp ↦ hgroup (loose_prefix_group hsuffix hne hp)) _

theorem requireBefore_group_hit (hgroup : ¬loose x <:+: s.group v.required) (t : Text) :
    requireBefore (separator [x]) (s.group v.required ++ '?' :: (separator [x] ++ t)) =
      s.group v.required ++ (separator [x] ++ requireBefore (separator [x]) t) := by
  obtain ⟨front, hfront, hafter⟩ := requireBefore_group hgroup ('?' :: (separator [x] ++ t))
  rw [hafter, requireBefore_hit, hfront, List.append_assoc, List.singleton_append]

theorem requireBefore_group_miss (hgroup : ¬loose x <:+: s.group v.required)
    (h : ¬separator [x] <+: t) :
    requireBefore (separator [x]) (s.group v.required ++ '?' :: t) =
      s.group v.required ++ '?' :: requireBefore (separator [x]) t := by
  obtain ⟨front, hfront, hafter⟩ := requireBefore_group hgroup ('?' :: t)
  rw [hafter, requireBefore_miss h, hfront, List.append_assoc, List.singleton_append]

section Pass

variable (hdelimiter : s.delimiter = [d])

include hdelimiter

omit hdelimiter in
/-- A pass keeps a text at the head of an expression that is not changed in the end. -/
theorem requireBefore_same (h : ¬loose x <:+: front ++ s.settled (isSeparator [d]) is)
    (hmore : requireBefore (separator [x]) (s.settled q is) =
      s.settled (fun c ↦ q c || c == x) is) :
    requireBefore (separator [x]) (front ++ s.settled q is) =
      front ++ s.settled (fun c ↦ q c || c == x) is := by
  rw [← hmore]
  refine Text.replace_front (fun u hsuffix _ hp ↦ h ?_) _
  obtain ⟨back, rfl⟩ := hsuffix
  rw [List.append_assoc]
  exact (loose_prefix_settled _ _ hp).isInfix.trans (List.suffix_append _ _).isInfix

/-- A variable before a separator becomes required in the pass for that separator. -/
theorem requireBefore_variable {more : List Item} (hy : isSeparator [d] y = true)
    (hgroup : ¬loose x <:+: s.group v.required)
    (hmore : requireBefore (separator [x]) (s.settled q more) =
      s.settled (fun c ↦ q c || c == x) more)
    (hrest : requireBefore (separator [x]) (s.settled q (.literal y :: more)) =
      s.settled (fun c ↦ q c || c == x) (.literal y :: more)) :
    requireBefore (separator [x]) (s.group v.required ++ '?' :: s.settled q (.literal y :: more)) =
      s.group v.required ++ ((if y == x then [] else ['?']) ++
        s.settled (fun c ↦ q c || c == x) (.literal y :: more)) := by
  by_cases hxy : y = x
  · subst hxy
    rw [Setting.settled, Setting.settled, fragment_separator hdelimiter hy,
      requireBefore_group_hit hgroup, hmore]
    simp
  · have hmiss : ¬separator [x] <+: s.settled q (.literal y :: more) := by
      rw [Setting.settled, fragment_separator hdelimiter hy]
      exact fun hp ↦ hxy (separator_unique hp).symm
    rw [requireBefore_group_miss hgroup hmiss, hrest]
    simp [hxy]

/-- A pass makes the variables required before one separator, and nothing else. -/
theorem requireBefore_settled (hq : ∀ c, q c = true → isSeparator [d] c = true)
    (hx : isSeparator [d] x = true) (h : ¬loose x <:+: s.settled (isSeparator [d]) is) :
    requireBefore (separator [x]) (s.settled q is) =
      s.settled (fun c ↦ q c || c == x) is := by
  induction hl : is.length using Nat.strongRecOn generalizing is with
  | ind length ih =>
    subst hl
    cases is with
    | nil => rfl
    | cons item rest =>
      have hrest : ¬loose x <:+: s.settled (isSeparator [d]) rest := by
        refine fun hin ↦ h ?_
        cases item <;> exact hin.trans (List.suffix_append _ _).isInfix
      have hmore := ih rest.length (Nat.lt_succ_self _) hrest rfl
      cases item with
      | literal c => exact requireBefore_same h hmore
      | group token v =>
        rw [Setting.settled, group_required] at h ⊢
        rw [Setting.settled, group_required, leads_or]
        cases hlast : Item.leads (isSeparator [d]) rest with
        | false =>
          -- no separator comes next, and none of those of the passes so far
          have hnone {p : Char → Bool} (hp : ∀ c, p c = true → isSeparator [d] c = true) :
              Item.leads p rest = false := by
            refine Bool.eq_false_iff.mpr fun hleads ↦ ?_
            obtain ⟨c, more, rfl, hc⟩ := leads_eq_true hleads
            rw [Item.leads, hp c hc] at hlast
            cases hlast
          rw [hlast] at h
          rw [hnone hq, hnone (p := (· == x)) fun c hc ↦ beq_iff_eq.mp hc ▸ hx]
          exact requireBefore_same h hmore
        | true =>
          obtain ⟨y, more, rfl, hy⟩ := leads_eq_true hlast
          rw [hlast, Bool.not_true, Bool.and_false] at h
          have hgroup : ¬loose x <:+: s.group v.required := fun hin ↦
            h (by rw [if_neg Bool.false_ne_true, List.append_nil]
                  exact hin.trans (List.prefix_append _ _).isInfix)
          have hafter := ih more.length (Nat.lt_succ_of_lt (Nat.lt_succ_self _))
            (fun hin ↦ hrest (hin.trans (List.suffix_append _ _).isInfix)) rfl
          simp only [Item.leads, Bool.not_or, ← Bool.and_assoc]
          by_cases hopen : (v.optional && !q y) = true
          · have hvariable := requireBefore_variable hdelimiter hy hgroup hafter hmore
            cases hxy : y == x <;> simpa [hopen, hxy] using hvariable
          · simp only [Bool.eq_false_iff.mpr hopen]
            exact requireBefore_same h hmore

end Pass

/-! ### What the passes leave -/

theorem prefix_of_prefix_requireBefore (h : ')' ∉ front) (hp : front <+: requireBefore ends t) :
    front <+: t :=
  ((Thins.requireBefore ends t).prefix_iff h).mp hp

theorem not_mem_separator (hx : x ≠ ')') : ')' ∉ separator [x] := by
  rcases separator_singleton x with ⟨hs, -⟩ | hs <;> simp [hs, Ne.symm hx]

theorem loose_infix_append (h : ')' ∉ front) (hin : loose x <:+: front ++ t) : loose x <:+: t := by
  induction front with
  | nil => exact hin
  | cons c rest ih =>
    rw [List.mem_cons, not_or] at h
    rcases List.infix_cons_iff.mp hin with hp | hin
    · exact absurd (List.cons_prefix_cons.mp hp).1 h.1
    · exact ih h.2 hin

/-- A pass leaves nothing that it looks for, and makes nothing that another pass looks for. -/
theorem loose_infix_requireBefore (hx : x ≠ ')') (hy : y ≠ ')')
    (h : loose y <:+: requireBefore (separator [x]) t) : loose y <:+: t ∧ x ≠ y := by
  refine Text.replace_induction (motive := fun t t' ↦ loose y <:+: t' → loose y <:+: t ∧ x ≠ y)
    (show loose x ≠ [] from List.cons_ne_nil _ _) ?_ ?_ ?_ t h
  · intro h
    cases List.infix_nil.mp h
  · intro t ih h
    obtain ⟨c, rest, hs, hmark⟩ : ∃ c rest, separator [x] = c :: rest ∧ c ≠ '?' := by
      rcases separator_singleton x with ⟨hs, hverbatim⟩ | hs
      · exact ⟨x, [], hs, ne_of_isVerbatim hverbatim (by decide)⟩
      · exact ⟨'\\', [x], hs, by decide⟩
    rw [List.cons_append] at h
    rcases List.infix_cons_iff.mp h with hp | hin
    · have hnext := (List.cons_prefix_cons.mp hp).2
      rw [hs] at hnext
      exact absurd (List.cons_prefix_cons.mp hnext).1.symm hmark
    · obtain ⟨hbefore, hne⟩ := ih (loose_infix_append (not_mem_separator hx) hin)
      exact ⟨hbefore.trans (List.suffix_append _ _).isInfix, hne⟩
  · intro c t hnot ih h
    rcases List.infix_cons_iff.mp h with hp | hin
    · obtain ⟨rfl, hafter⟩ := List.cons_prefix_cons.mp hp
      have hmark : ')' ∉ '?' :: separator [y] := by simp [not_mem_separator hy]
      have hbefore : loose y <+: ')' :: t :=
        List.cons_prefix_cons.mpr ⟨rfl, prefix_of_prefix_requireBefore hmark hafter⟩
      exact ⟨hbefore.isInfix, fun he ↦ hnot (he ▸ hbefore)⟩
    · obtain ⟨hbefore, hne⟩ := ih hin
      exact ⟨hbefore.trans (List.suffix_cons _ _).isInfix, hne⟩

/-! ### The expression -/

/-- No separator stands behind a closing parenthesis and a question mark. -/
def Setting.Tight (s : Setting) (d : Char) (is : List Item) : Prop :=
  ∀ x, isSeparator [d] x = true → ¬loose x <:+: s.settled (isSeparator [d]) is

/-- The expression of a rule string in which nothing but the question mark of a variable that is
required is left out. -/
def Setting.intact (s : Setting) (d : Char) (rule : Text) (complete dropEnd : Bool) : Text :=
  s.settled (isSeparator [d]) (items d (trimEnd [d] dropEnd rule).1) ++
    (if (trimEnd [d] dropEnd rule).2 then separator [d] else []) ++ if complete then ['$'] else []

section Expression

variable (hdelimiter : s.delimiter = [d])

include hdelimiter

/-- All passes together require every variable before a literal separator. -/
theorem requireBefore_all (h : s.Tight d is) :
    requireBefore (separator [d]) (requireBefore "-" (requireBefore "/" (is.flatMap s.replaced))) =
      s.settled (isSeparator [d]) is := by
  have hslash : isSeparator [d] '/' = true := rfl
  have hhyphen : isSeparator [d] '-' = true := rfl
  have hall : (fun c ↦ ((false || c == '/') || c == '-') || c == d) = isSeparator [d] := by
    refine funext fun c ↦ Bool.eq_iff_iff.mpr ?_
    simp [isSeparator_singleton, or_assoc]
  have hlast : isSeparator [d] d = true := isSeparator_singleton.mpr (.inr (.inr rfl))
  have hfirst := requireBefore_settled (q := fun _ ↦ false) hdelimiter nofun hslash (h _ hslash)
  have hsecond := requireBefore_settled (q := fun c ↦ false || c == '/') hdelimiter
    (fun c hc ↦ isSeparator_singleton.mpr (.inl (by simpa using hc))) hhyphen (h _ hhyphen)
  have hthird := requireBefore_settled (q := fun c ↦ (false || c == '/') || c == '-') hdelimiter
    (fun c hc ↦ isSeparator_singleton.mpr
      (Or.imp_right .inl (by simpa using hc : c = '/' ∨ c = '-'))) hlast (h _ hlast)
  rw [hall] at hthird
  rw [settled_false] at hfirst
  rw [← hthird, ← hsecond, ← hfirst]
  rfl

omit hdelimiter in
theorem tight_of_requireBefore (hd : d ≠ ')')
    (h : requireBefore (separator [d]) (requireBefore "-" (requireBefore "/" t)) =
      s.settled (isSeparator [d]) is) : s.Tight d is := by
  intro x hx hin
  have hne : x ≠ ')' := by
    rintro rfl
    rcases isSeparator_singleton.mp hx with hx | hx | hx
    · exact absurd hx (by decide)
    · exact absurd hx (by decide)
    · exact hd hx.symm
  rw [← h] at hin
  obtain ⟨hin, hlast⟩ := loose_infix_requireBefore hd hne hin
  obtain ⟨hin, hhyphen⟩ := loose_infix_requireBefore (x := '-') (by decide) hne hin
  obtain ⟨-, hslash⟩ := loose_infix_requireBefore (x := '/') (by decide) hne hin
  rcases isSeparator_singleton.mp hx with he | he | he
  · exact hslash he.symm
  · exact hhyphen he.symm
  · exact hlast he.symm

/-- The expression of a rule string is that of its items, after the passes. -/
theorem expression_eq_passes (hd : Config.isDelimiter d = true) (rule : Text)
    (complete dropEnd : Bool) :
    s.expression rule (tokens [d] rule) complete dropEnd =
      requireBefore (separator [d]) (requireBefore "-" (requireBefore "/"
        ((items d (trimEnd [d] dropEnd rule).1).flatMap s.replaced))) ++
      (if (trimEnd [d] dropEnd rule).2 then separator [d] else []) ++
        if complete then ['$'] else [] := by
  have hreplaced : replaceAll (s.replacements (tokens [d] rule)) (trimEnd [d] dropEnd rule).1 =
      (items d (trimEnd [d] dropEnd rule).1).flatMap s.replaced :=
    replaceAll_items hdelimiter hd rule fun token v hmem ↦
      tokens_trimEnd hd dropEnd rule ▸ (of_mem_items hd hmem).1
  rw [← hreplaced, Setting.expression, hdelimiter]

/-- The expression of a rule string consists of its items in order, each variable as its own group
with its own pattern, exactly where no separator stands behind a closing parenthesis and a question
mark in it. (In front of a delimiter that is a parenthesis itself, such a question mark may be
kept.) -/
theorem expression_eq_intact (hd : Config.isDelimiter d = true) (rule : Text)
    (complete dropEnd : Bool) :
    (items d (trimEnd [d] dropEnd rule).1).flatMap Item.text = (trimEnd [d] dropEnd rule).1 ∧
    (items d (trimEnd [d] dropEnd rule).1).filterMap Item.asVariable? =
      (tokens [d] rule).filterMap (fun token ↦ (Variable.ofToken? [d] token).map (token, ·)) ∧
    (s.Tight d (items d (trimEnd [d] dropEnd rule).1) →
      s.expression rule (tokens [d] rule) complete dropEnd = s.intact d rule complete dropEnd) ∧
    (d ≠ ')' →
      s.expression rule (tokens [d] rule) complete dropEnd = s.intact d rule complete dropEnd →
        s.Tight d (items d (trimEnd [d] dropEnd rule).1)) := by
  refine ⟨text_items d _, ?_, fun htight ↦ ?_, fun hclosing h ↦ ?_⟩
  · rw [variables_items hd, tokens_trimEnd hd]
  · rw [expression_eq_passes hdelimiter hd, requireBefore_all hdelimiter htight, Setting.intact]
  · rw [expression_eq_passes hdelimiter hd, Setting.intact, List.append_assoc,
      List.append_assoc] at h
    exact tight_of_requireBefore hclosing (List.append_cancel_right h)

end Expression

/-- The optional variable before a segment, with the default pattern. -/
theorem expression_id_edit :
    let s : Setting := ⟨[], defaultPattern, [], namedPatterns, ['/']⟩
    s.delimiter = ['/'] ∧ Config.isDelimiter '/' = true ∧
      s.Tight '/' (items '/' (trimEnd ['/'] false "/<id?>/edit").1) ∧
      s.expression "/<id?>/edit" (tokens ['/'] "/<id?>/edit") false false =
        s.intact '/' "/<id?>/edit" false false ∧
      s.intact '/' "/<id?>/edit" false false = "(/(?P<id>[\\w\\.]+))/edit".toList := by
  intro s
  have htight : s.Tight '/' (items '/' (trimEnd ['/'] false "/<id?>/edit").1) := by
    intro x hx
    rcases isSeparator_singleton.mp hx with rfl | rfl | rfl <;> decide +kernel
  exact ⟨rfl, by decide, htight,
    (expression_eq_intact rfl (by decide) "/<id?>/edit" false false).2.2.1 htight,
    by decide +kernel⟩

/-- A pattern in which a hyphen stands behind an optional group loses the question mark. -/
theorem not_forall_expression_eq_intact :
    ¬∀ (s : Setting) (d : Char) (rule : Text) (complete dropEnd : Bool),
      s.delimiter = [d] → Config.isDelimiter d = true →
        s.expression rule (tokens [d] rule) complete dropEnd =
          s.intact d rule complete dropEnd := by
  intro h
  have hpattern := h ⟨[("v", "(a)?-b")], defaultPattern, [], namedPatterns, ['/']⟩ '/' "/<v>"
    false false rfl (by decide)
  revert hpattern
  decide +kernel

end UrlRouting.Template

import Mathlib.Data.Nat.Digits.Defs
import UrlRouting.Proofs.Template.Opening
import UrlRouting.Proofs.Variables.Captured

/-!
Variables that are to be whole numbers. A run of digits of whatever scripts is read as the number
that it denotes, unless it is longer than the numerals that are read at all (`coerce_digits`). An
expression captures nothing but digits for such a variable (`isDigit_of_captured`), so
`named?_vars_of_isWhole` says which value a decision binds it to.
-/

namespace UrlRouting

/-! ### Digits -/

namespace Text

variable {c : Char} {t : Text} {n : Nat}

theorem covers_eq_false {table other : Intervals}
    (h : ∀ i ∈ table, ∀ j ∈ other, i.2 < j.1 ∨ j.2 < i.1) (hn : table.covers n = true) :
    other.covers n = false := by
  obtain ⟨i, hi, hin⟩ := List.any_eq_true.mp hn
  refine Bool.eq_false_iff.mpr fun hother ↦ ?_
  obtain ⟨j, hj, hjn⟩ := List.any_eq_true.mp hother
  have := h i hi j hj
  simp only [Bool.and_eq_true, decide_eq_true_eq] at hin hjn
  omega

theorem isBlank_of_isDigit (h : isDigit c = true) : isBlank c = false := by
  rw [isDigit, hasProperty] at h
  rw [isBlank, hasProperty]
  split
  next hsmall =>
    rw [if_pos hsmall] at h
    have hzero : '0' ≤ c := by
      simp only [Char.isDigit, Bool.and_eq_true, decide_eq_true_eq] at h
      exact h.1
    have hbelow {x : Char} (hx : x < '0') : ¬c ≤ x :=
      Char.not_le.mpr (UInt32.lt_of_lt_of_le hx hzero)
    have hspace : c ≠ ' ' := fun he ↦ hbelow (x := ' ') (by decide) (he ▸ Char.le_refl c)
    simp [hspace, hbelow (x := '\r') (by decide), hbelow (x := '\x1f') (by decide)]
  next hlarge =>
    -- beyond ASCII, both are tables of intervals, and no two of these meet
    rw [if_neg hlarge] at h
    exact covers_eq_false (by decide) h

theorem isSome_digitValue? (h : isDigit c = true) : (digitValue? c).isSome = true := by
  rw [isDigit, hasProperty] at h
  rw [digitValue?]
  split
  next hsmall =>
    rw [if_pos hsmall] at h
    rw [if_pos h]
    rfl
  next hlarge =>
    rw [if_neg hlarge] at h
    rw [Option.isSome_map, List.find?_isSome]
    exact List.any_eq_true.mp h

theorem trim_of_forall {p : Char → Bool} (h : ∀ c ∈ t, p c = false) : trim p t = t := by
  have hself {t : Text} (h : ∀ c ∈ t, p c = false) : t.dropWhile p = t := by
    cases t with
    | nil => rfl
    | cons c t => exact List.dropWhile_cons_of_neg (by simp [h c List.mem_cons_self])
  rw [trim, trimLeft, hself h, trimRight, hself fun c hc ↦ h c (List.mem_reverse.mp hc),
    List.reverse_reverse]

end Text

namespace Decimal

variable {t : Text}

/-- The number that a run of digits denotes. -/
def valueOf (t : Text) : Nat := Nat.ofDigits 10 (t.filterMap Text.digitValue?).reverse

theorem ofDigits_eq (digits : List Nat) : ofDigits digits = Nat.ofDigits 10 digits.reverse := by
  rw [Nat.ofDigits_eq_foldr, List.foldr_reverse, ofDigits]
  refine congrArg (List.foldl · 0 digits) (funext fun n ↦ funext fun d ↦ ?_)
  exact Nat.add_comm _ _

theorem takeDigits_of_isDigit (h : ∀ c ∈ t, Text.isDigit c = true) (behind : Bool) :
    takeDigits t behind = (t.filterMap Text.digitValue?, []) := by
  induction t generalizing behind with
  | nil => rfl
  | cons c t ih =>
    obtain ⟨hc, ht⟩ := List.forall_mem_cons.mp h
    obtain ⟨n, hn⟩ := Option.isSome_iff_exists.mp (Text.isSome_digitValue? hc)
    -- an underscore between digits would be passed over
    have hline : c ≠ '_' := by
      rintro rfl
      exact absurd hc (by decide)
    rw [takeDigits, hn, ih ht]
    · simp [hn]
    · exact fun _ _ _ he ↦ absurd he hline

theorem readInt?_of_isDigit (hne : t ≠ []) (h : ∀ c ∈ t, Text.isDigit c = true) :
    readInt? t = if t.length ≤ digitLimit then some (valueOf t : Int) else none := by
  have htrim : Text.trim Text.isNumeralBlank t = t := by
    refine Text.trim_of_forall fun c hc ↦ ?_
    rw [Text.isNumeralBlank, Text.isBlank_of_isDigit (h c hc), Bool.false_and]
  have hsign : takeSign t = (false, t) := by
    rw [takeSign.eq_def]
    split
    next => exact absurd (h _ List.mem_cons_self) (by decide)
    next => exact absurd (h _ List.mem_cons_self) (by decide)
    next => rfl
  have hlength : (t.filterMap Text.digitValue?).length = t.length := by
    rw [List.length_filterMap_eq_countP, List.countP_eq_length]
    exact fun c hc ↦ Text.isSome_digitValue? (h c hc)
  have hdigits : t.filterMap Text.digitValue? ≠ [] := by
    rw [← List.length_pos_iff, hlength]
    exact List.length_pos_iff.mpr hne
  rw [readInt?, htrim, hsign]
  dsimp only
  rw [takeDigits_of_isDigit h]
  split
  next he => exact absurd (Prod.mk.inj he).1 hdigits
  next digits he =>
    obtain ⟨rfl, -⟩ := Prod.mk.inj he
    rw [hlength, ofDigits_eq, ← valueOf]
    rfl
  next he => cases (Prod.mk.inj he).2

end Decimal

namespace Variables

variable {t p : Text}

/-- The patterns of variables that are to be whole numbers. -/
def IsWhole (p : Text) : Prop := p = "int" ∨ p = "\\d+"

theorem coerce_of_isWhole (hp : IsWhole p) (t : Text) :
    coerce (.str t) (.str p) = (Decimal.readInt? t).elim (.str t) Value.int := by
  have hwhole : (decide (p = "int".toList) || decide (p = "\\d+".toList)) = true := by
    rwa [Bool.or_eq_true, decide_eq_true_eq, decide_eq_true_eq]
  rw [coerce, if_pos hwhole]
  cases Decimal.readInt? t <;> rfl

/-- A run of digits becomes the number that it denotes, if it is not too long. -/
theorem coerce_digits (hp : IsWhole p) (hne : t ≠ []) (h : ∀ c ∈ t, Text.isDigit c = true) :
    coerce (.str t) (.str p) =
      if t.length ≤ Decimal.digitLimit then .int (Decimal.valueOf t) else .str t := by
  rw [coerce_of_isWhole hp, Decimal.readInt?_of_isDigit hne h]
  split <;> rfl

end Variables

namespace CompiledRule

open Template

variable {c : CompiledRule} {url v text p : Text} {complete : Bool} {captures : Captures}

/-- What is captured for a variable that is to be a whole number is a run of digits, if no pattern
of another variable opens a group with its name. -/
theorem isDigit_of_captured (hcapture : c.capture url complete = .ok (some captures))
    (hmem : (v, some text) ∈ captures)
    (hv : v ∈ variableNames c.config.delimiterText c.tokens)
    (hinner : c.filledSetting.inner v = "\\d+")
    (hothers : ∀ other ∈ variableNames c.config.delimiterText c.tokens, other ≠ v →
      ¬Regex.Token.groupOpening v <:+: c.filledSetting.inner other) :
    text ≠ [] ∧ ∀ x ∈ text, Text.isDigit x = true := by
  obtain ⟨r, place, hr, hplace, rfl⟩ := (exists_of_capture hcapture).resolve_left fun hdecided ↦
    List.ne_nil_of_mem hmem (eq_nil_of_decided? hdecided)
  have hopens := opens_expression (s := c.filledSetting) rfl c.config.isDelimiter_delimiter c.path
    complete c.dropsEnd rfl hv hinner (by decide) hothers
  exact Regex.isDigit_of_namedGroups (parse_of_regex hr) (opens_cons_of_ne (by decide) hopens)
    hplace hmem

theorem inner_filledSetting (h : c.patterns.named v = .str p) :
    c.filledSetting.inner v = resolve (.ofMapping c.aliases) p := by
  have hnamed : c.patterns.named? v = some (.str p) := by
    rw [Mapping.named] at h
    cases hfound : c.patterns.named? v with
    | none =>
      rw [hfound] at h
      cases h
    | some value =>
      rw [hfound] at h
      exact congrArg some h
  have hlookup : (Patterns.ofMapping c.patterns).lookup v = some p := lookup_ofMapping hnamed
  rw [Setting.inner, filledSetting, Setting.filled, hlookup]

end CompiledRule

/-! ### Decisions of rules -/

/-- A run of digits with the pattern of a whole number becomes the number that it denotes, if it has
not more digits than numerals may have; a longer one stays as it is. So a variable with such a
pattern, which no parameter replaces, is surfaced as a number, or else as a run of digits that is
too long. -/
theorem named?_vars_of_isWhole {p : Text} (hp : Variables.IsWhole p) :
    (∀ text, text ≠ [] → (∀ x ∈ text, Text.isDigit x = true) →
      Variables.coerce (.str text) (.str p) =
        if text.length ≤ Decimal.digitLimit then .int (Decimal.valueOf text) else .str text) ∧
    ∀ (t s : Table) (id : NodeId) (request : Http.Request) (url : Text) (asked anyDomain : Bool)
      (d : Dispatch), t.Reachable →
      (Action.checkRule id request url asked anyDomain).run t = .ok (some d) s →
      ∃ c captures params, t.ruleAt id = .ok c ∧
        c.capture (c.trimmed request.ext url) (c.isComplete asked) = .ok (some captures) ∧
        Variables.tail captures.toMapping c.text (c.trimmed request.ext url)
          (c.parameterDelimiter c.options) = .ok params ∧
        ∀ v text, (v, some text) ∈ captures → params.named? v = none →
          v ∈ Template.variableNames c.config.delimiterText c.tokens → v ∉ Variables.reserved →
          (t.effectivePatterns id).named v = .str p →
          Template.resolve (.ofMapping c.aliases) p = "\\d+" →
          (∀ other ∈ Template.variableNames c.config.delimiterText c.tokens, other ≠ v →
            ¬Regex.Token.groupOpening v <:+: c.filledSetting.inner other) →
          text ≠ [] ∧ (∀ x ∈ text, Text.isDigit x = true) ∧
            d.vars.named? v = some (if text.length ≤ Decimal.digitLimit then
              .int (Decimal.valueOf text) else .str text) := by
  refine ⟨fun text hne h ↦ Variables.coerce_digits hp hne h,
    fun t s id request url asked anyDomain d ht hd ↦ ?_⟩
  obtain ⟨c, captures, params, hat, hcaptures, hparams, hextract⟩ := exists_extract ht hd
  refine ⟨c, captures, params, hat, hcaptures, hparams,
    fun v text hmem hnone hv hreserved hpattern hresolve hothers ↦ ?_⟩
  have hgroup := Captures.get?_toMapping (CompiledRule.captured_names hcaptures).1 hmem
  have hvalue := Variables.get?_extract hreserved hgroup hparams hextract
  have hinner : c.filledSetting.inner v = "\\d+" := by
    rw [← Table.patterns_of_ruleAt hat] at hpattern
    exact (CompiledRule.inner_filledSetting hpattern).trans hresolve
  obtain ⟨hne, hdigits⟩ := CompiledRule.isDigit_of_captured hcaptures hmem hv hinner hothers
  refine ⟨hne, hdigits, ?_⟩
  rw [hvalue, hnone, hpattern]
  exact congrArg some (Variables.coerce_digits hp hne hdigits)

theorem named?_vars_of_isWhole_userRule : Variables.IsWhole "int".toList ∧
    "42".toList ≠ [] ∧ (∀ x ∈ "42".toList, Text.isDigit x = true) ∧
    Variables.coerce "42" "int" = .int 42 ∧
    ∃ d s c captures params, Table.userRule.Reachable ∧
      (Action.checkRule 1 (.bare "GET" "/") "user/42" false false).run Table.userRule =
        .ok (some d) s ∧
      Table.userRule.ruleAt 1 = .ok c ∧
      c.capture (c.trimmed [] "user/42") (c.isComplete false) = .ok (some captures) ∧
      Variables.tail captures.toMapping c.text (c.trimmed [] "user/42")
        (c.parameterDelimiter c.options) = .ok params ∧
      ("id".toList, some "42".toList) ∈ captures ∧ params.named? "id" = none ∧
      "id".toList ∈ Template.variableNames c.config.delimiterText c.tokens ∧
      "id".toList ∉ Variables.reserved ∧
      (Table.userRule.effectivePatterns 1).named "id" = "int" ∧
      Template.resolve (.ofMapping c.aliases) "int" = "\\d+".toList ∧
      (∀ other ∈ Template.variableNames c.config.delimiterText c.tokens, other ≠ "id".toList →
        ¬Regex.Token.groupOpening "id" <:+: c.filledSetting.inner other) ∧
      d.vars.named? "id" = some (.int 42) := by
  have hwhole : Variables.IsWhole "int".toList := .inl rfl
  obtain ⟨hcoerce, hvars⟩ := named?_vars_of_isWhole hwhole
  have hdigits : ∀ x ∈ "42".toList, Text.isDigit x = true := by decide
  have hsome : ((Action.checkRule 1 (.bare "GET" "/") "user/42" false false).answer?
      Table.userRule).join.isSome = true := by decide +kernel
  obtain ⟨d, hd⟩ := Option.isSome_iff_exists.mp hsome
  obtain ⟨s, hd⟩ := Action.exists_run_of_answer? (Option.join_eq_some_iff.mp hd)
  obtain ⟨c, captures, params, hat, hcaptures, hparams, hall⟩ :=
    hvars _ _ _ _ _ _ _ _ reachable_userRule hd
  obtain rfl := Table.captures_eq [("id".toList, some "42".toList)] hat hcaptures
    (by decide +kernel)
  have hfacts : ((Table.userRule.ruleAt 1).toOption.any fun c ↦
      decide (Template.variableNames c.config.delimiterText c.tokens = ["id".toList] ∧
        Template.resolve (.ofMapping c.aliases) "int" = "\\d+".toList)) = true := by
    decide +kernel
  obtain ⟨_, hat', hfacts⟩ := exists_ok_of_any hfacts
  obtain rfl := Except.ok.inj (hat.symm.trans hat')
  obtain ⟨hnames, hresolve⟩ := of_decide_eq_true hfacts
  have hnone : params.named? "id" = none := Option.isNone_iff_eq_none.mp
    (Table.read_params (fun params ↦ (params.named? "id").isNone) hat hparams (by decide +kernel))
  have hpattern : (Table.userRule.effectivePatterns 1).named "id" = "int" :=
    Value.text?_eq_some_iff.mp (by decide +kernel)
  have hid : "id".toList ∉ Variables.reserved := by decide
  have hmem : ("id".toList, some "42".toList) ∈ [("id".toList, some "42".toList)] :=
    List.mem_singleton_self _
  have hname : "id".toList ∈ Template.variableNames c.config.delimiterText c.tokens := by
    rw [hnames]
    exact List.mem_singleton_self _
  have hothers : ∀ other ∈ Template.variableNames c.config.delimiterText c.tokens,
      other ≠ "id".toList → ¬Regex.Token.groupOpening "id" <:+: c.filledSetting.inner other := by
    intro other hother hne
    rw [hnames] at hother
    exact absurd (List.mem_singleton.mp hother) hne
  obtain ⟨-, -, hvalue⟩ :=
    hall _ _ hmem hnone hname hid hpattern hresolve hothers
  exact ⟨hwhole, by decide, hdigits, hcoerce _ (by decide) hdigits, d, s, c, _, params,
    reachable_userRule, hd, hat, hcaptures, hparams, hmem, hnone, hname, hid, hpattern, hresolve,
    hothers, hvalue⟩

/-- A run of digits need not become a number: it stays as it is if it is too long. -/
theorem not_forall_coerce_eq_int : ¬∀ text p, Variables.IsWhole p → text ≠ [] →
    (∀ x ∈ text, Text.isDigit x = true) →
    Variables.coerce (.str text) (.str p) = .int (Decimal.valueOf text) := by
  intro h
  have hne : List.replicate (Decimal.digitLimit + 1) '1' ≠ [] := List.cons_ne_nil _ _
  have hdigits : ∀ x ∈ List.replicate (Decimal.digitLimit + 1) '1', Text.isDigit x = true := by
    intro x hx
    rw [List.eq_of_mem_replicate hx]
    decide
  have hint := h _ _ (.inl rfl) hne hdigits
  rw [Variables.coerce_digits (.inl rfl) hne hdigits, List.length_replicate,
    if_neg (Nat.not_succ_le_self _)] at hint
  cases hint

end UrlRouting

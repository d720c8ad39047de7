import UrlRouting.Proofs.Table.Complete
import UrlRouting.Proofs.Template.Heading
import UrlRouting.Proofs.Text.Blurring

/-!
The text before the first variable of a path. A URL that does not begin with it is refused before
the expression is tried, and where its characters are inert, the expression would refuse it as well:
`matchPath_eq_captured`. What the expression takes for this text is otherwise another one.
-/

namespace UrlRouting

open Http Template Template.Part

namespace CompiledRule

variable {c : CompiledRule} {r : Regex} {t url : Text} {complete asked : Bool} {request : Request}
  {d : Dispatch} {p : Regex.Place}

/-- The text before the first variable of the path. -/
def head (c : CompiledRule) : Text := literalHead c.config.delimiterText c.path

/-- The text before the first variable stands for itself in the expression, and its small form does
not depend on what comes after it. -/
def HasInertHead (c : CompiledRule) : Prop :=
  ∀ x ∈ c.head, isInert c.config.delimiter x = true ∧ x ≠ 'Σ'

instance (c : CompiledRule) : Decidable c.HasInertHead :=
  inferInstanceAs (Decidable (∀ _ ∈ _, _))

/-- The expression takes something else for the text before the first variable: another alternative
that a pattern has split off, or letters that differ in their small forms only. -/
def Departs (c : CompiledRule) (r : Regex) (t : Text) : Prop :=
  (∃ p, r.matchStart? t = some p ∧ r.Deviates t p) ∨
    (c.ignoresCase = true ∧ Text.BlursWithin c.head t)

/-- The characters of the text before the first variable come first in the expression. -/
theorem exists_root_head (hpath : '<' ∈ c.path) (hhead : c.HasInertHead)
    (hregex : c.regex complete = .ok r) : ∃ more others,
    r.root = Regex.Node.alternatives (Regex.Node.sequence (.anchor .textStart ::
      (c.head.map (single c.ignoresCase)).map .char ++ more) :: others) := by
  have hinert : ∀ x ∈ c.head, isInert c.config.delimiter x = true := fun x hx ↦ (hhead x hx).1
  have hd := c.config.isDelimiter_delimiter
  rcases literalHead_cases c.config.delimiter c.path with
    hwhole | ⟨lead, name, optional, rest, hslot, htext, hadjoins⟩
  · have hmem : '<' ∈ c.head := by
      rw [head, Config.delimiterText, hwhole]
      exact hpath
    exact absurd rfl (ne_of_isInert hd (hinert _ hmem)).1
  · have hparse := parse_of_regex hregex
    have hdelimiter : c.filledSetting.delimiter = [c.config.delimiter] := rfl
    obtain ⟨x, u, hx, hu⟩ :=
      exists_expression_head hdelimiter hd hinert hslot hadjoins htext complete c.dropsEnd
    rw [tokens, Config.delimiterText, hu] at hparse
    refine Regex.exists_root_of_reads (reads_literals hdelimiter hd hinert _ _) ?_ hparse
    exact fun he ↦ hx (Option.some.inj he)

theorem contains_single {ignoreCase : Bool} {x y : Char} :
    (single ignoreCase x).contains y = true ↔
      if ignoreCase then x ∈ Text.caseVariants y else y = x := by
  have hone : (single ignoreCase x).contains y =
      ((Regex.Modes.initial ignoreCase).folding.variants y).any fun v ↦ v.toNat == x.toNat := by
    simp [single, Regex.CharSet.contains, Regex.SetItem.contains]
  rw [hone, List.any_eq_true]
  cases ignoreCase with
  | false => simp [Regex.Modes.initial, Regex.Modes.folding, Regex.Folding.variants, Char.toNat_inj]
  | true => simp [Regex.Modes.initial, Regex.Modes.folding, Regex.Folding.variants, Char.toNat_inj]

/-- What the first alternative matches begins with the text, small letter by small letter. -/
theorem lower_prefix_of_stand {head : Text} (hsigma : 'Σ' ∉ head)
    (h : Regex.Stand (head.map (single c.ignoresCase)) t) :
    Text.lower head <+: Text.lower t ∨ (c.ignoresCase = true ∧ Text.BlursWithin head t) := by
  obtain ⟨front, rest, rfl, hstand⟩ := h
  rw [List.forall₂_map_left_iff] at hstand
  simp only [contains_single] at hstand
  cases hcase : c.ignoresCase with
  | false =>
    simp only [hcase, Bool.false_eq_true, if_false, eq_comm, List.forall₂_eq_eq_eq] at hstand
    obtain rfl := hstand
    exact .inl (Text.lower_prefix hsigma rest)
  | true =>
    simp only [hcase, if_true] at hstand
    by_cases hblurs : Text.BlursWithin head (front ++ rest)
    · exact .inr ⟨rfl, hblurs⟩
    · exact .inl (Text.lower_prefix_of_forall₂ hstand hsigma hblurs)

/-- Whatever the expression matches begins with the text before the first variable, without regard
to case. -/
theorem lower_prefix_of_matchStart? (hpath : '<' ∈ c.path) (hhead : c.HasInertHead)
    (hregex : c.regex complete = .ok r) (hmatch : r.matchStart? t = some p) :
    Text.lower c.head <+: Text.lower t ∨ c.Departs r t := by
  obtain ⟨more, others, hroot⟩ := exists_root_head hpath hhead hregex
  have hrun := hmatch
  rw [Regex.matchStart?, hroot] at hrun
  rcases Regex.run_alternatives_cons hrun with hfirst | hother
  · exact (lower_prefix_of_stand (fun hmem ↦ (hhead _ hmem).2 rfl)
      (Regex.stand_of_sequence hfirst)).imp_right .inr
  · exact .inr (.inl ⟨p, hmatch, _, _, hroot, hother⟩)

theorem capture_eq_ite (hpath : '<' ∈ c.path) (hregex : c.regex complete = .ok r) :
    c.capture url complete =
      if Text.startsWith (Text.lower (c.config.delimiter :: url)) (Text.lower c.head) then
        .ok (c.captured r url)
      else .ok none := by
  have hlong : ¬(c.path == c.config.delimiterText && !url.isEmpty) = true := by
    rw [Bool.and_eq_true, beq_iff_eq]
    rintro ⟨hone, -⟩
    rw [hone] at hpath
    have hd := c.config.isDelimiter_delimiter
    rw [← List.mem_singleton.mp hpath] at hd
    exact absurd hd (by decide)
  rw [capture, decided?, if_neg hlong, List.contains_iff_mem.mpr hpath, Bool.not_true,
    if_neg Bool.false_ne_true, head]
  by_cases hstart : Text.startsWith (Text.lower (c.config.delimiter :: url))
      (Text.lower (literalHead c.config.delimiterText c.path)) = true
  · rw [if_pos hstart, if_pos hstart, hregex]
    rfl
  · rw [if_neg hstart, if_neg hstart]

/-- Where the URL does not begin with the text before the first variable, the expression does not
match. -/
theorem capture_eq_captured (hpath : '<' ∈ c.path) (hhead : c.HasInertHead)
    (hregex : c.regex complete = .ok r) (url : Text) :
    c.capture url complete = .ok (c.captured r url) ∨
      c.Departs r (c.config.delimiter :: url) := by
  rw [capture_eq_ite hpath hregex]
  split
  next => exact .inl rfl
  next hstart =>
    rw [captured, Regex.captures?]
    cases hmatch : r.matchStart? (c.config.delimiter :: url) with
    | none => exact .inl rfl
    | some p =>
      exact .inr ((lower_prefix_of_matchStart? hpath hhead hregex hmatch).resolve_left
        fun hprefix ↦ hstart (Text.startsWith_iff.mpr hprefix))

/-- The decision for a request, given what the path captures from the trimmed URL. -/
def decideOn (c : CompiledRule) (request : Request) (url : Text)
    (found : Except Fault (Option Captures)) : Except Fault (Option Dispatch) := do
  match ← Admission.rejection? c.options (some c.text) request with
  | some _ => return none
  | none =>
    match ← found with
    | none => return none
    | some captures => return some (← c.decision request url captures.toMapping c.options)

theorem decide_eq_decideOn (c : CompiledRule) (request : Request) (url : Text) (asked : Bool) :
    c.decide request url asked = c.decideOn request (c.trimmed request.ext url)
      (c.capture (c.trimmed request.ext url) (c.isComplete asked)) := rfl

/-- Letters do not differ in their small forms only where all are of ASCII. -/
theorem not_departs_of_isAscii (hr : r.root.isSequence = true)
    (hhead : ∀ x ∈ c.head, Text.IsAscii x) (ht : ∀ x ∈ t, Text.IsAscii x) : ¬c.Departs r t := by
  rintro (⟨p, -, hdeviates⟩ | ⟨-, hblurs⟩)
  · exact Regex.not_deviates_of_isSequence hr hdeviates
  · exact Text.not_blursWithin_of_isAscii hhead ht hblurs

end CompiledRule

/-! ### Rules in a table -/

variable {t : Table} {id : NodeId} {c : CompiledRule} {r : Regex} {asked : Bool}

/-- The path of a rule whose first variable comes after inert text captures what its expression
captures, and the rule decides on that, unless the expression takes something else for the text. -/
theorem matchPath_eq_captured (ht : t.Reachable) (hat : t.ruleAt id = .ok c) (hpath : '<' ∈ c.path)
    (hhead : c.HasInertHead) (hregex : c.regex (c.isComplete asked) = .ok r) :
    (∀ url, (Action.matchPath id url asked).outcome t = .ok (c.captured r (c.trimmed [] url)) ∨
      c.Departs r (c.config.delimiter :: c.trimmed [] url)) ∧
    ∀ request url anyDomain, (Action.checkRule id request url asked anyDomain).outcome t =
        (c.on anyDomain).decideOn request (c.trimmed request.ext url)
          (.ok (c.captured r (c.trimmed request.ext url))) ∨
      c.Departs r (c.config.delimiter :: c.trimmed request.ext url) := by
  have hbind {β : Type} (f : CompiledRule → Except Fault β) : t.ruleAt id >>= f = f c := by
    rw [hat]
    rfl
  constructor
  · intro url
    rw [(Action.matchPath_answers ht.sound id url asked).outcome_eq, Table.capturesAt, hbind]
    exact CompiledRule.capture_eq_captured hpath hhead hregex _
  · intro request url anyDomain
    rw [(Action.checkRule_answers ht.sound id request url asked anyDomain).outcome_eq,
      Table.decisionAt, hbind, CompiledRule.decide_eq_decideOn, c.capture_on, c.trimmed_on]
    exact (CompiledRule.capture_eq_captured hpath hhead hregex _).imp_left fun h ↦ by rw [h]

/-- A rule that disregards case, with a word before its variable. -/
def Table.tintRule : Table := empty.afterAll
  [.addRouter [], .routeOn 0 { rule := "colour/<id>", target := "x",
                               options := [(.str "case_sensitive", .bool false)] }]

namespace Table

theorem reachable_tintRule : tintRule.Reachable := ⟨_, by decide, rfl⟩

theorem ruleAt_tintRule : ∃ c r, tintRule.ruleAt 1 = .ok c ∧ '<' ∈ c.path ∧ c.HasInertHead ∧
    c.regex (c.isComplete false) = .ok r ∧
    ¬c.Departs r (c.config.delimiter :: c.trimmed [] "COLOUR/5") ∧
    c.captured r (c.trimmed [] "COLOUR/5") = some [("id".toList, some "5".toList)] := by
  have hfacts : ((tintRule.ruleAt 1).toOption.any fun c ↦
      (c.regex (c.isComplete false)).toOption.any fun r ↦
        decide ('<' ∈ c.path ∧ c.HasInertHead ∧ r.root.isSequence = true ∧
          (∀ x ∈ c.head, Text.IsAscii x) ∧
          (∀ x ∈ c.config.delimiter :: c.trimmed [] "COLOUR/5", Text.IsAscii x) ∧
          c.captured r (c.trimmed [] "COLOUR/5") = some [("id".toList, some "5".toList)])) =
      true := by decide +kernel
  obtain ⟨c, hat, hfacts⟩ := exists_ok_of_any hfacts
  obtain ⟨r, hregex, hfacts⟩ := exists_ok_of_any hfacts
  obtain ⟨hpath, hinert, hroot, hhead, hurl, hcaptured⟩ := of_decide_eq_true hfacts
  exact ⟨c, r, hat, hpath, hinert, hregex, c.not_departs_of_isAscii hroot hhead hurl, hcaptured⟩

end Table

theorem matchPath_eq_captured_tintRule : ∃ c r, Table.tintRule.Reachable ∧
    Table.tintRule.ruleAt 1 = .ok c ∧ '<' ∈ c.path ∧ c.HasInertHead ∧
    c.regex (c.isComplete false) = .ok r ∧
    (Action.matchPath 1 "COLOUR/5" false).outcome Table.tintRule =
      .ok (some [("id".toList, some "5".toList)]) ∧
    (Action.checkRule 1 (.bare "GET" "/") "COLOUR/5" false false).outcome Table.tintRule =
      c.decideOn (.bare "GET" "/") (c.trimmed [] "COLOUR/5")
        (.ok (some [("id".toList, some "5".toList)])) := by
  obtain ⟨c, r, hat, hpath, hhead, hregex, hkeeps, hcaptured⟩ := Table.ruleAt_tintRule
  obtain ⟨hmatch, hcheck⟩ :=
    matchPath_eq_captured Table.reachable_tintRule hat hpath hhead hregex
  refine ⟨c, r, Table.reachable_tintRule, hat, hpath, hhead, hregex, ?_, ?_⟩
  · rw [(hmatch _).resolve_right hkeeps, hcaptured]
  · have hsame := (hcheck (.bare "GET" "/") "COLOUR/5" false).resolve_right hkeeps
    change _ = c.decideOn _ _ (.ok (c.captured r (c.trimmed [] "COLOUR/5"))) at hsame
    rw [hsame, hcaptured]
    rfl

/-- A rule whose text before the variable is an expression. -/
def Table.spellingRule : Table := empty.afterAll
  [.addRouter [], .routeOn 0 { rule := "colou?r/<id>", target := "x", patterns := [("id", "int")] }]

/-- The text before the first variable is compared as it is written, also where the expression
reads it otherwise. -/
theorem not_forall_matchPath_eq_captured : ¬∀ (t : Table) (id : NodeId) (c : CompiledRule)
    (r : Regex) (asked : Bool) (url : Text), t.Reachable → t.ruleAt id = .ok c → '<' ∈ c.path →
    c.regex (c.isComplete asked) = .ok r →
    (Action.matchPath id url asked).outcome t = .ok (c.captured r (c.trimmed [] url)) := by
  intro h
  have hreachable : Table.spellingRule.Reachable := ⟨_, by decide, rfl⟩
  have hfacts : ((Table.spellingRule.ruleAt 1).toOption.any fun c ↦
      (c.regex (c.isComplete false)).toOption.any fun r ↦
        decide ('<' ∈ c.path ∧ c.captured r (c.trimmed [] "color/5") =
          some [("id".toList, some "5".toList)])) = true := by decide +kernel
  obtain ⟨c, hat, hfacts⟩ := exists_ok_of_any hfacts
  obtain ⟨r, hregex, hfacts⟩ := exists_ok_of_any hfacts
  obtain ⟨hpath, hcaptured⟩ := of_decide_eq_true hfacts
  have hrefused : (Action.matchPath 1 "color/5" false).outcome Table.spellingRule = .ok none :=
    Action.outcome_of_answer? (by decide +kernel)
  have hsame := h _ 1 c r false "color/5" hreachable hat hpath hregex
  rw [hrefused, hcaptured] at hsame
  cases hsame

end UrlRouting

import UrlRouting.Proofs.Regex.Composing
import UrlRouting.Proofs.Regex.Monotone
import UrlRouting.Proofs.Table.Reachable
import UrlRouting.Proofs.Variables.Captured

/-!
Complete matches and others. The expression for complete matches is the other one with the anchor of
the end behind it, whatever notation the rule string and the patterns bring along; so it matches
less: `CompiledRule.exists_capture_of_complete`.
-/

namespace UrlRouting

namespace CompiledRule

variable {c : CompiledRule} {r : Regex} {url : Text} {captures : Captures}

theorem expression_true (c : CompiledRule) :
    c.expression true = (c.expression false).map (· ++ ['$']) := by
  rw [expression, expression]
  cases c.setting.withMaps c.patterns c.aliases c.tokens with
  | error e => rfl
  | ok s => simp [Except.map, Template.Setting.expression]

/-- What compiles for matches of a beginning compiles for complete matches as well, and these are
among the others. -/
theorem exists_regex_true (hregex : c.regex false = .ok r) : ∃ r', c.regex true = .ok r' ∧
    ∀ t, (r'.matchStart? t).isSome = true → (r.matchStart? t).isSome = true := by
  obtain ⟨text, htext, hparse⟩ := exists_parse_of_regex hregex
  obtain ⟨alternatives, nodes, names, rfl, hanchored⟩ := Regex.exists_parse_anchored hparse
  have hcomplete : c.regex true = .ok ⟨Regex.Node.alternatives (alternatives ++
      [Regex.Node.sequence (nodes ++ [.anchor .closingEnd])]), names⟩ := by
    rw [regex, expression_true, htext]
    change c.read (text ++ ['$']) = _
    rw [read, hanchored]
  exact ⟨_, hcomplete, fun t ht ↦ Regex.isSome_alternatives_of_longer ht⟩

theorem matchesLiterally_of_complete {whole : Text} (h : c.matchesLiterally whole true = true) :
    c.matchesLiterally whole false = true := by
  simp only [matchesLiterally, Bool.not_true, Bool.false_and, Bool.or_false] at h
  simp only [matchesLiterally, h, Bool.true_or]

theorem decided?_of_complete_some (h : c.decided? url true = some (some captures)) :
    c.decided? url false = some (some []) := by
  rw [decided?] at h ⊢
  split at h
  next => cases h
  next hroot =>
    rw [if_neg hroot]
    split at h
    next hpath =>
      rw [if_pos hpath]
      split at h
      next hliteral => rw [if_pos (matchesLiterally_of_complete hliteral)]
      next => cases h
    next =>
      split at h
      all_goals cases h

/-- Whether the expression is tried does not depend on the matches that are asked for. -/
theorem decided?_of_complete_none (h : c.decided? url true = none) :
    c.decided? url false = none := by
  rw [decided?] at h ⊢
  split at h
  next => cases h
  next hroot =>
    rw [if_neg hroot]
    split at h
    next => cases h
    next hpath =>
      rw [if_neg hpath]
      exact h

theorem exists_capture_of_complete (hregex : c.regex false = .ok r)
    (h : c.capture url true = .ok (some captures)) :
    ∃ captures', c.capture url false = .ok (some captures') := by
  rw [capture] at h ⊢
  split at h
  next outcome hdecided =>
    cases h
    rw [decided?_of_complete_some hdecided]
    exact ⟨[], rfl⟩
  next hdecided =>
    obtain ⟨r', hregex', hless⟩ := exists_regex_true hregex
    rw [hregex'] at h
    obtain ⟨p, hp, -⟩ := Option.map_eq_some_iff.mp (Except.ok.inj h)
    obtain ⟨q, hq⟩ := Option.isSome_iff_exists.mp (hless _ (Option.isSome_of_eq_some hp))
    refine ⟨r.namedGroups q, ?_⟩
    rw [decided?_of_complete_none hdecided, hregex]
    change Except.ok (c.captured r url) = _
    rw [captured, Regex.captures?, hq]
    rfl

/-- Where a rule is asked for complete matches only does it matter what it is asked for. -/
theorem isComplete_cases (c : CompiledRule) : c.isComplete true = c.isComplete false ∨
    c.isComplete true = true ∧ c.isComplete false = false := by
  rw [isComplete, isComplete]
  split
  next => cases c.config.completeMatch <;> simp
  next => exact .inl rfl

end CompiledRule

/-! ### Rules in a table -/

variable {t : Table} {id : NodeId} {c : CompiledRule} {r : Regex} {url : Text} {captures : Captures}

/-- A rule that accepts a URL when it is asked for a complete match accepts it as well when it is
not, whatever expressions its rule string and its patterns are made of. -/
theorem matchPath_of_complete (ht : t.Reachable) (hat : t.ruleAt id = .ok c)
    (hregex : c.regex false = .ok r)
    (houtcome : (Action.matchPath id url true).outcome t = .ok (some captures)) :
    ∃ captures', (Action.matchPath id url false).outcome t = .ok (some captures') := by
  rw [(Action.matchPath_answers ht.sound id url true).outcome_eq, Table.capturesAt, hat]
    at houtcome
  rw [(Action.matchPath_answers ht.sound id url false).outcome_eq, Table.capturesAt, hat]
  change c.capture (c.trimmed [] url) (c.isComplete true) = _ at houtcome
  change ∃ captures', c.capture (c.trimmed [] url) (c.isComplete false) = .ok (some captures')
  rcases c.isComplete_cases with hsame | ⟨hcomplete, hpartial⟩
  · exact ⟨captures, hsame ▸ houtcome⟩
  · rw [hcomplete] at houtcome
    rw [hpartial]
    exact CompiledRule.exists_capture_of_complete hregex houtcome

/-- A rule with alternatives and repetitions of its own in the rule string. -/
def Table.tabRule : Table := empty.afterAll [.addRouter [],
  .routeOn 0 { rule := "user/<id>(/edit|/view)*", target := "x", patterns := [("id", "int")] }]

theorem Table.reachable_tabRule : tabRule.Reachable := ⟨_, by decide, rfl⟩

theorem Table.ruleAt_tabRule : ∃ c r, tabRule.ruleAt 1 = .ok c ∧ c.regex false = .ok r := by
  have hfacts : ((tabRule.ruleAt 1).toOption.any fun c ↦
      (c.regex false).toOption.any fun _ ↦ true) = true := by decide +kernel
  obtain ⟨c, hat, hfacts⟩ := exists_ok_of_any hfacts
  obtain ⟨r, hregex, -⟩ := exists_ok_of_any hfacts
  exact ⟨c, r, hat, hregex⟩

theorem matchPath_of_complete_tabRule : (Action.matchPath 1 "user/42/edit/view" true).outcome
      Table.tabRule = .ok (some [("id".toList, some "42".toList)]) ∧
    ∃ captures, (Action.matchPath 1 "user/42/edit/view" false).outcome Table.tabRule =
      .ok (some captures) := by
  obtain ⟨c, r, hat, hregex⟩ := Table.ruleAt_tabRule
  have houtcome : (Action.matchPath 1 "user/42/edit/view" true).outcome Table.tabRule =
    .ok (some [("id".toList, some "42".toList)]) := Action.outcome_of_answer? (by decide +kernel)
  exact ⟨houtcome, matchPath_of_complete Table.reachable_tabRule hat hregex houtcome⟩

end UrlRouting

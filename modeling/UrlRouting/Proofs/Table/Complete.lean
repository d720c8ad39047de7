import UrlRouting.Proofs.Table.Plain
import UrlRouting.Proofs.Template.Ending
import UrlRouting.Proofs.Variables.Captured

/-!
Complete matches. The anchor at the end of an expression belongs to the last alternative of the
whole expression, and it admits a line feed behind the match: `matchesToEnd_of_isComplete`. There
are other alternatives only where a pattern closes the parentheses around it and opens others.
-/

namespace UrlRouting

open Http Template Template.Part

namespace CompiledRule

variable {c : CompiledRule} {parts : List Part} {r : Regex} {url : Text} {complete : Bool}
  {captures : Captures}

/-- The captures come from a match of the whole URL, or of the whole URL but for a line feed at its
end, or from an alternative of the whole expression that a pattern has split off. -/
def MatchesToEnd (c : CompiledRule) (url : Text) (captures : Captures) : Prop :=
  ∃ r p, c.regex true = .ok r ∧ r.matchStart? (c.config.delimiter :: url) = some p ∧
    captures = r.namedGroups p ∧
    ((c.config.delimiter :: url = p.before.reverse ∨
      c.config.delimiter :: url = p.before.reverse ++ ['\n']) ∨
      r.Strays (c.config.delimiter :: url) p)

theorem capture_eq_some (hpath : '<' ∈ c.path)
    (h : c.capture url complete = .ok (some captures)) :
    ∃ r p, c.regex complete = .ok r ∧ r.matchStart? (c.config.delimiter :: url) = some p ∧
      captures = r.namedGroups p := by
  refine (exists_of_capture h).resolve_left fun hdecided ↦ ?_
  rw [decided?, List.contains_iff_mem.mpr hpath, Bool.not_true, if_neg Bool.false_ne_true]
    at hdecided
  repeat' split at hdecided
  all_goals cases hdecided

/-- Of the expression for complete matches, the last alternative is bound to the end. -/
theorem Plain.exists_root (h : c.Plain parts) (hnames : names parts ≠ [])
    (hregex : c.regex true = .ok r) : ∃ alternatives nodes, r.root = Regex.Node.alternatives
      (alternatives ++ [Regex.Node.sequence (nodes ++ [.anchor .closingEnd])]) := by
  have hparse := parse_of_regex hregex
  have hdelimiter : c.filledSetting.delimiter = [c.config.delimiter] := rfl
  obtain ⟨lead, name, optional, hslot⟩ := c.exists_slot hnames
  obtain ⟨front, mark, t, ht, hexpression⟩ := exists_expression hdelimiter
    c.config.isDelimiter_delimiter h.isPlain_pathParts h.gathered_pathParts hslot c.dropsEnd
  rw [h.path_eq, h.tokens_eq, hexpression, ← List.cons_append] at hparse
  exact Regex.exists_root_of_parse ht hparse

theorem Plain.matchesToEnd (h : c.Plain parts) (hnames : names parts ≠ [])
    (hcapture : c.capture url true = .ok (some captures)) : c.MatchesToEnd url captures := by
  obtain ⟨r, p, hregex, hmatch, hgroups⟩ := capture_eq_some (h.mem_path hnames) hcapture
  obtain ⟨alternatives, nodes, hroot⟩ := h.exists_root hnames hregex
  exact ⟨r, p, hregex, hmatch, hgroups, Regex.whole_of_matchStart? hroot hmatch⟩

/-- Patterns of the known kinds split nothing off. -/
theorem Known.not_strays {kind : Text → Kind} {t : Text} {p : Regex.Place}
    (h : c.Known parts kind) (hregex : c.regex true = .ok r) : ¬r.Strays t p := by
  rw [h.regex_eq] at hregex
  split at hregex
  next =>
    cases hregex
    exact Regex.not_strays_of_sequence rfl
  next => cases hregex

end CompiledRule

/-! ### Rules in a table -/

variable {t : Table} {id : NodeId} {c : CompiledRule} {parts : List Part} {asked : Bool}

/-- Where a rule with variables matches complete URLs, no URL is accepted of which the match leaves
anything but a line feed at the end, unless the match is one of an alternative that a pattern splits
off the whole expression. -/
theorem matchesToEnd_of_isComplete (ht : t.Reachable) (hin : t.inEffect? id = some c)
    (h : c.Plain parts) (hnames : names parts ≠ []) (hcomplete : c.isComplete asked = true) :
    (∀ url captures, (Action.matchPath id url asked).outcome t = .ok (some captures) →
      c.MatchesToEnd (c.trimmed [] url) captures) ∧
    ∀ request url anyDomain d,
      (Action.checkRule id request url asked anyDomain).outcome t = .ok (some d) →
      ∃ captures, c.MatchesToEnd (c.trimmed request.ext url) captures ∧
        (c.on anyDomain).decision request (c.trimmed request.ext url) captures.toMapping
          (c.on anyDomain).options = .ok d := by
  have hsame {c' : CompiledRule} (hat : t.ruleAt id = .ok c') : c' = c :=
    Option.some.inj ((Table.inEffect?_of_ruleAt hat).symm.trans hin)
  constructor
  · intro url captures houtcome
    rw [(Action.matchPath_answers ht.sound id url asked).outcome_eq] at houtcome
    obtain ⟨c', hat, hcapture⟩ := bind_eq_ok_iff.mp houtcome
    rw [hsame hat, hcomplete] at hcapture
    exact h.matchesToEnd hnames hcapture
  · intro request url anyDomain d houtcome
    rw [(Action.checkRule_answers ht.sound id request url asked anyDomain).outcome_eq] at houtcome
    obtain ⟨-, c', captures, hat, hcapture, hdecision⟩ := Table.decisionAt_eq_some houtcome
    rw [hsame hat] at hcapture hdecision
    rw [hcomplete] at hcapture
    exact ⟨captures, h.matchesToEnd hnames hcapture, hdecision⟩

/-- A pattern that closes the parentheses around it leaves the anchor to what comes after a bar. -/
example : (Action.matchPath 1 "user/a/more" false).answer? (Table.empty.afterAll [.addRouter [],
      .routeOn 0 { rule := "user/<id>$", target := "x", patterns := [("id", "a))|((b")] }]) =
    some (some [("id".toList, some "a".toList)]) := by
  decide +kernel

/-- A rule for complete URLs with one variable, which is to be a number. -/
def Table.memberRule : Table := empty.afterAll
  [.addRouter [], .routeOn 0 { rule := "user/<id>$", target := "x", patterns := [("id", "int")] }]

def Template.partsOfMember : List Part := "user/".toList.map literal ++ [slot none "id" false]

namespace Table

theorem reachable_memberRule : memberRule.Reachable := ⟨_, by decide, rfl⟩

theorem plain_memberRule : ∃ c, memberRule.inEffect? 1 = some c ∧ c.Plain partsOfMember ∧
    c.isComplete false = true :=
  ⟨_, rfl, ⟨rfl, by decide⟩, rfl⟩

theorem outcome_memberRule : (Action.matchPath 1 "user/42" false).outcome memberRule =
    .ok (some [("id".toList, some "42".toList)]) :=
  Action.outcome_of_answer? (by decide +kernel)

theorem memberRule_decides :
    ∃ d, (Action.checkRule 1 (.bare "GET" "/") "user/42" false true).outcome memberRule =
      .ok (some d) := by
  have hsome : (((Action.checkRule 1 (.bare "GET" "/") "user/42" false true).answer?
      memberRule).join).isSome = true := by decide +kernel
  obtain ⟨d, hd⟩ := Option.isSome_iff_exists.mp hsome
  exact ⟨d, Action.outcome_of_answer? (Option.join_eq_some_iff.mp hd)⟩

end Table

theorem matchesToEnd_memberRule : ∃ c captures d, Table.memberRule.Reachable ∧
    Table.memberRule.inEffect? 1 = some c ∧ c.Plain partsOfMember ∧ names partsOfMember ≠ [] ∧
    c.isComplete false = true ∧
    (Action.matchPath 1 "user/42" false).outcome Table.memberRule =
      .ok (some [("id".toList, some "42".toList)]) ∧
    c.MatchesToEnd (c.trimmed [] "user/42") [("id".toList, some "42".toList)] ∧
    (Action.checkRule 1 (.bare "GET" "/") "user/42" false true).outcome Table.memberRule =
      .ok (some d) ∧
    c.MatchesToEnd (c.trimmed (Request.bare "GET" "/").ext "user/42") captures ∧
    (c.on true).decision (.bare "GET" "/") (c.trimmed (Request.bare "GET" "/").ext "user/42")
      captures.toMapping (c.on true).options = .ok d := by
  obtain ⟨c, hin, hplain, hcomplete⟩ := Table.plain_memberRule
  obtain ⟨d, hd⟩ := Table.memberRule_decides
  have hnames : names partsOfMember ≠ [] := by decide
  obtain ⟨hpath, hrule⟩ :=
    matchesToEnd_of_isComplete Table.reachable_memberRule hin hplain hnames hcomplete
  obtain ⟨captures, hcaptures, hdecision⟩ := hrule _ _ _ d hd
  exact ⟨c, captures, d, Table.reachable_memberRule, hin, hplain, hnames, hcomplete,
    Table.outcome_memberRule, hpath _ _ Table.outcome_memberRule, hd, hcaptures, hdecision⟩

/-- A complete match need not consume the whole URL: a line feed at the end is left. -/
theorem not_forall_consumed_whole : ¬∀ (t : Table) (id : NodeId) (c : CompiledRule)
    (parts : List Part) (asked : Bool) (url : Text) (captures : Captures), t.Reachable →
    t.inEffect? id = some c → c.Plain parts → names parts ≠ [] → c.isComplete asked = true →
    (Action.matchPath id url asked).outcome t = .ok (some captures) →
    ∃ r p, c.regex true = .ok r ∧
      r.matchStart? (c.config.delimiter :: c.trimmed [] url) = some p ∧
      captures = r.namedGroups p ∧ c.config.delimiter :: c.trimmed [] url = p.before.reverse := by
  intro h
  obtain ⟨c, hin, hplain, hcomplete⟩ := Table.plain_memberRule
  have houtcome : (Action.matchPath 1 "user/42\n" false).outcome Table.memberRule =
      .ok (some [("id".toList, some "42".toList)]) := Action.outcome_of_answer? (by decide +kernel)
  obtain ⟨r, p, hregex, hmatch, -, hwhole⟩ :=
    h _ _ c _ _ _ _ Table.reachable_memberRule hin hplain (by decide) hcomplete houtcome
  have hleft : ((Table.memberRule.inEffect? 1).bind fun c ↦ (c.regex true).toOption.bind fun r ↦
      (r.matchStart? (c.config.delimiter :: c.trimmed [] "user/42\n")).map fun p ↦
        decide (c.config.delimiter :: c.trimmed [] "user/42\n" = p.before.reverse)) =
      some false := by decide +kernel
  rw [hin, Option.bind_some, hregex] at hleft
  change (r.matchStart? _).map _ = _ at hleft
  rw [hmatch, Option.map_some, ← hwhole] at hleft
  simp at hleft

end UrlRouting

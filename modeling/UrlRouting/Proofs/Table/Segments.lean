import UrlRouting.Proofs.Table.Deciding
import UrlRouting.Proofs.Table.Reachable
import UrlRouting.Proofs.Text.Boundary
import UrlRouting.Proofs.Text.Delimit

/-!
Rules without variables. Their paths are compared with URLs as texts, with delimiters at both ends,
which comes to a comparison segment by segment (`CompiledRule.IsStatic.capture_eq`).
-/

namespace UrlRouting

open Template Text

/-- The segments between the slashes of a rule or a URL, in small letters. -/
def segments (t : Text) : List Text := (splitAt '/' t).map lower

theorem segments_eq (t : Text) : segments t = splitAt '/' (lower t) :=
  (splitAt_lower (by decide) t).symm

theorem segments_inj {t u : Text} : segments t = segments u ↔ lower t = lower u := by
  rw [segments_eq, segments_eq, splitAt_inj]

theorem segments_prefix_iff {t u : Text} :
    segments t <+: segments u ↔ lower (t ++ ['/']) <+: lower (u ++ ['/']) := by
  rw [segments_eq, segments_eq, splitAt_prefix_iff, lower_append_boundary (by decide),
    lower_append_boundary (by decide)]
  rfl

namespace CompiledRule

variable {c : CompiledRule} {url : Text} {complete : Bool}

/-- The rule string is that of the root, or there is none. -/
def IsRoot (c : CompiledRule) : Prop := c.text = ['/'] ∨ c.text = []

/-- The path without variables accepts the trimmed URL. The root accepts the empty one only. -/
def acceptsLiterally (c : CompiledRule) (url : Text) (complete : Bool) : Bool :=
  !(c.path == c.config.delimiterText && !url.isEmpty) &&
    c.matchesLiterally (c.config.delimiter :: url) complete

theorem capture_of_not_mem_path (c : CompiledRule) (h : '<' ∉ c.path) (url : Text)
    (complete : Bool) : c.capture url complete =
      .ok (if c.acceptsLiterally url complete then some [] else none) := by
  have hslot : c.path.contains '<' = false := by
    rw [Bool.eq_false_iff, Ne, List.contains_iff_mem]
    exact h
  rw [capture, decided?, acceptsLiterally, hslot]
  cases c.path == c.config.delimiterText && !url.isEmpty <;> rfl

/-- Slashes delimit the paths of the rule, also at their ends, and it has no variables. -/
structure IsStatic (c : CompiledRule) : Prop where
  delimiter : c.config.delimiter = '/'
  keepsEnd : c.dropsEnd = false
  noSlot : '<' ∉ c.text

namespace IsStatic

variable (h : c.IsStatic)

include h

theorem path_eq : c.path = if c.text = ['/'] then ['/'] else '/' :: c.text := by
  have hkept : replaceChar '/' ['/'] c.text = c.text := by
    rw [replaceChar_eq_map, delimit_slash_eq_id, List.map_id]
  rw [CompiledRule.path, Config.delimiterText, h.delimiter, h.keepsEnd, if_neg Bool.false_ne_true]
  change (if c.text = ['/'] then ['/'] else '/' :: replaceChar '/' ['/'] c.text) = _
  rw [hkept]

theorem path_eq_slash_iff : c.path = ['/'] ↔ c.IsRoot := by
  rw [h.path_eq, IsRoot]
  by_cases hroot : c.text = ['/'] <;> simp [hroot]

theorem not_mem_path : '<' ∉ c.path := by
  have hslot := h.noSlot
  rw [h.path_eq]
  split <;> simp [hslot]

theorem trimmed_eq (url : Text) : c.trimmed [] url = url := by
  rw [trimmed, h.keepsEnd, List.isEmpty_nil, Bool.or_true]
  rfl

theorem matchesLiterally_iff (hroot : ¬c.IsRoot) :
    c.matchesLiterally ('/' :: url) complete = true ↔
      if complete then segments url = segments c.text else segments c.text <+: segments url := by
  have hslash : IsBoundary '/' := by decide
  have hpath : c.path = '/' :: c.text := by
    rw [h.path_eq, if_neg fun he ↦ hroot (.inl he)]
  have hsame : lower c.path = lower ('/' :: url) ↔ segments url = segments c.text := by
    rw [hpath, lower_boundary_cons hslash, lower_boundary_cons hslash, List.cons_inj_right,
      segments_inj]
    exact eq_comm
  have hfirst : lower (c.path ++ ['/']) <+: lower ('/' :: url ++ ['/']) ↔
      segments c.text <+: segments url := by
    rw [hpath, List.cons_append, List.cons_append, lower_boundary_cons hslash,
      lower_boundary_cons hslash, List.cons_prefix_cons, segments_prefix_iff]
    exact and_iff_right rfl
  rw [matchesLiterally, Config.delimiterText, h.delimiter, Bool.or_eq_true, beq_iff_eq, hsame,
    Bool.and_eq_true, startsWith_iff, hfirst]
  cases complete with
  | true => simp
  | false =>
    -- Equal segments come first as well.
    have hequal : segments url = segments c.text → segments c.text <+: segments url :=
      fun he ↦ he ▸ List.prefix_rfl
    simpa using hequal

theorem capture_eq (url : Text) (complete : Bool) : ∃ accepted : Bool,
    c.capture url complete = .ok (if accepted then some [] else none) ∧
    (¬c.IsRoot → (accepted = true ↔
      if complete then segments url = segments c.text else segments c.text <+: segments url)) ∧
    (c.IsRoot → (accepted = true ↔ url = [])) := by
  have hroot : (c.path == c.config.delimiterText) = true ↔ c.IsRoot := by
    rw [beq_iff_eq, Config.delimiterText, h.delimiter, h.path_eq_slash_iff]
  refine ⟨_, c.capture_of_not_mem_path h.not_mem_path url complete, fun hc ↦ ?_, fun hc ↦ ?_⟩
  · rw [acceptsLiterally, Bool.eq_false_iff.mpr (mt hroot.mp hc), h.delimiter]
    exact h.matchesLiterally_iff hc
  · rw [acceptsLiterally, hroot.mpr hc, h.delimiter, matchesLiterally,
      h.path_eq_slash_iff.mpr hc]
    cases url <;> simp

end IsStatic

end CompiledRule

/-! ### Rules in a table -/

variable {t : Table} {id : NodeId} {c : CompiledRule}

/-- A rule without variables accepts the URLs that have its segments, up to case: no others if
matches are to be complete, and any others behind these if not. The root accepts the empty URL. -/
theorem matchPath_iff_segments (ht : t.Reachable) (hat : t.ruleAt id = .ok c) (h : c.IsStatic)
    (url : Text) (asked : Bool) : ∃ accepted : Bool,
    (Action.matchPath id url asked).outcome t = .ok (if accepted then some [] else none) ∧
    (¬c.IsRoot → c.isComplete asked = true →
      (accepted = true ↔ segments url = segments c.text)) ∧
    (¬c.IsRoot → c.isComplete asked = false →
      (accepted = true ↔ segments c.text <+: segments url)) ∧
    (c.IsRoot → (accepted = true ↔ url = [])) := by
  obtain ⟨accepted, hcapture, hsegments, hroot⟩ := h.capture_eq url (c.isComplete asked)
  refine ⟨accepted, ?_, fun hc hcomplete ↦ ?_, fun hc hcomplete ↦ ?_, hroot⟩
  · rw [(Action.matchPath_answers ht.sound id url asked).outcome_eq, Table.capturesAt, hat]
    change c.capture (c.trimmed [] url) (c.isComplete asked) = _
    rw [h.trimmed_eq, hcapture]
  · have hiff := hsegments hc
    rwa [hcomplete, if_pos rfl] at hiff
  · have hiff := hsegments hc
    rwa [hcomplete, if_neg Bool.false_ne_true] at hiff

/-- A rule of two words. -/
def Table.postRule : Table := empty.afterAll
  [.addRouter [], .routeOn 0 { rule := "Blog/Post", target := "x" }]

theorem Table.reachable_postRule : postRule.Reachable := ⟨_, by decide, rfl⟩

theorem Table.ruleAt_postRule : ∃ c, postRule.ruleAt 1 = .ok c ∧ c.IsStatic ∧ ¬c.IsRoot ∧
    c.text = "Blog/Post".toList ∧ c.isComplete true = true ∧ c.isComplete false = false := by
  have hfacts : ((postRule.ruleAt 1).toOption.any fun c ↦
      decide (c.config.delimiter = '/' ∧ c.dropsEnd = false ∧ c.text = "Blog/Post".toList ∧
        c.isComplete true = true ∧ c.isComplete false = false)) = true := by decide
  obtain ⟨c, hat, hfacts⟩ := exists_ok_of_any hfacts
  obtain ⟨hdelimiter, hend, htext, hcomplete, hprefix⟩ := of_decide_eq_true hfacts
  refine ⟨c, hat, ⟨hdelimiter, hend, ?_⟩, ?_, htext, hcomplete, hprefix⟩
  · rw [htext]
    decide
  · rw [CompiledRule.IsRoot, htext]
    decide

/-- The first segments of a URL are to be those of the rule, not to begin with them. -/
theorem matchPath_iff_segments_postRule :
    (Action.matchPath 1 "blog/post/5" false).outcome Table.postRule = .ok (some []) ∧
    (Action.matchPath 1 "blog/posts" false).outcome Table.postRule = .ok none ∧
    (Action.matchPath 1 "blog/post/5" true).outcome Table.postRule = .ok none := by
  obtain ⟨c, hat, hstatic, hroot, htext, hcomplete, hprefix⟩ := Table.ruleAt_postRule
  refine ⟨?_, ?_, ?_⟩
  · obtain ⟨accepted, houtcome, -, hiff, -⟩ :=
      matchPath_iff_segments Table.reachable_postRule hat hstatic "blog/post/5" false
    rw [houtcome, (hiff hroot hprefix).mpr (by rw [htext]; decide)]
    rfl
  · obtain ⟨accepted, houtcome, -, hiff, -⟩ :=
      matchPath_iff_segments Table.reachable_postRule hat hstatic "blog/posts" false
    have hnot : ¬accepted = true := mt (hiff hroot hprefix).mp (by rw [htext]; decide)
    rw [houtcome, Bool.eq_false_iff.mpr hnot]
    rfl
  · obtain ⟨accepted, houtcome, hiff, -, -⟩ :=
      matchPath_iff_segments Table.reachable_postRule hat hstatic "blog/post/5" true
    have hnot : ¬accepted = true := mt (hiff hroot hcomplete).mp (by rw [htext]; decide)
    rw [houtcome, Bool.eq_false_iff.mpr hnot]
    rfl

end UrlRouting

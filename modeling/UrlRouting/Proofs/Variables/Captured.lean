import UrlRouting.Proofs.Regex.Names
import UrlRouting.Proofs.Table.Deciding
import UrlRouting.Proofs.Table.Reachable
import UrlRouting.Proofs.Template.Aliases

/-!
What captured variables are bound to. Defaults never take the place of what an expression captured,
but the parameters in the part of the URL that a rule does not consume do: `named?_vars_of_captured`
says when a captured variable is surfaced with the text that its group holds.
-/

namespace UrlRouting

open Http

namespace Variables

variable {groups patterns options found : Mapping} {rule url v text : Text} {delimiter : Value}

/-- The parameters that are laid over the captured variables: those of the part of the URL that the
rule does not consume, or none if a captured value holds the delimiter. -/
def tail (groups : Mapping) (rule url : Text) (delimiter : Value) : Except Fault Mapping := do
  if ← anyHoldsDelimiter delimiter (Entries.values (groups.filter fun entry ↦ !entry.2.isNull)) then
    return []
  else extra rule url delimiter

theorem extract_eq (groups : Mapping) (rule url : Text) (patterns options : Mapping)
    (delimiter : Value) : extract groups rule url patterns options delimiter =
      (tail groups rule url delimiter).map fun params ↦ surface patterns (withDefaults
        (Entries.overlay (groups.filter fun entry ↦ !entry.2.isNull) params)
        (options.named "default")) := by
  rw [extract, tail]
  cases anyHoldsDelimiter delimiter
    (Entries.values (groups.filter fun entry ↦ !entry.2.isNull)) with
  | error e => rfl
  | ok holds =>
    cases holds with
    | true => rfl
    | false =>
      change (extra rule url delimiter >>= fun params ↦ _) = (extra rule url delimiter).map _
      cases extra rule url delimiter <;> rfl

theorem nodup_extra {params : Mapping} (h : extra rule url delimiter = .ok params) :
    params.textKeys.Nodup := by
  rw [extra.eq_def] at h
  split at h
  · cases h
  · cases h
    have hpairs := Entries.nodup_textKeys_ofPairs
      ((pairsAfter 0 (Text.join "/" (unconsumed rule url ‹_›))).map fun pair ↦
        (pair.1, Value.str (stripTags pair.2)))
    rw [List.map_map] at hpairs
    exact hpairs
  · cases h

theorem nodup_tail {params : Mapping} (h : tail groups rule url delimiter = .ok params) :
    params.textKeys.Nodup := by
  obtain ⟨holds, -, h⟩ := bind_eq_ok_iff.mp h
  cases holds with
  | true =>
    cases h
    exact .nil
  | false => exact nodup_extra h

theorem get?_withDefaults (h : found.contains (.str v) = true) (default : Value) :
    (withDefaults found default).get? (.str v) = found.get? (.str v) := by
  cases default with
  | map entries =>
    rw [withDefaults]
    induction entries generalizing found with
    | nil => rfl
    | cons entry rest ih =>
      have hkeep := Entries.get?_setDefault h entry.1 entry.2
      rw [List.foldl_cons, ih, hkeep]
      rwa [Entries.contains, hkeep]
  | _ => rfl

theorem get?_surface (h : v ∉ reserved) (patterns found : Mapping) :
    (surface patterns found).get? (.str v) =
      (found.get? (.str v)).map fun value ↦ coerce value (patterns.named v) := by
  have hkeep : ∀ value,
      (fun entry : Value × Value ↦ !isReserved entry.1) (.str v, value) = true := by
    intro value
    simp only [isReserved, Value.text?, Option.any_some, Bool.not_eq_true', List.contains_eq_mem,
      decide_eq_false_iff_not]
    exact h
  have hmap := Entries.get?_map (fun name value ↦ coerce value ((patterns.get? name).getD .null))
    (found.filter fun entry ↦ !isReserved entry.1) v
  rw [Entries.get?_filter hkeep] at hmap
  exact hmap

/-- A variable is bound to the parameter of its name, or else to what was captured. -/
theorem named?_extract {params vars : Mapping} {value : Value} (hv : v ∉ reserved)
    (hparams : tail groups rule url delimiter = .ok params)
    (hbound : (params.named? v).or
      (Entries.get? (groups.filter fun entry ↦ !entry.2.isNull) (.str v)) = some value)
    (h : extract groups rule url patterns options delimiter = .ok vars) :
    vars.named? v = some (coerce value (patterns.named v)) := by
  rw [extract_eq, hparams] at h
  cases h
  have hget := (Entries.get?_overlay (nodup_tail hparams)
    (groups.filter fun entry ↦ !entry.2.isNull) v).trans hbound
  have hcontains : Entries.contains
      (Entries.overlay (groups.filter fun entry ↦ !entry.2.isNull) params) (.str v) = true :=
    Option.isSome_of_eq_some hget
  rw [Entries.named?, get?_surface hv, get?_withDefaults hcontains, hget]
  rfl

/-- A captured variable is bound to what its group holds, unless a parameter has its name. -/
theorem get?_extract {params vars : Mapping} (hv : v ∉ reserved)
    (hgroup : Entries.get? (groups.filter fun entry ↦ !entry.2.isNull) (.str v) = some (.str text))
    (hparams : tail groups rule url delimiter = .ok params)
    (h : extract groups rule url patterns options delimiter = .ok vars) :
    vars.named? v =
      some (coerce ((params.named? v).getD (.str text)) (patterns.named v)) := by
  refine named?_extract hv hparams ?_ h
  rw [hgroup]
  cases params.named? v <;> rfl

end Variables

/-! ### Captures -/

namespace Captures

variable {captures : Captures} {v text : Text}

theorem get?_toMapping (hnodup : (captures.map Prod.fst).Nodup)
    (hmem : (v, some text) ∈ captures) :
    Entries.get? (captures.toMapping.filter fun entry ↦ !entry.2.isNull) (.str v) =
      some (.str text) := by
  induction captures with
  | nil => cases hmem
  | cons first rest ih =>
    obtain ⟨name, part⟩ := first
    rw [List.map_cons, List.nodup_cons] at hnodup
    rcases List.mem_cons.mp hmem with heq | hmem
    · obtain ⟨rfl, rfl⟩ := Prod.mk.inj heq
      simp [toMapping, Value.isNull, Entries.get?]
    · have hne : name ≠ v := by
        rintro rfl
        exact hnodup.1 (List.mem_map.mpr ⟨_, hmem, rfl⟩)
      have hrest := ih hnodup.2 hmem
      cases part with
      | none => simpa [toMapping, Value.isNull] using hrest
      | some other => simpa [toMapping, Value.isNull, Entries.get?, hne] using hrest

/-- Where no value that is captured holds the delimiter, the parameters are read. -/
theorem anyHoldsDelimiter_toMapping {delimiter : Text}
    (h : ∀ name v, (name, some v) ∈ captures → Text.occursIn delimiter v = false) :
    Variables.anyHoldsDelimiter (.str delimiter)
      (Entries.values (captures.toMapping.filter fun entry ↦ !entry.2.isNull)) = .ok false := by
  induction captures with
  | nil => rfl
  | cons first rest ih =>
    obtain ⟨name, part⟩ := first
    have hrest := ih fun name v hmem ↦ h name v (List.mem_cons_of_mem _ hmem)
    cases part with
    | none => exact hrest
    | some v =>
      have hfirst : Variables.holdsDelimiter (.str delimiter) (.str v) = .ok false :=
        congrArg Except.ok (h name v List.mem_cons_self)
      change Variables.anyHoldsDelimiter _ (.str v :: _) = _
      rw [Variables.anyHoldsDelimiter, hfirst]
      exact hrest

end Captures

namespace CompiledRule

variable {c : CompiledRule} {url : Text} {complete asked : Bool} {captures : Captures}
  {request : Request} {d : Dispatch}

theorem exists_parse_of_regex {r : Regex} (h : c.regex complete = .ok r) :
    ∃ text, c.expression complete = .ok text ∧ Regex.parse c.ignoresCase text = .ok r := by
  obtain ⟨text, htext, h⟩ := bind_eq_ok_iff.mp h
  rw [read] at h
  split at h
  next hparse =>
    cases h
    exact ⟨text, htext, hparse⟩
  next => cases h
  next => cases h

/-- The patterns of the rule, with all that they stand for. -/
def filledSetting (c : CompiledRule) : Template.Setting := c.setting.filled c.patterns c.aliases

theorem parse_of_regex {r : Regex} (h : c.regex complete = .ok r) :
    Regex.parse c.ignoresCase
      ('^' :: c.filledSetting.expression c.path c.tokens complete c.dropsEnd) = .ok r := by
  obtain ⟨text, htext, hparse⟩ := exists_parse_of_regex h
  rw [expression, Template.Setting.withMaps] at htext
  split at htext
  next =>
    cases htext
    exact hparse
  next => cases htext

theorem wellNamed_of_regex {r : Regex} (h : c.regex complete = .ok r) :
    Regex.WellNamed r.names := by
  obtain ⟨text, -, hparse⟩ := exists_parse_of_regex h
  exact Regex.wellNamed_of_parse hparse

theorem eq_nil_of_decided? (h : c.decided? url complete = some (some captures)) :
    captures = [] := by
  rw [decided?] at h
  repeat' split at h
  all_goals cases h
  rfl

/-- What is captured is what the named groups of an expression hold, unless a comparison with the
path settles the match: then nothing is captured. -/
theorem exists_of_capture (h : c.capture url complete = .ok (some captures)) :
    c.decided? url complete = some (some captures) ∨
      ∃ r place, c.regex complete = .ok r ∧ r.matchStart? (c.config.delimiter :: url) = some place ∧
        captures = r.namedGroups place := by
  rw [capture] at h
  split at h
  next hdecided =>
    cases h
    exact .inl hdecided
  next =>
    obtain ⟨r, hr, h⟩ := Regex.Token.map_eq_ok h
    obtain ⟨place, hplace, rfl⟩ := Option.map_eq_some_iff.mp h
    exact .inr ⟨r, place, hr, hplace, rfl⟩

theorem captured_names (h : c.capture url complete = .ok (some captures)) :
    (captures.map Prod.fst).Nodup ∧
      ∀ capture ∈ captures, Text.isIdentifier capture.1 = true := by
  rcases exists_of_capture h with hdecided | ⟨r, place, hr, -, rfl⟩
  · rw [eq_nil_of_decided? hdecided]
    exact ⟨.nil, fun capture hmem ↦ by cases hmem⟩
  · have hnamed := wellNamed_of_regex hr
    rw [Regex.namedGroups, List.map_map]
    refine ⟨hnamed.nodup, fun capture hmem ↦ ?_⟩
    obtain ⟨entry, hentry, rfl⟩ := List.mem_map.mp hmem
    exact hnamed.isIdentifier entry hentry

theorem extract_of_decision {groups options : Mapping}
    (h : c.decision request url groups options = .ok d) :
    Variables.extract groups c.text url c.patterns options (c.parameterDelimiter options) =
      .ok d.vars := by
  obtain ⟨vars, hvars, h⟩ := bind_eq_ok_iff.mp h
  rw [hvars]
  rw [Dispatch.resolve] at h
  cases hh : Target.handler (Target.substitute groups options c.target) options
    c.config.namespaceMark (Target.substitute [] options c.target) with
  | error e =>
    rw [hh] at h
    cases h
  | ok handler =>
    rw [hh] at h
    cases h
    rfl

end CompiledRule

/-! ### Decisions of rules -/

variable {t s : Table} {id : NodeId} {request : Request} {url : Text} {asked anyDomain : Bool}
  {d : Dispatch}

/-- A decision surfaces the variables of what its rule captured and of the parameters in the part of
the URL that the rule does not consume. -/
theorem exists_extract (ht : t.Reachable)
    (hd : (Action.checkRule id request url asked anyDomain).run t = .ok (some d) s) :
    ∃ c captures params, t.ruleAt id = .ok c ∧
      c.capture (c.trimmed request.ext url) (c.isComplete asked) = .ok (some captures) ∧
      Variables.tail captures.toMapping c.text (c.trimmed request.ext url)
        (c.parameterDelimiter c.options) = .ok params ∧
      Variables.extract captures.toMapping c.text (c.trimmed request.ext url)
        (t.effectivePatterns id) (c.on anyDomain).options (c.parameterDelimiter c.options) =
          .ok d.vars := by
  have hanswer := ((Action.checkRule_answers ht.sound id request url asked anyDomain).run_ok hd).1
  obtain ⟨-, c, captures, hat, hcaptures, hdecision⟩ := Table.decisionAt_eq_some hanswer
  have hextract := CompiledRule.extract_of_decision hdecision
  have htext : (c.on anyDomain).text = c.text := by cases anyDomain <;> rfl
  have hpatterns : (c.on anyDomain).patterns = t.effectivePatterns id := by
    rw [← Table.patterns_of_ruleAt hat]
    cases anyDomain <;> rfl
  rw [htext, hpatterns, c.parameterDelimiter_on] at hextract
  have htail := hextract
  rw [Variables.extract_eq] at htail
  cases hparams : Variables.tail captures.toMapping c.text (c.trimmed request.ext url)
      (c.parameterDelimiter c.options) with
  | error e =>
    rw [hparams] at htail
    cases htail
  | ok params => exact ⟨c, captures, params, hat, hcaptures, hparams, hextract⟩

/-- In a decision, a captured variable is bound to the text of its group, or to the parameter of its
name in the part of the URL that the rule does not consume, as its pattern coerces it. It keeps the
text of its group if and only if there is no such parameter, or one that is coerced to the same. -/
theorem named?_vars_of_captured (ht : t.Reachable)
    (hd : (Action.checkRule id request url asked anyDomain).run t = .ok (some d) s) :
    ∃ c captures params, t.ruleAt id = .ok c ∧
      c.capture (c.trimmed request.ext url) (c.isComplete asked) = .ok (some captures) ∧
      Variables.tail captures.toMapping c.text (c.trimmed request.ext url)
        (c.parameterDelimiter c.options) = .ok params ∧
      ∀ v text, (v, some text) ∈ captures → v ∉ Variables.reserved →
        d.vars.named? v = some (Variables.coerce ((params.named? v).getD (.str text))
          ((t.effectivePatterns id).named v)) ∧
        (d.vars.named? v =
            some (Variables.coerce (.str text) ((t.effectivePatterns id).named v)) ↔
          ∀ parameter, params.named? v = some parameter →
            Variables.coerce parameter ((t.effectivePatterns id).named v) =
              Variables.coerce (.str text) ((t.effectivePatterns id).named v)) := by
  obtain ⟨c, captures, params, hat, hcaptures, hparams, hextract⟩ := exists_extract ht hd
  refine ⟨c, captures, params, hat, hcaptures, hparams, fun v text hmem hv ↦ ?_⟩
  have hgroup := Captures.get?_toMapping (CompiledRule.captured_names hcaptures).1 hmem
  have hvalue := Variables.get?_extract hv hgroup hparams hextract
  refine ⟨hvalue, ?_⟩
  rw [hvalue]
  cases params.named? v with
  | none => simp
  | some parameter => simp

/-- A rule with one variable, which is to be a number. -/
def Table.userRule : Table := empty.afterAll
  [.addRouter [], .routeOn 0 { rule := "user/<id>", target := "x", patterns := [("id", "int")] }]

theorem reachable_userRule : Table.userRule.Reachable :=
  ⟨_, by decide, rfl⟩

theorem userRule_decides : ∃ d s, (Action.checkRule 1 (.bare "GET" "/") "user/42/id/evil" false
    false).run Table.userRule = .ok (some d) s ∧ d.vars.named? "id" = some "evil" := by
  have hrun : (((Action.checkRule 1 (.bare "GET" "/") "user/42/id/evil" false false).answer?
      Table.userRule).join.bind fun d ↦ (d.vars.named? "id").bind Value.text?) =
        some "evil".toList := by decide +kernel
  obtain ⟨d, hd, hvars⟩ := Option.bind_eq_some_iff.mp hrun
  obtain ⟨s, hs⟩ := Action.exists_run_of_answer? (Option.join_eq_some_iff.mp hd)
  obtain ⟨value, hvalue, htext⟩ := Option.bind_eq_some_iff.mp hvars
  rw [Value.text?_eq_some_iff.mp htext] at hvalue
  exact ⟨d, s, hs, hvalue⟩

theorem Table.captures_eq {c : CompiledRule} {ext : Text} {captures : Captures}
    (found : Captures) (hat : t.ruleAt id = .ok c)
    (hcaptures : c.capture (c.trimmed ext url) (c.isComplete asked) = .ok (some captures))
    (h : (t.ruleAt id >>= fun c ↦
      c.capture (c.trimmed ext url) (c.isComplete asked)).toOption = some (some found)) :
    captures = found := by
  rw [hat] at h
  change Except.toOption (CompiledRule.capture _ _ _) = _ at h
  rw [hcaptures] at h
  exact Option.some.inj (Option.some.inj h)

/-- What can be read from the parameters of a URL. -/
theorem Table.read_params {α : Type} {c : CompiledRule} {ext : Text} {captures : Captures}
    {params : Mapping} (read : Mapping → α) {x : α} (hat : t.ruleAt id = .ok c)
    (hparams : Variables.tail captures.toMapping c.text (c.trimmed ext url)
      (c.parameterDelimiter c.options) = .ok params)
    (h : (t.ruleAt id >>= fun c ↦ Variables.tail captures.toMapping c.text (c.trimmed ext url)
      (c.parameterDelimiter c.options)).toOption.map read = some x) :
    read params = x := by
  rw [hat] at h
  change (Except.toOption (Variables.tail _ _ _ _)).map read = _ at h
  rw [hparams] at h
  exact Option.some.inj h

theorem userRule_captures {c : CompiledRule} {captures : Captures}
    (hat : Table.userRule.ruleAt 1 = .ok c)
    (hcaptures : c.capture (c.trimmed [] "user/42/id/evil")
      (c.isComplete false) = .ok (some captures)) :
    captures = [("id".toList, some "42".toList)] :=
  Table.captures_eq _ hat hcaptures (by decide +kernel)

theorem named?_vars_userRule : ∃ d s c captures params, Table.userRule.Reachable ∧
    (Action.checkRule 1 (.bare "GET" "/") "user/42/id/evil" false false).run Table.userRule =
      .ok (some d) s ∧
    Table.userRule.ruleAt 1 = .ok c ∧
    c.capture (c.trimmed [] "user/42/id/evil")
      (c.isComplete false) = .ok (some captures) ∧
    Variables.tail captures.toMapping c.text (c.trimmed [] "user/42/id/evil")
      (c.parameterDelimiter c.options) = .ok params ∧
    ("id".toList, some "42".toList) ∈ captures ∧ "id".toList ∉ Variables.reserved ∧
    d.vars.named? "id" = some (Variables.coerce ((params.named? "id").getD "42")
      ((Table.userRule.effectivePatterns 1).named "id")) ∧
    (d.vars.named? "id" = some (Variables.coerce "42"
        ((Table.userRule.effectivePatterns 1).named "id")) ↔
      ∀ parameter, params.named? "id" = some parameter →
        Variables.coerce parameter ((Table.userRule.effectivePatterns 1).named "id") =
          Variables.coerce "42" ((Table.userRule.effectivePatterns 1).named "id")) := by
  obtain ⟨d, s, hd, -⟩ := userRule_decides
  obtain ⟨c, captures, params, hat, hcaptures, hparams, hall⟩ :=
    named?_vars_of_captured reachable_userRule hd
  have hmem : ("id".toList, some "42".toList) ∈ captures := by
    rw [userRule_captures hat hcaptures]
    exact List.mem_singleton_self _
  have hid : "id".toList ∉ Variables.reserved := by decide
  obtain ⟨hvalue, hiff⟩ := hall _ _ hmem hid
  exact ⟨d, s, c, captures, params, reachable_userRule, hd, hat, hcaptures, hparams, hmem, hid,
    hvalue, hiff⟩

/-- A captured variable need not be surfaced with the text of its group, nor with one that its
pattern admits. -/
theorem not_forall_captured_surfaced : ¬∀ (t s : Table) (id : NodeId) (request : Request)
    (url : Text) (asked anyDomain : Bool) (d : Dispatch) (c : CompiledRule) (captures : Captures),
    t.Reachable →
    (Action.checkRule id request url asked anyDomain).run t = .ok (some d) s →
    t.ruleAt id = .ok c →
    c.capture (c.trimmed request.ext url) (c.isComplete asked) = .ok (some captures) →
    ∀ v text, (v, some text) ∈ captures → v ∉ Variables.reserved →
      d.vars.named? v =
        some (Variables.coerce (.str text) ((t.effectivePatterns id).named v)) := by
  intro h
  obtain ⟨d, s, hd, hvalue⟩ := userRule_decides
  obtain ⟨hanswer, -⟩ := (Action.checkRule_answers reachable_userRule.sound _ _ _ _ _).run_ok hd
  obtain ⟨-, c, captures, hat, hcaptures, -⟩ := Table.decisionAt_eq_some hanswer
  have hmem : ("id".toList, some "42".toList) ∈ captures := by
    rw [userRule_captures hat hcaptures]
    exact List.mem_singleton_self _
  have hid := h _ _ _ _ _ _ _ d c captures reachable_userRule hd hat hcaptures _ _ hmem (by decide)
  have hnumber : (Variables.coerce (.str "42".toList)
      ((Table.userRule.effectivePatterns 1).named "id".toList)).text? = none := by decide +kernel
  rw [hvalue] at hid
  rw [← Option.some.inj hid] at hnumber
  cases hnumber

end UrlRouting

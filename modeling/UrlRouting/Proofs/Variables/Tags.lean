import UrlRouting.Proofs.Variables.Captured
import UrlRouting.Proofs.Variables.Pairs

/-!
Tags in the parameters of a URL. What is left of a text without its tags opens no further one, since
text behind an opening bracket is kept only once the tag is closed: no parameter that becomes a
variable holds an opening bracket (`tagless_vars`).
-/

namespace UrlRouting

open Http

namespace Variables

variable {groups patterns options params : Mapping} {rule url v t u : Text} {delimiter : Value}

/-! ### Texts without tags -/

theorem not_mem_stripTagsFrom (inside : Bool) (t : Text) : '<' ∉ stripTagsFrom inside t := by
  induction t generalizing inside with
  | nil => cases inside <;> exact List.not_mem_nil
  | cons c rest ih =>
    cases inside with
    | true => exact ih _
    | false =>
      rw [stripTagsFrom]
      split
      · exact ih true
      next hc =>
        rw [List.mem_cons, not_or]
        exact ⟨Ne.symm hc, ih false⟩

theorem stripTagsFrom_sublist (inside : Bool) (t : Text) :
    (stripTagsFrom inside t).Sublist t := by
  induction t generalizing inside with
  | nil => cases inside <;> exact .slnil
  | cons c rest ih =>
    cases inside with
    | true => exact (ih _).cons c
    | false =>
      rw [stripTagsFrom]
      split
      · exact (ih true).cons c
      · exact (ih false).cons_cons c

theorem stripTags_of_not_mem (h : '<' ∉ t) : stripTags t = t := by
  rw [stripTags]
  induction t with
  | nil => rfl
  | cons c rest ih =>
    rw [List.mem_cons, not_or] at h
    rw [stripTagsFrom, if_neg (Ne.symm h.1), ih h.2]

/-- What is left without tags has none. -/
theorem stripTags_stripTags (t : Text) : stripTags (stripTags t) = stripTags t :=
  stripTags_of_not_mem (not_mem_stripTagsFrom false t)

/-! ### Parameters as variables -/

theorem eq_of_coerce_eq_str {pattern : Value} (h : coerce (.str t) pattern = .str u) : t = u := by
  rw [coerce.eq_def] at h
  repeat' split at h
  all_goals simp_all

theorem get?_surface_of_reserved (h : v ∈ reserved) (patterns found : Mapping) :
    (surface patterns found).get? (.str v) = none := by
  rw [Entries.get?_eq_none_iff, surface, Entries.keys, List.map_map]
  intro hmem
  obtain ⟨⟨key, value⟩, hentry, hkey⟩ := List.mem_map.mp hmem
  have hopen := (List.mem_filter.mp hentry).2
  obtain rfl : key = .str v := hkey
  rw [isReserved, Value.text?, Option.any_some, List.contains_iff_mem.mpr h] at hopen
  cases hopen

/-- The value of a parameter is a text without tags. -/
theorem exists_text_of_tail (hparams : tail groups rule url delimiter = .ok params)
    {value : Value} (h : params.named? v = some value) :
    ∃ text, value = .str text ∧ '<' ∉ text := by
  obtain ⟨holds, -, hparams⟩ := bind_eq_ok_iff.mp hparams
  cases holds with
  | true =>
    cases hparams
    cases h
  | false =>
    change extra rule url delimiter = _ at hparams
    rw [extra.eq_def] at hparams
    split at hparams
    · cases hparams
    · cases hparams
      rw [named?_ofPairText] at h
      obtain ⟨text, -, rfl⟩ := Option.map_eq_some_iff.mp h
      exact ⟨_, rfl, not_mem_stripTagsFrom false text⟩
    · cases hparams

/-- A variable that a parameter is bound to is no string with an opening bracket: it is what the
parameter is coerced to, or is not surfaced. -/
theorem not_mem_of_named?_extract {parameter : Value} {vars : Mapping} {text : Text}
    (hparams : tail groups rule url delimiter = .ok params)
    (hparameter : params.named? v = some parameter)
    (h : extract groups rule url patterns options delimiter = .ok vars)
    (hv : vars.named? v = some (.str text)) : '<' ∉ text := by
  by_cases hreserved : v ∈ reserved
  · rw [extract_eq, hparams] at h
    cases h
    rw [Entries.named?, get?_surface_of_reserved hreserved] at hv
    cases hv
  · have hbound := named?_extract hreserved hparams (by rw [hparameter, Option.some_or]) h
    obtain ⟨given, rfl, hgiven⟩ := exists_text_of_tail hparams hparameter
    rw [hbound, Option.some.injEq] at hv
    exact eq_of_coerce_eq_str hv ▸ hgiven

end Variables

/-! ### Decisions of rules -/

/-- What is left of a text without tags is a part of it that holds no opening bracket, all of it if
there is none, and is left as it is by another pass. So where a decision binds a variable to a
parameter in the part of the URL that the rule does not consume, the string that the variable is
bound to holds no opening bracket. -/
theorem tagless_vars :
    (∀ v, '<' ∉ Variables.stripTags v ∧ (Variables.stripTags v).Sublist v ∧
      ('<' ∉ v → Variables.stripTags v = v) ∧
      Variables.stripTags (Variables.stripTags v) = Variables.stripTags v) ∧
    ∀ (t s : Table) (id : NodeId) (request : Request) (url : Text) (asked anyDomain : Bool)
      (d : Dispatch), t.Reachable →
      (Action.checkRule id request url asked anyDomain).run t = .ok (some d) s →
      ∃ c captures params, t.ruleAt id = .ok c ∧
        c.capture (c.trimmed request.ext url) (c.isComplete asked) = .ok (some captures) ∧
        Variables.tail captures.toMapping c.text (c.trimmed request.ext url)
          (c.parameterDelimiter c.options) = .ok params ∧
        ∀ name parameter, params.named? name = some parameter →
          (name ∉ Variables.reserved → d.vars.named? name =
            some (Variables.coerce parameter ((t.effectivePatterns id).named name))) ∧
          ∀ text, d.vars.named? name = some (.str text) → '<' ∉ text := by
  refine ⟨fun v ↦ ⟨Variables.not_mem_stripTagsFrom false v, Variables.stripTagsFrom_sublist false v,
    Variables.stripTags_of_not_mem, Variables.stripTags_stripTags v⟩, ?_⟩
  intro t s id request url asked anyDomain d ht hd
  obtain ⟨c, captures, params, hat, hcaptures, hparams, hextract⟩ := exists_extract ht hd
  refine ⟨c, captures, params, hat, hcaptures, hparams, fun name parameter hparameter ↦
    ⟨fun hname ↦ ?_, fun text ↦ Variables.not_mem_of_named?_extract hparams hparameter hextract⟩⟩
  exact Variables.named?_extract hname hparams (by rw [hparameter, Option.some_or]) hextract

/-- A tag in the title is left out, and so is one that is not closed. -/
theorem tagless_vars_userRule : ∃ (d : Dispatch) (s : Table) (c : CompiledRule)
    (captures : Captures) (params : Mapping), Table.userRule.Reachable ∧
    (Action.checkRule 1 (.bare "GET" "/") "user/42/title/a<b>c<d" false false).run
      Table.userRule = .ok (some d) s ∧
    Table.userRule.ruleAt 1 = .ok c ∧
    c.capture (c.trimmed [] "user/42/title/a<b>c<d") (c.isComplete false) = .ok (some captures) ∧
    Variables.tail captures.toMapping c.text (c.trimmed [] "user/42/title/a<b>c<d")
      (c.parameterDelimiter c.options) = .ok params ∧
    params.named? "title" = some (.str "ac") ∧ "title".toList ∉ Variables.reserved ∧
    d.vars.named? "title" = some (.str "ac") ∧ '<' ∉ "ac".toList := by
  have hsome : ((Action.checkRule 1 (.bare "GET" "/") "user/42/title/a<b>c<d" false false).answer?
      Table.userRule).join.isSome = true := by decide +kernel
  obtain ⟨d, hd⟩ := Option.isSome_iff_exists.mp hsome
  obtain ⟨s, hd⟩ := Action.exists_run_of_answer? (Option.join_eq_some_iff.mp hd)
  obtain ⟨c, captures, params, hat, hcaptures, hparams, hall⟩ :=
    tagless_vars.2 _ _ _ _ _ _ _ _ reachable_userRule hd
  obtain rfl := Table.captures_eq [("id".toList, some "42".toList)] hat hcaptures
    (by decide +kernel)
  have hread : (params.named? "title").bind Value.text? = some "ac".toList :=
    Table.read_params (fun params ↦ (params.named? "title").bind Value.text?) hat hparams
      (by decide +kernel)
  obtain ⟨value, hvalue, htext⟩ := Option.bind_eq_some_iff.mp hread
  obtain rfl := Value.text?_eq_some_iff.mp htext
  have htitle : "title".toList ∉ Variables.reserved := by decide
  have hplain : (Variables.coerce "ac" ((Table.userRule.effectivePatterns 1).named "title")).text? =
      some "ac".toList := by decide +kernel
  obtain ⟨hbound, hfree⟩ := hall _ _ hvalue
  have hvar := hbound htitle
  rw [Value.text?_eq_some_iff.mp hplain] at hvar
  exact ⟨d, s, c, _, params, reachable_userRule, hd, hat, hcaptures, hparams, hvalue, htitle, hvar,
    hfree _ hvar⟩

end UrlRouting

import UrlRouting.Proofs.Table.Complete
import UrlRouting.Proofs.Template.Consumed

/-!
Which parts of a URL are read as parameters. A rule skips as many parts as its rule string has,
whatever of the URL its match has consumed: where the parameters are separated by the delimiter of
the path, it skips one part too many for every part of its own that is a variable without a value,
and for every slash at its end (`vars_of_unconsumed`).
-/

namespace UrlRouting

open Http

theorem Captures.mem_of_value {captures : Captures} {name v : Text}
    (h : captures.value name = some v) : (name, some v) ∈ captures := by
  obtain ⟨front, back, rfl, -⟩ := List.lookup_eq_some_iff.mp (Option.join_eq_some_iff.mp h)
  exact List.mem_append_right _ List.mem_cons_self

/-! ### Skipped parts -/

namespace Variables

variable {rule front rest mark : Text}

/-- The parts that are skipped are as many as the rule string has, on whichever side of a place
between two parts of the URL they are. -/
theorem unconsumed_append (hmark : mark ≠ []) (hfront : Text.Unbroken mark front)
    (hrest : rest = [] ∨ mark <+: rest) :
    unconsumed rule (front ++ rest) mark =
      (Text.splitOn mark front).drop (rule.count '/' + 1) ++ (Text.splitOn mark rest).tail.drop
        (rule.count '/' + 1 - (Text.splitOn mark front).length) := by
  rw [unconsumed, Text.splitOn_append_of_prefix hmark hfront hrest, List.drop_append]

theorem drop_append_drop_eq_iff {α : Type} (front rest : List α) (n : Nat) :
    front.drop n ++ rest.drop (n - front.length) = rest ↔
      front.length = n ∨ front.length < n ∧ rest = [] := by
  constructor
  · intro h
    have hlength := congrArg List.length h
    rw [List.length_append, List.length_drop, List.length_drop] at hlength
    rcases Nat.lt_trichotomy front.length n with hlt | heq | hgt
    · exact .inr ⟨hlt, List.length_eq_zero_iff.mp (by omega)⟩
    · exact .inl heq
    · omega
  · rintro (rfl | ⟨hlt, rfl⟩)
    · rw [List.drop_length, Nat.sub_self, List.drop_zero, List.nil_append]
    · rw [List.drop_nil, List.append_nil, List.drop_eq_nil_of_le (Nat.le_of_lt hlt)]

end Variables

namespace CompiledRule

open Template Template.Part

variable {c : CompiledRule} {parts : List Part} {kind : Text → Kind} {url t rest : Text}
  {complete : Bool} {captures : Captures}

/-- The parts of the path, without the delimiters at its end. -/
def bodyParts (c : CompiledRule) (parts : List Part) : List Part :=
  (c.pathParts parts).rdropWhile (isLiteral (· == c.config.delimiter))

theorem Plain.isPlain_bodyParts (h : c.Plain parts) : ∀ part ∈ c.bodyParts parts,
    part.isPlain (isSeparator [c.config.delimiter]) = true :=
  fun part hmem ↦ h.isPlain_pathParts part ((List.rdropWhile_prefix _ _).subset hmem)

/-- The rule string is written in plain parts. It is not made of slashes only, and another delimiter
of the path does not occur in it. -/
structure Segmented (c : CompiledRule) (parts : List Part) : Prop extends c.Plain parts where
  letter : ∃ x ∈ c.text, x ≠ '/'
  spare : c.config.delimiter ≠ '/' → c.config.delimiter ∉ c.text

theorem Segmented.written_bodyParts (h : c.Segmented parts) : written (c.bodyParts parts) =
    c.config.delimiter :: (Text.trimRight (· == '/') c.text).map (delimit c.config.delimiter) := by
  have hclose : (fun x ↦ x == c.config.delimiter) '>' = false := by
    have hmark := isSeparator_mark c.config.isDelimiter_delimiter (c := '>') (by decide)
    rw [beq_eq_false_iff_ne]
    rintro he
    simp [isSeparator, ← he] at hmark
  have hne : c.text ≠ ['/'] := by
    intro he
    obtain ⟨x, hx, hslash⟩ := h.letter
    rw [he] at hx
    exact hslash (List.mem_singleton.mp hx)
  rw [bodyParts, ← trimRight_written hclose, ← h.path_eq, path, if_neg hne, Config.delimiterText]
  dsimp only
  rw [replaceChar_eq_map]
  split
  · have hsame : Text.trimRight (· == '/') (Text.trimRight (· == '/') c.text) =
        Text.trimRight (· == '/') c.text := by
      rw [Text.trimRight, Text.trimRight, List.reverse_reverse, List.dropWhile_idempotent]
    obtain ⟨ends, ht, hends⟩ := exists_trimRight_append (· == '/') c.text
    obtain ⟨x, hx, hslash⟩ := h.letter
    have hstem : x ∈ Text.trimRight (· == '/') c.text := by
      rw [ht, List.mem_append] at hx
      exact hx.resolve_right fun hmem ↦ hslash (beq_iff_eq.mp (hends x hmem))
    rw [trimRight_delimited ⟨x, hstem, hslash⟩ fun hd hmem ↦ h.spare hd (mem_of_mem_trimRight hmem),
      hsame]
  · exact trimRight_delimited h.letter h.spare

/-- The parts of the rule consume a text at the head of the URL, which has a delimiter before it,
and this text ends where a part of the URL does. -/
structure Consumption (c : CompiledRule) (parts : List Part) (captures : Captures)
    (url t rest : Text) : Prop where
  whole : c.config.delimiter :: url = t ++ rest
  consumes : Consumes c.config.delimiter captures.value (c.bodyParts parts) t
  ends : rest = [] ∨ rest.head? = some c.config.delimiter

/-- What is left of the URL is read as parameters, without one part for every missing variable that
a delimiter goes with and every slash at the end of the rule string. -/
theorem Segmented.unconsumed_eq (h : c.Segmented parts)
    (hvalues : ∀ name v, captures.value name = some v → c.config.delimiter ∉ v)
    (hc : c.Consumption parts captures url t rest) :
    Variables.unconsumed c.text url [c.config.delimiter] =
      (Text.splitOn [c.config.delimiter] rest).tail.drop
        (missing c.config.delimiter captures.value (c.bodyParts parts) + closing c.text) := by
  have hparts : Text.splitAt c.config.delimiter url =
      (Text.splitAt c.config.delimiter t).tail ++ (Text.splitAt c.config.delimiter rest).tail := by
    have hsplit := congrArg (Text.splitAt c.config.delimiter) hc.whole
    rw [Text.splitAt_append hc.ends, Text.splitAt, if_pos rfl] at hsplit
    rw [← List.tail_append_of_ne_nil (Text.splitAt_ne_nil _ t), ← hsplit, List.tail_cons]
  have hlength : (Text.splitAt c.config.delimiter t).tail.length = t.count c.config.delimiter := by
    rw [List.length_tail, Text.length_splitAt, Nat.add_sub_cancel]
    rfl
  have hcount := hc.consumes.count_add_missing c.config.isDelimiter_delimiter h.isPlain_bodyParts
    hvalues
  have hspare : c.config.delimiter ≠ '/' →
      c.config.delimiter ∉ Text.trimRight (· == '/') c.text :=
    fun hd hmem ↦ h.spare hd (mem_of_mem_trimRight hmem)
  rw [h.written_bodyParts, List.count_cons_self, count_delimited hspare] at hcount
  have hslashes := count_slash c.text
  rw [Variables.unconsumed, Text.splitOn_singleton, Text.splitOn_singleton, hparts,
    List.drop_append, List.drop_eq_nil_of_le (by omega), List.nil_append, hlength]
  congr 1
  omega

/-! ### Matches -/

theorem exists_pathParts (c : CompiledRule) (parts : List Part) :
    ∃ ends, c.pathParts parts = c.bodyParts parts ++ ends ∧
      ∀ part ∈ ends, part = literal c.config.delimiter := by
  refine ⟨(c.pathParts parts).rtakeWhile (isLiteral (· == c.config.delimiter)),
    List.rdropWhile_append_rtakeWhile.symm, fun part hmem ↦ ?_⟩
  have hpart := List.mem_rtakeWhile_imp hmem
  cases part with
  | literal x => rw [beq_iff_eq.mp hpart]
  | slot lead name optional => cases hpart

theorem matchesLiterally_of_capture (hpath : '<' ∉ c.path)
    (h : c.capture url complete = .ok (some captures)) :
    c.matchesLiterally (c.config.delimiter :: url) complete = true := by
  rw [capture, decided?] at h
  split at h
  next outcome hdecided =>
    cases h
    split at hdecided
    · cases hdecided
    split at hdecided
    · split at hdecided
      next hmatches => exact hmatches
      next => cases hdecided
    split at hdecided <;> cases hdecided
  next hundecided =>
    rw [if_pos (show (!c.path.contains '<') = true by simpa using hpath)] at hundecided
    split at hundecided <;> cases hundecided

/-- A rule without variables consumes what differs from its path in the case of letters only. -/
theorem Plain.exists_consumption (h : c.Plain parts) (hnames : names parts = [])
    (hd : Text.IsPunctuation c.config.delimiter)
    (hcapture : c.capture url complete = .ok (some captures)) :
    ∃ t rest, c.Consumption parts captures url t rest := by
  obtain ⟨ends, hends, hdelimiters⟩ := c.exists_pathParts parts
  have hbody : names (c.bodyParts parts) = [] := by
    rw [bodyParts, names_rdropWhile, c.names_pathParts, hnames]
  have hpath : '<' ∉ c.path := by
    rw [h.path_eq]
    intro hmem
    obtain ⟨part, hpart, hc⟩ := List.mem_flatMap.mp hmem
    cases part with
    | literal x =>
      obtain rfl := List.mem_singleton.mp hc
      have hplain := h.isPlain_pathParts _ hpart
      rw [Part.isPlain, isSeparator_mark c.config.isDelimiter_delimiter (by decide)] at hplain
      exact absurd hplain (by decide)
    | slot lead name optional =>
      have hname : name ∈ names (c.pathParts parts) := mem_names.mpr ⟨lead, optional, hpart⟩
      rw [c.names_pathParts, hnames] at hname
      cases hname
  obtain ⟨more, hmore⟩ : ∃ more, c.path ++ [c.config.delimiter] =
      written (c.bodyParts parts) ++ c.config.delimiter :: more := by
    rw [h.path_eq, hends, written_append, List.append_assoc]
    cases ends with
    | nil => exact ⟨[], rfl⟩
    | cons part rest =>
      rw [hdelimiters part List.mem_cons_self]
      exact ⟨written rest ++ [c.config.delimiter], rfl⟩
  have hcut {y w : Text} (hx : Text.Spells c.config.delimiter (c.path ++ [c.config.delimiter]) y)
      (hu : Text.Spells c.config.delimiter
        (c.config.delimiter :: url ++ [c.config.delimiter]) w) (hfirst : y <+: w) :
      ∃ t rest, c.Consumption parts captures url t rest := by
    rw [hmore] at hx
    obtain ⟨t, rest, hwhole, hends, hconsumes⟩ :=
      exists_consumes captures.value hx hu hfirst
    rw [← eq_map_literal hbody] at hconsumes
    exact ⟨t, rest, hwhole, hconsumes, hends⟩
  have hmatches := matchesLiterally_of_capture hpath hcapture
  rw [matchesLiterally, Bool.or_eq_true, beq_iff_eq, Bool.and_eq_true, Text.startsWith_iff,
    Config.delimiterText] at hmatches
  rcases hmatches with hsame | ⟨-, hfirst⟩
  · exact hcut (Text.spells_lower hd _).append_separator
      (Text.spells_lower hd _).append_separator (hsame ▸ List.prefix_refl _)
  · exact hcut (Text.spells_lower hd _) (Text.spells_lower hd _) hfirst

/-- A rule with variables of the known kinds consumes what its values fill its parts to, and perhaps
the delimiter at its end. -/
theorem Known.exists_consumes {r : Regex} {p : Regex.Place} (h : c.Known parts kind)
    (hnames : names parts ≠ []) (hexact : c.ignoresCase = false)
    (hregex : c.regex complete = .ok r)
    (hmatch : r.matchStart? (c.config.delimiter :: url) = some p) :
    ∃ t ends, p.before.reverse = t ++ ends ∧ (ends = [] ∨ ends = [c.config.delimiter]) ∧
      Consumes c.config.delimiter (Captures.value (r.namedGroups p)) (c.bodyParts parts) t := by
  rw [h.regex_eq] at hregex
  split at hregex
  next hwell =>
    cases hregex
    have hnodup : (names (c.standing parts)).Nodup := by
      rw [CompiledRule.standing, names_standing, c.names_pathParts]
      exact hwell.1
    obtain ⟨-, -, hfill, -⟩ := fill_of_matchStart? hnodup hmatch
    have hwhole : p.before.reverse ++ p.after = c.config.delimiter :: url :=
      Regex.Node.whole_of_run hmatch
    have hone : c.pathParts parts ≠ [literal c.config.delimiter] := by
      intro hone
      rw [← c.names_pathParts, hone] at hnames
      exact hnames rfl
    rw [hfill hexact] at hwhole
    have hconsumed := List.append_cancel_right hwhole
    rw [hconsumed, CompiledRule.standing, Template.standing, if_neg hone, fill_append, fill_settle]
    refine ⟨_, _, rfl, ?_, consumes_fill _ _ _⟩
    split
    · exact .inr rfl
    · exact .inl rfl
  next => cases hregex

/-! ### Variables -/

/-- The variables of a match, given the parts of the URL that are read as parameters. -/
def varsWith (c : CompiledRule) (captures : Captures) (segments : List Text) : Mapping :=
  Variables.surface c.patterns (Variables.withDefaults
    (Entries.overlay (captures.toMapping.filter fun entry ↦ !entry.2.isNull)
      (Variables.ofPairText (Text.join "/" segments))) (c.options.named "default"))

theorem ne_nil_of_parameterDelimiter {mark : Text}
    (h : c.parameterDelimiter c.options = .str mark) : mark ≠ [] := by
  rintro rfl
  rw [parameterDelimiter] at h
  split at h
  next htruthy =>
    rw [h] at htruthy
    cases htruthy
  next => cases h

theorem extract_of_decision_on {anyDomain : Bool} {request : Request} {groups : Mapping}
    {d : Dispatch} (h : (c.on anyDomain).decision request url groups (c.on anyDomain).options =
      .ok d) : Variables.extract groups c.text url c.patterns c.options
        (c.parameterDelimiter c.options) = .ok d.vars := by
  have hextract := extract_of_decision h
  have hdefault : Mapping.named (c.on anyDomain).options "default" =
      Mapping.named c.options "default" := by
    cases anyDomain with
    | false => rfl
    | true => exact named_onAnyDomain (by decide) c
  rw [c.parameterDelimiter_on, Variables.extract_eq, hdefault] at hextract
  rw [Variables.extract_eq, ← hextract]
  cases anyDomain <;> rfl

theorem extract_eq_varsWith {mark : Text} (hmark : c.parameterDelimiter c.options = .str mark)
    (hcaptures : ∀ name v, (name, some v) ∈ captures → Text.occursIn mark v = false) :
    Variables.extract captures.toMapping c.text url c.patterns c.options
        (c.parameterDelimiter c.options) =
      .ok (c.varsWith captures (Variables.unconsumed c.text url mark)) := by
  have hextra : Variables.extra c.text url (.str mark) =
      .ok (Variables.ofPairText (Text.join "/" (Variables.unconsumed c.text url mark))) := by
    cases mark with
    | nil => exact absurd rfl (ne_nil_of_parameterDelimiter hmark)
    | cons x mark => rfl
  rw [Variables.extract_eq, Variables.tail, hmark, Captures.anyHoldsDelimiter_toMapping hcaptures]
  change (Variables.extra c.text url (.str mark)).map _ = _
  rw [hextra]
  rfl

end CompiledRule

/-! ### Decisions of rules -/

open Template Template.Part

variable {t s : Table} {id : NodeId} {request : Request} {url : Text} {asked anyDomain : Bool}
  {d : Dispatch}

/-- Where no captured value holds the delimiter of the parameters, these are read from all parts of
the URL but the first ones, as many as the rule string has. At a place between two parts of the URL,
such as the end of a match, they are the parts behind it exactly if there are as many before it, or
fewer and none behind it. Where parameters and paths have one delimiter, the parts behind what the
rule consumes are read without one for every missing variable that a delimiter goes with and every
slash at the end of the rule string. -/
theorem vars_of_unconsumed (ht : t.Reachable)
    (hd : (Action.checkRule id request url asked anyDomain).run t = .ok (some d) s) :
    ∃ c captures, t.ruleAt id = .ok c ∧
      c.capture (c.trimmed request.ext url) (c.isComplete asked) = .ok (some captures) ∧
      (∀ mark, c.parameterDelimiter c.options = .str mark →
        (∀ name v, (name, some v) ∈ captures → Text.occursIn mark v = false) →
        ∃ segments, d.vars = c.varsWith captures segments ∧
          (∀ front rest, c.trimmed request.ext url = front ++ rest → Text.Unbroken mark front →
            (rest = [] ∨ mark <+: rest) →
            segments = (Text.splitOn mark front).drop (c.text.count '/' + 1) ++
              (Text.splitOn mark rest).tail.drop
                (c.text.count '/' + 1 - (Text.splitOn mark front).length) ∧
            (segments = (Text.splitOn mark rest).tail ↔
              (Text.splitOn mark front).length = c.text.count '/' + 1 ∨
                (Text.splitOn mark front).length < c.text.count '/' + 1 ∧
                  (Text.splitOn mark rest).tail = [])) ∧
          (mark = [c.config.delimiter] → ∀ parts consumed rest, c.Segmented parts →
            c.Consumption parts captures (c.trimmed request.ext url) consumed rest →
            segments = (Text.splitOn mark rest).tail.drop
              (missing c.config.delimiter captures.value (c.bodyParts parts) +
                closing c.text))) ∧
      (∀ parts kind, c.Known parts kind → names parts ≠ [] → c.ignoresCase = false →
        ∃ r p consumed ends, c.regex (c.isComplete asked) = .ok r ∧
          r.matchStart? (c.config.delimiter :: c.trimmed request.ext url) = some p ∧
          p.before.reverse = consumed ++ ends ∧ (ends = [] ∨ ends = [c.config.delimiter]) ∧
          (ends ++ p.after = [] ∨ (ends ++ p.after).head? = some c.config.delimiter →
            c.Consumption parts captures (c.trimmed request.ext url) consumed
              (ends ++ p.after))) ∧
      (∀ parts, c.Plain parts → names parts = [] → Text.IsPunctuation c.config.delimiter →
        ∃ consumed rest,
          c.Consumption parts captures (c.trimmed request.ext url) consumed rest) := by
  have hanswer := ((Action.checkRule_answers ht.sound id request url asked anyDomain).run_ok hd).1
  obtain ⟨-, c, captures, hat, hcaptures, hdecision⟩ := Table.decisionAt_eq_some hanswer
  have hextract := CompiledRule.extract_of_decision_on hdecision
  refine ⟨c, captures, hat, hcaptures, fun mark hmark hvalues ↦
    ⟨Variables.unconsumed c.text (c.trimmed request.ext url) mark, ?_, ?_, ?_⟩, ?_, ?_⟩
  · rw [CompiledRule.extract_eq_varsWith hmark hvalues] at hextract
    exact (Except.ok.inj hextract).symm
  · intro front rest hurl hfront hrest
    rw [hurl, Variables.unconsumed_append (CompiledRule.ne_nil_of_parameterDelimiter hmark) hfront
      hrest]
    exact ⟨rfl, Variables.drop_append_drop_eq_iff _ _ _⟩
  · rintro rfl parts consumed rest hsegmented hconsumption
    refine hsegmented.unconsumed_eq (fun name v hv ↦ ?_) hconsumption
    exact Text.occursIn_singleton.mp (hvalues name v (Captures.mem_of_value hv))
  · intro parts kind hknown hnames hexact
    obtain ⟨r, p, hregex, hmatch, rfl⟩ :=
      CompiledRule.capture_eq_some (hknown.mem_path hnames) hcaptures
    obtain ⟨consumed, ends, hbefore, hends, hconsumes⟩ :=
      hknown.exists_consumes hnames hexact hregex hmatch
    refine ⟨r, p, consumed, ends, hregex, hmatch, hbefore, hends, fun hrest ↦
      ⟨?_, hconsumes, hrest⟩⟩
    rw [← Regex.Node.whole_of_run hmatch, Regex.Place.whole, hbefore, List.append_assoc]
  · exact fun parts hplain hnames hpunctuation ↦
      hplain.exists_consumption hnames hpunctuation hcaptures

/-- The parts of a rule string with one variable at its end. -/
def Template.partsOfUser : List Part := "user/".toList.map literal ++ [slot none "id" false]

namespace Table

theorem consumption_userRule : ∃ c, userRule.inEffect? 1 = some c ∧ c.config.delimiter = '/' ∧
    c.Known partsOfUser (fun _ ↦ .int) ∧ c.Segmented partsOfUser ∧
    c.parameterDelimiter c.options = .str [c.config.delimiter] ∧
    c.Consumption partsOfUser [("id".toList, some "42".toList)] (c.trimmed [] "user/42/page/2")
      "/user/42" "/page/2" ∧
    missing c.config.delimiter (Captures.value [("id".toList, some "42".toList)])
      (c.bodyParts partsOfUser) + closing c.text = 0 ∧
    (Text.splitOn [c.config.delimiter] "/page/2").tail = ["page".toList, "2".toList] := by
  refine ⟨_, rfl, rfl, ⟨⟨rfl, by decide⟩, ?_, ?_, rfl⟩,
    ⟨⟨rfl, by decide⟩, ⟨'u', List.mem_cons_self, by decide⟩, fun h ↦ absurd rfl h⟩, rfl,
    ⟨rfl, consumes_fill '/' _ _, .inr rfl⟩, by decide, by decide⟩
  · intro name hname
    obtain rfl := List.mem_singleton.mp hname
    rfl
  · intro name _ given hgiven
    obtain rfl := Option.some.inj hgiven
    rfl

end Table

theorem vars_of_unconsumed_userRule : ∃ d s c captures, Table.userRule.Reachable ∧
    (Action.checkRule 1 (.bare "GET" "/") "user/42/page/2" false false).run Table.userRule =
      .ok (some d) s ∧
    Table.userRule.ruleAt 1 = .ok c ∧ c.Known partsOfUser (fun _ ↦ .int) ∧
    c.Segmented partsOfUser ∧ c.parameterDelimiter c.options = .str [c.config.delimiter] ∧
    c.Consumption partsOfUser captures (c.trimmed [] "user/42/page/2") "/user/42" "/page/2" ∧
    d.vars = c.varsWith captures ["page".toList, "2".toList] := by
  have hsome : ((Action.checkRule 1 (.bare "GET" "/") "user/42/page/2" false false).answer?
      Table.userRule).join.isSome = true := by decide +kernel
  obtain ⟨d, hd⟩ := Option.isSome_iff_exists.mp hsome
  obtain ⟨s, hd⟩ := Action.exists_run_of_answer? (Option.join_eq_some_iff.mp hd)
  obtain ⟨c, captures, hat, hcaptures, hvars, -⟩ := vars_of_unconsumed reachable_userRule hd
  obtain rfl := Table.captures_eq [("id".toList, some "42".toList)] hat hcaptures
    (by decide +kernel)
  obtain ⟨c', hin, hdelimiter, hknown, hsegmented, hmark, hconsumption, hcount, hrest⟩ :=
    Table.consumption_userRule
  obtain rfl : c' = c := Option.some.inj (hin.symm.trans (Table.inEffect?_of_ruleAt hat))
  have hvalues : ∀ name v, (name, some v) ∈ [("id".toList, some "42".toList)] →
      Text.occursIn [c'.config.delimiter] v = false := by
    intro name v hmem
    obtain ⟨-, hv⟩ := Prod.mk.inj (List.mem_singleton.mp hmem)
    rw [Option.some.inj hv, hdelimiter]
    decide
  obtain ⟨segments, hvars, -, hsegments⟩ := hvars _ hmark hvalues
  rw [hsegments rfl _ _ _ hsegmented hconsumption, hcount, List.drop_zero, hrest] at hvars
  exact ⟨d, s, c', _, reachable_userRule, hd, hat, hknown, hsegmented, hmark, hconsumption, hvars⟩

/-- A rule with a variable at its end that may be missing. -/
def Table.blogRule : Table := empty.afterAll
  [.addRouter [], .routeOn 0 { rule := "blog/<id?>", target := "x", patterns := [("id", "int")] }]

def Template.partsOfBlog : List Part := "blog/".toList.map literal ++ [slot none "id" true]

theorem Table.consumption_blogRule : ∃ c, blogRule.inEffect? 1 = some c ∧
    c.Segmented partsOfBlog ∧ c.parameterDelimiter c.options = .str [c.config.delimiter] ∧
    c.Consumption partsOfBlog [("id".toList, none)] (c.trimmed [] "blog/page/2") "/blog"
      "/page/2" :=
  ⟨_, rfl, ⟨⟨rfl, by decide⟩, ⟨'b', List.mem_cons_self, by decide⟩, fun h ↦ absurd rfl h⟩, rfl,
    ⟨rfl, consumes_fill '/' _ _, .inr rfl⟩⟩

/-- Where a variable is missing, the first part behind what the rule consumes is not read. -/
theorem not_forall_vars_behind_match : ¬∀ (t s : Table) (id : NodeId) (request : Request)
    (url : Text) (asked anyDomain : Bool) (d : Dispatch) (c : CompiledRule) (captures : Captures)
    (parts : List Part) (consumed rest : Text), t.Reachable →
    (Action.checkRule id request url asked anyDomain).run t = .ok (some d) s →
    t.ruleAt id = .ok c →
    c.capture (c.trimmed request.ext url) (c.isComplete asked) = .ok (some captures) →
    c.Segmented parts → c.parameterDelimiter c.options = .str [c.config.delimiter] →
    (∀ name v, (name, some v) ∈ captures → Text.occursIn [c.config.delimiter] v = false) →
    c.Consumption parts captures (c.trimmed request.ext url) consumed rest →
    d.vars = c.varsWith captures (Text.splitOn [c.config.delimiter] rest).tail := by
  intro h
  have hreachable : Table.blogRule.Reachable := ⟨_, by decide, rfl⟩
  have hlost : (((Action.checkRule 1 (.bare "GET" "/") "blog/page/2" false false).answer?
      Table.blogRule).join.map fun d ↦ (d.vars.named? "page").isNone) = some true := by
    decide +kernel
  obtain ⟨d, hd, hnone⟩ := Option.map_eq_some_iff.mp hlost
  obtain ⟨s, hd⟩ := Action.exists_run_of_answer? (Option.join_eq_some_iff.mp hd)
  obtain ⟨hanswer, -⟩ := (Action.checkRule_answers hreachable.sound _ _ _ _ _).run_ok hd
  obtain ⟨-, c, captures, hat, hcaptures, -⟩ := Table.decisionAt_eq_some hanswer
  obtain rfl := Table.captures_eq [("id".toList, none)] hat hcaptures
    (by decide +kernel)
  obtain ⟨c', hin, hsegmented, hmark, hconsumption⟩ := Table.consumption_blogRule
  have hpage : ((Table.blogRule.inEffect? 1).map fun c ↦ ((c.varsWith [("id".toList, none)]
      (Text.splitOn [c.config.delimiter] "/page/2").tail).named? "page").isNone) =
        some false := by
    decide +kernel
  obtain rfl : c' = c := Option.some.inj (hin.symm.trans (Table.inEffect?_of_ruleAt hat))
  have hvars := h _ _ _ _ _ _ _ d c' _ _ _ _ hreachable hd hat hcaptures hsegmented hmark
    (fun name v hmem ↦ by cases List.mem_singleton.mp hmem) hconsumption
  rw [hin, Option.map_some, ← hvars, hnone] at hpage
  cases hpage

end UrlRouting

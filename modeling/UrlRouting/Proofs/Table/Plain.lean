import UrlRouting.Proofs.Template.Parsed
import UrlRouting.Proofs.Text.Delimit
import UrlRouting.Proofs.Value.Entries
import UrlRouting.Table.CompiledRule

/-!
Compiled rules with a plain rule string: word characters, slashes, hyphens and variables. Their
paths are written in gathered parts (`path_eq`). Where the variables have patterns of the known
kinds, compiling either gives the tree of the parts or finds the names of the variables unfit
(`regex_eq`).
-/

namespace UrlRouting

open Template Template.Part

namespace Template

variable {d c : Char} {parts : List Part} {name : Text} {f : Char → Char}

/-- The parts of a path, between slashes: a slash before the parts of the rule, of which the slashes
at the end may be dropped. -/
def pathParts (dropEnd : Bool) (parts : List Part) : List Part :=
  if parts = [literal '/'] then parts
  else gather (isSeparator ['/']) (literal '/' ::
    if dropEnd then parts.rdropWhile (isLiteral (· == '/')) else parts)

/-- The parts of a path between other delimiters. -/
def delimited (d : Char) (parts : List Part) : List Part := parts.map (Part.map (delimit d))

theorem delimited_slash (parts : List Part) : delimited '/' parts = parts := by
  have hmap : Part.map (delimit '/') = id := by
    funext part
    rw [delimit_slash_eq_id]
    cases part with
    | literal c => rfl
    | slot lead name optional => cases lead <;> rfl
  rw [delimited, hmap, List.map_id]

theorem isPlain_pathParts (dropEnd : Bool)
    (h : ∀ part ∈ parts, part.isPlain (isSeparator ['/']) = true) :
    ∀ part ∈ pathParts dropEnd parts, part.isPlain (isSeparator ['/']) = true := by
  rw [pathParts]
  split
  · exact h
  · refine isPlain_gather (List.forall_mem_cons.mpr ⟨by decide, ?_⟩)
    split
    · exact fun part hmem ↦ h part ((List.rdropWhile_prefix _ _).subset hmem)
    · exact h

theorem gathered_pathParts (dropEnd : Bool) (parts : List Part) :
    Gathered (isSeparator ['/']) (pathParts dropEnd parts) := by
  rw [pathParts]
  split
  next h =>
    rw [h]
    exact Gathered.nil.cons_literal nofun
  next => exact gathered_gather _ _

theorem isSeparator_delimit (h : isSeparator ['/'] c = true) :
    isSeparator [d] (delimit d c) = true := by
  rcases isSeparator_singleton.mp h with rfl | rfl | rfl <;> simp [delimit, isSeparator]

theorem isPlain_delimited (h : ∀ part ∈ parts, part.isPlain (isSeparator ['/']) = true) :
    ∀ part ∈ delimited d parts, part.isPlain (isSeparator [d]) = true := by
  intro _ hmem
  obtain ⟨part, hpart, rfl⟩ := List.mem_map.mp hmem
  exact isPlain_map (fun c hc ↦ delimit_of_isWord hc) (fun c hc ↦ isSeparator_delimit hc)
    (h part hpart)

theorem gathered_delimited (hd : Config.isDelimiter d = true)
    (h : ∀ part ∈ parts, part.isPlain (isSeparator ['/']) = true)
    (hg : Gathered (isSeparator ['/']) parts) :
    Gathered (isSeparator [d]) (delimited d parts) :=
  hg.map (fun _ hc ↦ ⟨delimit_of_isWord hc, isSeparator_eq_false hd hc⟩) h

theorem written_delimited (h : ∀ part ∈ parts, part.isPlain (isSeparator ['/']) = true) :
    written (delimited d parts) = (written parts).map (delimit d) :=
  written_map (fun _ hc ↦ delimit_fixed hc) h

/-! ### Names -/

theorem names_append (parts more : List Part) : names (parts ++ more) = names parts ++ names more :=
  List.filterMap_append

theorem names_map (f : Char → Char) (parts : List Part) :
    names (parts.map (Part.map f)) = names parts := by
  rw [names, List.filterMap_map]
  congr 1
  funext part
  cases part <;> rfl

theorem names_settle (p : Char → Bool) (parts : List Part) :
    names (settle p parts) = names parts := by
  induction parts with
  | nil => rfl
  | cons part rest ih =>
    cases part with
    | literal c => exact ih
    | slot lead name optional => exact congrArg (name :: ·) ih

theorem names_attach (separates : Char → Bool) (c : Char) (parts : List Part) :
    names (attach separates c parts) = names parts := by
  rw [attach.eq_def]
  split
  · split <;> rfl
  · rfl

theorem names_gather (separates : Char → Bool) (parts : List Part) :
    names (gather separates parts) = names parts := by
  induction parts with
  | nil => rfl
  | cons part rest ih =>
    cases part with
    | literal c => exact (names_attach separates c _).trans ih
    | slot lead name optional => exact congrArg (name :: ·) ih

theorem names_rdropWhile (p : Char → Bool) (parts : List Part) :
    names (parts.rdropWhile (isLiteral p)) = names parts := by
  induction parts using List.reverseRecOn with
  | nil => rfl
  | append_singleton parts part ih =>
    rw [List.rdropWhile_concat]
    split
    next hp =>
      cases part with
      | literal c => rw [ih, names_append]; simp [names, Part.name?]
      | slot lead name optional => cases hp
    next => rfl

theorem names_pathParts (dropEnd : Bool) (parts : List Part) :
    names (pathParts dropEnd parts) = names parts := by
  rw [pathParts]
  split
  · rfl
  · rw [names_gather]
    split
    · exact names_rdropWhile _ _
    · rfl

theorem names_standing (d : Char) (dropEnd : Bool) (parts : List Part) :
    names (standing d dropEnd parts) = names parts := by
  rw [standing]
  split
  · rfl
  · rw [names_append, names_settle, names_rdropWhile]
    split <;> simp [names, Part.name?]

theorem mem_names : name ∈ names parts ↔ ∃ lead optional, slot lead name optional ∈ parts := by
  rw [names, List.mem_filterMap]
  constructor
  · rintro ⟨part, hmem, hname⟩
    cases part with
    | literal c => cases hname
    | slot lead name' optional =>
      cases hname
      exact ⟨lead, optional, hmem⟩
  · rintro ⟨lead, optional, hmem⟩
    exact ⟨_, hmem, rfl⟩

theorem variableNames_written (hd : Config.isDelimiter d = true)
    (h : ∀ part ∈ parts, part.isPlain (isSeparator [d]) = true)
    (hg : Gathered (isSeparator [d]) parts) :
    variableNames [d] (tokens [d] (written parts)) = names parts := by
  have hslots := congrArg (List.map fun entry ↦ entry.2.name) (placeholders_tokens hd h hg)
  rw [placeholders, List.map_filterMap, List.map_filterMap] at hslots
  simp only [Option.map_map] at hslots
  rw [variableNames, List.map_filterMap, names]
  refine hslots.trans ?_
  congr 1
  funext part
  cases part <;> rfl

theorem isPlain_standing (d : Char) (dropEnd : Bool) {separates : Char → Bool}
    (hd : separates d = true) (h : ∀ part ∈ parts, part.isPlain separates = true) :
    ∀ part ∈ standing d dropEnd parts, part.isPlain separates = true := by
  rw [standing]
  split
  · exact h
  · intro part hmem
    rcases List.mem_append.mp hmem with hmem | hmem
    · exact isPlain_settle (fun part hmem ↦ h part ((List.rdropWhile_prefix _ _).subset hmem))
        part hmem
    · split at hmem
      · rw [List.mem_singleton.mp hmem, isPlain, hd, Bool.or_true]
      · cases hmem

/-! ### Patterns -/

theorem lookup_ofMapping {m : Mapping} {given : Option Text}
    (h : m.named? name = given.map Value.str) : (Patterns.ofMapping m).lookup name = given := by
  rw [Patterns.ofMapping]
  induction m with
  | nil =>
    cases given with
    | none => rfl
    | some p => cases h
  | cons entry rest ih =>
    obtain ⟨key, value⟩ := entry
    rw [Entries.named?, Entries.get?] at h
    split at h
    next hkey =>
      rw [Value.same_str_iff.mp hkey]
      cases given with
      | none => cases h
      | some p =>
        cases h
        simp
    next hkey =>
      rw [← ih h, List.filterMap_cons]
      split
      next hnone => rfl
      next entry hsome =>
        cases key with
        | str n =>
          cases value with
          | str p =>
            cases hsome
            have hne : (name == n) = false := by
              refine beq_false_of_ne ?_
              rintro rfl
              exact hkey (Value.same_str_iff.mpr rfl)
            rw [List.lookup_cons, hne]
          | _ => cases hsome
        | _ => cases hsome

theorem resolve_text {aliases : Patterns} {kind : Kind} {given : Text}
    (h : aliases.lookup given = some kind.text) : resolve aliases given = kind.text := by
  rw [resolve, h, Option.getD_some]
  cases kind <;> decide

theorem named?_builtIn {kind : Kind} {given : Text} (h : kind.name? = some given) :
    builtIn.named? given = some (.str kind.text) := by
  cases kind <;> cases h <;> rfl

end Template

namespace CompiledRule

variable {c : CompiledRule} {parts : List Part} {kind : Text → Kind}

/-- The rule string is written in plain parts. -/
structure Plain (c : CompiledRule) (parts : List Part) : Prop where
  text : c.text = written parts
  isPlain : ∀ part ∈ parts, part.isPlain (isSeparator ['/']) = true

/-- The parts of the path of a rule. -/
def pathParts (c : CompiledRule) (parts : List Part) : List Part :=
  delimited c.config.delimiter (Template.pathParts c.dropsEnd parts)

theorem names_pathParts (c : CompiledRule) (parts : List Part) :
    names (c.pathParts parts) = names parts := by
  rw [pathParts, delimited, names_map, Template.names_pathParts]

theorem exists_slot (c : CompiledRule) (hnames : names parts ≠ []) :
    ∃ lead name optional, slot lead name optional ∈ c.pathParts parts := by
  obtain ⟨name, hname⟩ := List.exists_mem_of_ne_nil _ hnames
  rw [← c.names_pathParts] at hname
  obtain ⟨lead, optional, hslot⟩ := mem_names.mp hname
  exact ⟨lead, name, optional, hslot⟩

namespace Plain

variable (h : c.Plain parts)

include h

theorem isPlain_pathParts : ∀ part ∈ c.pathParts parts,
    part.isPlain (isSeparator [c.config.delimiter]) = true :=
  isPlain_delimited (Template.isPlain_pathParts c.dropsEnd h.isPlain)

theorem gathered_pathParts :
    Gathered (isSeparator [c.config.delimiter]) (c.pathParts parts) :=
  gathered_delimited c.config.isDelimiter_delimiter
    (Template.isPlain_pathParts c.dropsEnd h.isPlain) (Template.gathered_pathParts c.dropsEnd parts)

theorem path_eq : c.path = written (c.pathParts parts) := by
  rw [CompiledRule.pathParts, written_delimited (Template.isPlain_pathParts c.dropsEnd h.isPlain),
    CompiledRule.path, Template.pathParts, Config.delimiterText, h.text]
  by_cases hone : parts = [literal '/']
  · rw [if_pos ((written_eq_singleton (by decide)).mpr hone), if_pos hone, hone]
    simp [written, Part.text]
  · rw [if_neg (mt (written_eq_singleton (by decide)).mp hone), if_neg hone, written_gather,
      written_cons, ← replaceChar_eq_map]
    dsimp only
    split
    next => rw [trimRight_written (by decide)]; rfl
    next => rfl

theorem tokens_eq : c.tokens =
    Template.tokens [c.config.delimiter] (written (c.pathParts parts)) := by
  rw [CompiledRule.tokens, h.path_eq, Config.delimiterText]

theorem variableNames_eq : variableNames [c.config.delimiter] c.tokens = names parts := by
  rw [h.tokens_eq, variableNames_written c.config.isDelimiter_delimiter h.isPlain_pathParts
    h.gathered_pathParts, c.names_pathParts]

theorem mem_path (hnames : names parts ≠ []) : '<' ∈ c.path := by
  obtain ⟨lead, name, optional, hslot⟩ := c.exists_slot hnames
  rw [h.path_eq]
  exact List.mem_flatMap.mpr ⟨_, hslot, List.mem_append_right _ List.mem_cons_self⟩

end Plain

/-- The rule string is written in plain parts, and its variables have patterns of known kinds. -/
structure Known (c : CompiledRule) (parts : List Part) (kind : Text → Kind) : Prop
    extends c.Plain parts where
  patterns : ∀ name ∈ names parts, c.patterns.named? name = (kind name).name?.map Value.str
  aliases : ∀ name ∈ names parts, ∀ given, (kind name).name? = some given →
    c.aliases.named? given = some (.str (kind name).text)
  fallback : c.config.fallback = defaultPattern

/-- The parts that the expression of a rule consists of. -/
def standing (c : CompiledRule) (parts : List Part) : List Part :=
  Template.standing c.config.delimiter c.dropsEnd (c.pathParts parts)

namespace Known

variable (h : c.Known parts kind)

include h

theorem expression_eq (complete : Bool) : ∃ s : Setting,
    s.delimiter = [c.config.delimiter] ∧ s.ending = [] ∧
    (∀ name ∈ names parts, s.inner name = (kind name).text) ∧
    c.expression complete = .ok ('^' :: ((c.standing parts).flatMap s.fragment ++
      if complete then ['$'] else [])) := by
  let s : Setting :=
    { c.setting with patterns := .ofMapping c.patterns, aliases := .ofMapping c.aliases }
  have hinner : ∀ name ∈ names parts, s.inner name = (kind name).text := by
    intro name hmem
    have hlookup : (Patterns.ofMapping c.patterns).lookup name = (kind name).name? :=
      lookup_ofMapping (h.patterns name hmem)
    rw [Setting.inner, hlookup]
    cases hk : (kind name).name? with
    | some given =>
      change resolve (.ofMapping c.aliases) given = _
      have hgiven : (Patterns.ofMapping c.aliases).lookup given = some (kind name).text :=
        lookup_ofMapping (h.aliases name hmem given hk)
      exact resolve_text hgiven
    | none =>
      have hany : kind name = .any := by
        cases hname : kind name <;> rw [hname] at hk <;> first | rfl | cases hk
      rw [hany]
      exact h.fallback
  have hmaps : c.setting.withMaps c.patterns c.aliases c.tokens = .ok s := by
    rw [Setting.withMaps, if_pos]
    refine List.all_eq_true.mpr fun name hmem ↦ ?_
    rw [CompiledRule.setting, Config.delimiterText, h.variableNames_eq] at hmem
    rw [hasText, isText, h.patterns name hmem]
    cases hk : (kind name).name? with
    | some given =>
      change isText c.aliases given = true
      rw [isText, h.aliases name hmem given hk]
      rfl
    | none => rfl
  refine ⟨s, rfl, rfl, hinner, ?_⟩
  rw [CompiledRule.expression, hmaps, Except.map, h.path_eq, h.tokens_eq,
    expression_written rfl c.config.isDelimiter_delimiter ?_ h.isPlain_pathParts
      h.gathered_pathParts]
  · rfl
  · intro lead name optional hmem
    have hname : name ∈ names parts := by
      rw [← c.names_pathParts]
      exact mem_names.mpr ⟨lead, optional, hmem⟩
    rw [hinner name hname]
    exact (kind name).not_mem_text

/-- The tree of the parts, or the fault that the names of the variables are unfit. -/
theorem regex_eq (complete : Bool) : c.regex complete =
    if WellNamed (names parts) then
      .ok (treeOf c.ignoresCase kind complete (c.standing parts))
    else .error (.badPattern c.text) := by
  obtain ⟨s, hdelimiter, hending, hinner, hexpression⟩ := h.expression_eq complete
  have hnames : names (c.standing parts) = names parts := by
    rw [CompiledRule.standing, names_standing, c.names_pathParts]
  have hplain : ∀ part ∈ c.standing parts,
      part.isPlain (isSeparator [c.config.delimiter]) = true :=
    isPlain_standing _ _ (by simp [isSeparator]) h.isPlain_pathParts
  have hparse := parse_fragments hdelimiter c.config.isDelimiter_delimiter hending
    (hnames ▸ hinner) hplain c.ignoresCase complete
  rw [CompiledRule.regex, hexpression]
  change c.read _ = _
  rw [CompiledRule.read, hparse, hnames]
  by_cases hwell : WellNamed (names parts)
  · rw [if_pos hwell, if_pos hwell]
  · rw [if_neg hwell, if_neg hwell]

end Known

end CompiledRule

end UrlRouting

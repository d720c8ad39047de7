import UrlRouting.Proofs.Table.Delimiter
import UrlRouting.Proofs.Table.Prefix
import UrlRouting.Proofs.Table.Segments
import UrlRouting.Proofs.Template.Trailing
import UrlRouting.Proofs.Text.SmallForms

/-!
Rules of words, with and without an optional variable behind them. The path without the variable is
compared with the URL, the other one is an expression: it accepts at least what the comparison does,
and more where the URL goes on behind the words, since nothing asks it for a delimiter there
(`Precedes.capture_of_words`).
-/

namespace UrlRouting

open Template Template.Part Text

namespace CompiledRule

variable {c c' : CompiledRule} {lead name t url : Text} {kind : Kind} {complete : Bool}

/-- The rule string is made of words with slashes between them. -/
structure IsWords (c : CompiledRule) : Prop where
  chars : ∀ x ∈ c.text, Text.isWord x = true ∨ x = '/'
  last : ∃ front z, c.text = front ++ [z] ∧ Text.isWord z = true

/-- The second text begins with characters that match those of the first one, and has the same
small letters there; the third one is the rest, of which a complete match leaves at most a line
feed. -/
structure Stands (t whole rest : Text) (complete : Bool) : Prop where
  lower_prefix : lower t <+: lower whole
  fits : ∃ front, whole = front ++ rest ∧ List.Forall₂ (fun x c ↦ x ∈ caseVariants c) t front
  closed : complete = true → rest = [] ∨ rest = ['\n']

/-- The second rule is the first one, made of words or the root, with an optional variable behind
it. Both are compiled alike, and the second one disregards case, as the first one does anyway. -/
structure Precedes (c c' : CompiledRule) (lead name : Text) (kind : Kind) : Prop where
  known : c'.Known (trailing lead none name) fun _ ↦ kind
  isIdentifier : Text.isIdentifier name = true
  ignoresCase : c'.ignoresCase = true
  config : c'.config = c.config
  dropsEnd : c'.dropsEnd = c.dropsEnd
  isComplete : ∀ asked, c'.isComplete asked = c.isComplete asked
  isPunctuation : IsPunctuation c.config.delimiter
  lead : c.IsWords ∧ lead = c.text ++ ['/'] ∨ c.IsRoot ∧ lead = []

/-- What a URL has behind as many characters as the path of the rule. -/
def remainder (c : CompiledRule) (url : Text) : Text :=
  (c.config.delimiter :: c.trimmed [] url).drop c.path.length

/-! ### Paths -/

theorem IsRoot.path_eq (h : c.IsRoot) : c.path = [c.config.delimiter] := by
  rw [path]
  split
  next => rfl
  next hslash =>
    rw [h.resolve_left hslash]
    cases c.dropsEnd <;> rfl

theorem IsRoot.acceptsLiterally_iff (h : c.IsRoot) (url : Text) (complete : Bool) :
    c.acceptsLiterally url complete = true ↔ url = [] := by
  rw [acceptsLiterally, matchesLiterally, h.path_eq, Config.delimiterText]
  cases url <;> simp

namespace IsWords

variable (h : c.IsWords)

include h

theorem text_ne_slash : c.text ≠ ['/'] := by
  obtain ⟨front, z, htext, hz⟩ := h.last
  intro hslash
  have hlast := congrArg List.getLast? (htext.symm.trans hslash)
  rw [List.getLast?_concat] at hlast
  rw [Option.some.inj hlast] at hz
  exact absurd hz (by decide)

theorem not_isRoot : ¬c.IsRoot := by
  obtain ⟨front, z, htext, -⟩ := h.last
  rintro (hslash | hnil)
  · exact h.text_ne_slash hslash
  · rw [hnil] at htext
    simp at htext

theorem path_eq : c.path = c.config.delimiter :: c.text.map (delimit c.config.delimiter) := by
  obtain ⟨front, z, htext, hz⟩ := h.last
  have hend : (z == '/') = false := by
    refine beq_false_of_ne ?_
    rintro rfl
    exact absurd hz (by decide)
  have htrim : trimRight (· == '/') c.text = c.text := by
    rw [htext]
    exact trimRight_append_cons (p := (· == '/')) hend front
  rw [path, if_neg h.text_ne_slash, htrim, ite_self, Config.delimiterText]
  exact congrArg (c.config.delimiter :: ·) (replaceChar_eq_map _ _)

/-- A path made of words has no characters but those of words and the delimiter. -/
theorem mem_path {x : Char} (hx : x ∈ c.path) :
    x ∈ c.text ∧ Text.isWord x = true ∨ x = c.config.delimiter := by
  rw [h.path_eq] at hx
  rcases List.mem_cons.mp hx with rfl | hx
  · exact .inr rfl
  · obtain ⟨y, hy, rfl⟩ := List.mem_map.mp hx
    rcases h.chars y hy with hword | rfl
    · rw [delimit_of_isWord hword]
      exact .inl ⟨hy, hword⟩
    · exact .inr (delimit_slash _)

theorem not_mem_path {x : Char} (hx : Text.isWord x = false ∨ x ∉ c.text)
    (hd : x ≠ c.config.delimiter) : x ∉ c.path := by
  intro hmem
  rcases h.mem_path hmem with ⟨htext, hword⟩ | he
  · rcases hx with hx | hx
    · rw [hx] at hword
      cases hword
    · exact hx htext
  · exact hd he

theorem acceptsLiterally_iff : c.acceptsLiterally url complete = true ↔
    lower c.path = lower (c.config.delimiter :: url) ∨ complete = false ∧
      lower (c.path ++ [c.config.delimiter]) <+:
        lower (c.config.delimiter :: url ++ [c.config.delimiter]) := by
  have hroot : (c.path == c.config.delimiterText) = false := by
    obtain ⟨front, z, htext, -⟩ := h.last
    refine beq_false_of_ne ?_
    rw [h.path_eq, htext, Config.delimiterText]
    simp
  rw [acceptsLiterally, hroot, Bool.false_and, Bool.not_false, Bool.true_and, matchesLiterally,
    Bool.or_eq_true, beq_iff_eq, Bool.and_eq_true, startsWith_iff, Bool.not_eq_true']
  exact Iff.rfl

section Capital

variable (hd : IsPunctuation c.config.delimiter) (hcapital : 'İ' ∉ c.text)

include hd hcapital

theorem not_mem_path_of_not_mem_text : 'İ' ∉ c.path ∧ '\u0307' ∉ c.path := by
  refine ⟨h.not_mem_path (.inr hcapital) ?_, h.not_mem_path (.inl (by decide +kernel)) ?_⟩
  · exact fun he ↦ absurd (he ▸ hd) (by decide)
  · exact fun he ↦ absurd (he ▸ hd) (by decide)

/-- What the comparison accepts begins with characters that match those of the path. -/
theorem exists_stands (haccepts : c.acceptsLiterally url complete = true) :
    ∃ rest, Stands c.path (c.config.delimiter :: url) rest complete := by
  obtain ⟨hpath, hdot⟩ := h.not_mem_path_of_not_mem_text hd hcapital
  rcases h.acceptsLiterally_iff.mp haccepts with hsame | ⟨hpartial, hfirst⟩
  · refine ⟨[], hsame ▸ List.prefix_rfl, ⟨_, (List.append_nil _).symm, ?_⟩, fun _ ↦ .inl rfl⟩
    exact exists_forall₂_of_lower_eq hpath hdot hsame
  · have hconcat (t : Text) : lower (t ++ [c.config.delimiter]) = lower t ++ [c.config.delimiter] :=
      lowerAfter_concat hd [] t
    rw [hconcat, hconcat] at hfirst
    obtain ⟨front, rest, hwhole, hfront, -⟩ :=
      exists_forall₂_of_lowerAfter_prefix hd hpath hdot hfirst
    refine ⟨rest, ?_, ⟨front, hwhole, hfront⟩,
      fun hcomplete ↦ absurd (hpartial.symm.trans hcomplete) (by decide)⟩
    refine List.prefix_of_prefix_length_le ((List.prefix_append _ _).trans hfirst)
      (List.prefix_append _ _) ?_
    simpa using hfirst.length_le

/-- Where characters come first that match those of the path, the comparison asks what is left. -/
theorem acceptsLiterally_iff_of_stands {rest : Text} (hurl : 'İ' ∉ url)
    (hstands : Stands c.path (c.config.delimiter :: url) rest complete) :
    rest = (c.config.delimiter :: url).drop c.path.length ∧
    (c.acceptsLiterally url complete = true ↔
      rest = [] ∨ complete = false ∧ rest.head? = some c.config.delimiter) := by
  obtain ⟨hpath, -⟩ := h.not_mem_path_of_not_mem_text hd hcapital
  obtain ⟨front, hwhole, hfront⟩ := hstands.fits
  have hlength := hfront.length_eq
  have hmem : 'İ' ∉ front := by
    intro hmem
    have hin : 'İ' ∈ c.config.delimiter :: url := hwhole ▸ List.mem_append_left rest hmem
    rcases List.mem_cons.mp hin with he | hin
    · exact absurd (he ▸ hd) (by decide)
    · exact hurl hin
  refine ⟨by rw [hwhole, hlength, List.drop_left], ?_⟩
  have hprefix := hstands.lower_prefix
  rw [hwhole] at hprefix
  obtain ⟨hsame, hfirst⟩ := lower_eq_iff_of_prefix hd hpath hmem hlength hprefix
  rw [h.acceptsLiterally_iff, hwhole, hsame, hfirst]
  constructor
  · rintro (hnil | ⟨hcomplete, hnil | hhead⟩)
    · exact .inl hnil
    · exact .inl hnil
    · exact .inr ⟨hcomplete, hhead⟩
  · rintro (hnil | ⟨hcomplete, hhead⟩)
    · exact .inl hnil
    · exact .inr ⟨hcomplete, .inr hhead⟩

end Capital

end IsWords

theorem trimmed_nil (c : CompiledRule) (url : Text) : c.trimmed [] url = c.withoutEnd url := by
  rw [trimmed_eq]
  exact if_pos (Bool.or_true _)

/-! ### The rule with the variable -/

namespace Precedes

variable (h : c.Precedes c' lead name kind)

include h

/-- The characters before the variable and its delimiter in the path. -/
theorem exists_front : ∃ t, '/' :: lead = t ++ ['/'] ∧
    (c.IsWords → t.map (delimit c.config.delimiter) = c.path) ∧ (c.IsRoot → t = []) := by
  rcases h.lead with ⟨hwords, rfl⟩ | ⟨hroot, rfl⟩
  · refine ⟨'/' :: c.text, rfl, fun _ ↦ ?_, fun hroot ↦ absurd hroot hwords.not_isRoot⟩
    rw [hwords.path_eq]
    exact congrArg (· :: _) (delimit_slash _)
  · exact ⟨[], rfl, fun hwords ↦ absurd hroot hwords.not_isRoot, fun _ ↦ rfl⟩

theorem pathParts_eq (ht : '/' :: lead = t ++ ['/']) : c'.pathParts (trailing lead none name) =
    trailing (t.map (delimit c.config.delimiter)) (some c.config.delimiter) name := by
  rw [pathParts, h.config, pathParts_trailing ht, delimited_trailing]

theorem regex_eq (ht : '/' :: lead = t ++ ['/']) (complete : Bool) : c'.regex complete =
    .ok (treeOf true (fun _ ↦ kind) complete
      (trailing (t.map (delimit c.config.delimiter)) (some c.config.delimiter) name)) := by
  have hwell : Template.WellNamed (names (trailing lead none name)) := by
    rw [names_trailing]
    exact ⟨by simp, by simpa using h.isIdentifier⟩
  rw [h.known.regex_eq, if_pos hwell, h.ignoresCase, standing, h.pathParts_eq ht,
    standing_trailing]

theorem head_eq (ht : '/' :: lead = t ++ ['/']) :
    c'.head = t.map (delimit c.config.delimiter) := by
  have hplain := h.known.toPlain
  rw [head, Config.delimiterText, hplain.path_eq, literalHead_written
    c'.config.isDelimiter_delimiter hplain.isPlain_pathParts hplain.gathered_pathParts,
    h.pathParts_eq ht, takeWhile_trailing]

theorem capture_eq (ht : '/' :: lead = t ++ ['/']) (url : Text) (complete : Bool) :
    ∃ found : Option (Option Text),
      c'.capture url complete = .ok (found.map fun value ↦ [(name, value)]) ∧
      (∀ rest, Stands (t.map (delimit c.config.delimiter)) (c.config.delimiter :: url) rest
        complete → found ≠ none) ∧
      (found = some none → ∃ rest, Stands (t.map (delimit c.config.delimiter))
        (c.config.delimiter :: url) rest complete) := by
  have hpath : '<' ∈ c'.path := by
    refine h.known.mem_path ?_
    rw [names_trailing]
    exact List.cons_ne_nil _ _
  have hfits (t front : Text) : Template.Fits true t front ↔
      List.Forall₂ (fun x c ↦ x ∈ caseVariants c) t front := by
    simp only [Template.Fits, contains_single, if_true]
  obtain ⟨found, hcaptures, hsome, habsent⟩ := exists_captures true complete (fun _ ↦ kind)
    (t.map (delimit c.config.delimiter)) (some c.config.delimiter) name
    (c.config.delimiter :: url)
  rw [capture_eq_ite hpath (h.regex_eq ht complete), h.head_eq ht, captured, h.config, hcaptures]
  split
  next hstart =>
    refine ⟨found, rfl, fun rest hrest ↦ ?_, fun hnone ↦ ?_⟩
    · obtain ⟨front, hwhole, hfront⟩ := hrest.fits
      exact hsome front rest hwhole ((hfits _ _).mpr hfront) hrest.closed
    · obtain ⟨front, rest, hwhole, hfront, hclosed⟩ := habsent hnone
      exact ⟨rest, startsWith_iff.mp hstart, ⟨front, hwhole, (hfits _ _).mp hfront⟩, hclosed⟩
  next hstart =>
    refine ⟨none, rfl, fun rest hrest ↦ absurd ?_ hstart, fun habsent ↦ ?_⟩
    · exact startsWith_iff.mpr hrest.lower_prefix
    · cases habsent

/-! ### Both rules -/

theorem not_mem_path : '<' ∉ c.path := by
  have hd : '<' ≠ c.config.delimiter := by
    intro he
    have hdelimiter := c.config.isDelimiter_delimiter
    rw [← he] at hdelimiter
    exact absurd hdelimiter (by decide)
  rcases h.lead with ⟨hwords, -⟩ | ⟨hroot, -⟩
  · exact hwords.not_mem_path (.inl (by decide)) hd
  · rw [hroot.path_eq, List.mem_singleton]
    exact hd

theorem withoutEnd_eq (url : Text) : c'.withoutEnd url =
    if c.dropsEnd then trimRight (· == c.config.delimiter) url else url := by
  have hne : (c'.text != ['/']) = true := by
    rw [bne_iff_ne, Ne, h.known.text, written_eq_singleton (by decide)]
    exact trailing_ne_singleton
  rw [withoutEnd, hne, h.dropsEnd, h.config, Bool.and_true]

theorem trimmed_eq_of_words (hwords : c.IsWords) (url : Text) :
    c'.trimmed [] url = c.trimmed [] url := by
  have hne : (c.text != ['/']) = true := bne_iff_ne.mpr hwords.text_ne_slash
  rw [trimmed_nil, trimmed_nil, h.withoutEnd_eq, withoutEnd, hne, Bool.and_true]

theorem capture_of_words (hwords : c.IsWords) (url : Text) (complete : Bool) :
    ∃ found : Option (Option Text),
    c'.capture url complete = .ok (found.map fun value ↦ [(name, value)]) ∧
    ('İ' ∉ c.text → (c.acceptsLiterally url complete = true → found ≠ none) ∧
      ('İ' ∉ url → found = some none → ∃ rest,
        rest = (c.config.delimiter :: url).drop c.path.length ∧
        (c.acceptsLiterally url complete = true ↔
          rest = [] ∨ complete = false ∧ rest.head? = some c.config.delimiter) ∧
        (complete = true → rest = [] ∨ rest = ['\n']))) := by
  obtain ⟨t, ht, hpath, -⟩ := h.exists_front
  obtain ⟨found, hcapture, hsome, habsent⟩ := h.capture_eq ht url complete
  rw [hpath hwords] at hsome habsent
  refine ⟨found, hcapture, fun hcapital ↦ ⟨fun haccepts ↦ ?_, fun hurl hnone ↦ ?_⟩⟩
  · obtain ⟨rest, hrest⟩ := hwords.exists_stands h.isPunctuation hcapital haccepts
    exact hsome rest hrest
  · obtain ⟨rest, hrest⟩ := habsent hnone
    obtain ⟨hremainder, haccepts⟩ :=
      hwords.acceptsLiterally_iff_of_stands h.isPunctuation hcapital hurl hrest
    exact ⟨rest, hremainder, haccepts, hrest.closed⟩

theorem capture_of_root (hroot : c.IsRoot) (url : Text) (complete : Bool) :
    ∃ found : Option (Option Text),
    c'.capture url complete = .ok (found.map fun value ↦ [(name, value)]) ∧
    (complete = false → found ≠ none) ∧ (complete = true → found ≠ some none) := by
  obtain ⟨t, ht, -, hnil⟩ := h.exists_front
  obtain ⟨found, hcapture, hsome, habsent⟩ := h.capture_eq ht url complete
  rw [hnil hroot] at hsome habsent
  refine ⟨found, hcapture, fun hpartial ↦ ?_, fun hcomplete hnone ↦ ?_⟩
  · refine hsome (c.config.delimiter :: url) ⟨List.nil_prefix, ⟨[], rfl, .nil⟩, fun hcomplete ↦ ?_⟩
    rw [hpartial] at hcomplete
    cases hcomplete
  · -- nothing is matched of the URL, but it begins with a delimiter
    obtain ⟨rest, hrest⟩ := habsent hnone
    obtain ⟨front, hwhole, hfront⟩ := hrest.fits
    cases hfront
    rcases hrest.closed hcomplete with rfl | rfl
    · cases hwhole
    · exact absurd ((List.cons.inj hwhole).1 ▸ h.isPunctuation) (by decide)

end Precedes

end CompiledRule

/-! ### Rules in a table -/

variable {t u : Table} {id id' : NodeId} {c c' : CompiledRule} {lead name : Text} {kind : Kind}

/-- A rule of words and the same rule with an optional variable behind it. What the first one
accepts, the second one accepts. What the second one accepts without a value for the variable, the
first one accepts if nothing is left of the URL behind the words, or else a delimiter comes next and
matches need not be complete; and of a complete match at most a line feed is left. The root accepts
the empty URL only. With a variable behind it, it accepts every URL, but if matches are to be
complete, none without a value. -/
theorem matchPath_optional (ht : t.Reachable) (hu : u.Reachable) (hat : t.ruleAt id = .ok c)
    (hat' : u.ruleAt id' = .ok c') (h : c.Precedes c' lead name kind) (url : Text) (asked : Bool) :
    ∃ (accepted : Bool) (found : Option (Option Text)),
      (Action.matchPath id url asked).outcome t = .ok (if accepted then some [] else none) ∧
      (Action.matchPath id' url asked).outcome u =
        .ok (found.map fun value ↦ [(name, value)]) ∧
      (c.IsWords → 'İ' ∉ c.text →
        (accepted = true → found ≠ none) ∧
        ('İ' ∉ url → found = some none →
          (accepted = true ↔ c.remainder url = [] ∨ c.isComplete asked = false ∧
            (c.remainder url).head? = some c.config.delimiter) ∧
          (c.isComplete asked = true → c.remainder url = [] ∨ c.remainder url = ['\n']))) ∧
      (c.IsRoot →
        (accepted = true ↔ c.trimmed [] url = []) ∧
        (c.isComplete asked = false → found ≠ none) ∧
        (c.isComplete asked = true → found ≠ some none)) := by
  rw [(Action.matchPath_answers ht.sound id url asked).outcome_eq,
    (Action.matchPath_answers hu.sound id' url asked).outcome_eq, Table.capturesAt,
    Table.capturesAt, hat, hat']
  change ∃ accepted found, c.capture (c.trimmed [] url) (c.isComplete asked) = _ ∧
    c'.capture (c'.trimmed [] url) (c'.isComplete asked) = _ ∧ _
  rw [h.isComplete, c.capture_of_not_mem_path h.not_mem_path]
  rcases h.lead with ⟨hwords, -⟩ | ⟨hroot, -⟩
  · obtain ⟨found, hcapture, hfound⟩ :=
      h.capture_of_words hwords (c.trimmed [] url) (c.isComplete asked)
    refine ⟨_, found, rfl, ?_, fun _ hcapital ↦ ⟨(hfound hcapital).1, fun hurl hnone ↦ ?_⟩,
      fun hroot ↦ absurd hroot hwords.not_isRoot⟩
    · rw [h.trimmed_eq_of_words hwords, hcapture]
    · obtain ⟨rest, rfl, hrest⟩ :=
        (hfound hcapital).2 (fun hmem ↦ hurl (CompiledRule.mem_of_mem_trimmed hmem)) hnone
      exact hrest
  · obtain ⟨found, hcapture, hpartial, hcomplete⟩ :=
      h.capture_of_root hroot (c'.trimmed [] url) (c.isComplete asked)
    exact ⟨_, found, rfl, hcapture, fun hwords ↦ absurd hroot hwords.not_isRoot,
      fun _ ↦ ⟨hroot.acceptsLiterally_iff _ _, hpartial, hcomplete⟩⟩

/-- A word, and the same word with an optional variable behind it. -/
def Table.entryRules : Table := empty.afterAll
  [.addRouter [],
    .routeOn 0 { rule := "blog", target := "x",
                 options := [(.str "case_sensitive", .bool false)] },
    .routeOn 0 { rule := "blog/<v?>", target := "x",
                 options := [(.str "case_sensitive", .bool false)] }]

namespace Table

theorem reachable_entryRules : entryRules.Reachable := ⟨_, by decide, rfl⟩

theorem inEffect?_entryRules : ∃ c c', entryRules.inEffect? 1 = some c ∧
    entryRules.inEffect? 2 = some c' ∧ c.Precedes c' "blog/" "v" .any ∧ c.IsWords ∧
    'İ' ∉ c.text ∧ c.isComplete false = false ∧ c.config.delimiter = '/' ∧
    c.remainder "blogger" = "ger".toList := by
  have hwords {c : CompiledRule} (htext : c.text = "blog".toList) : c.IsWords := by
    refine ⟨?_, "blo".toList, 'g', htext, by decide⟩
    rw [htext]
    decide
  refine ⟨_, _, rfl, rfl, ⟨⟨⟨rfl, by decide⟩, ?_, ?_, rfl⟩, by decide +kernel, rfl, rfl, rfl,
    fun _ ↦ rfl, by decide, .inl ⟨hwords rfl, rfl⟩⟩, hwords rfl, by decide, rfl, rfl,
    by decide +kernel⟩
  · intro name hname
    obtain rfl := List.mem_singleton.mp hname
    rfl
  · intro name _ given hgiven
    cases hgiven

theorem ruleAt_entryRules : ∃ c c', entryRules.ruleAt 1 = .ok c ∧ entryRules.ruleAt 2 = .ok c' ∧
    c.Precedes c' "blog/" "v" .any ∧ c.IsWords ∧ 'İ' ∉ c.text ∧ c.isComplete false = false ∧
    c.config.delimiter = '/' ∧ c.remainder "blogger" = "ger".toList := by
  obtain ⟨c, c', hin, hin', hfacts⟩ := inEffect?_entryRules
  exact ⟨c, c', ruleAt_of_inEffect? hin (by decide +kernel),
    ruleAt_of_inEffect? hin' (by decide +kernel), hfacts⟩

theorem outcome_entryRules : (Action.matchPath 2 "blogger" false).outcome entryRules =
    .ok (some [("v".toList, none)]) :=
  Action.outcome_of_answer? (by decide +kernel)

end Table

/-- A URL that only begins with the letters of the word is refused by the rule without the
variable. -/
theorem matchPath_optional_entryRules :
    (Action.matchPath 1 "blogger" false).outcome Table.entryRules = .ok none ∧
    (Action.matchPath 2 "blogger" false).outcome Table.entryRules =
      .ok (some [("v".toList, none)]) := by
  obtain ⟨c, c', hat, hat', hprecedes, hwords, hcapital, hpartial, hdelimiter, hrest⟩ :=
    Table.ruleAt_entryRules
  obtain ⟨accepted, found, houtcome, houtcome', hfound, -⟩ := matchPath_optional
    Table.reachable_entryRules Table.reachable_entryRules hat hat' hprecedes "blogger" false
  rw [Table.outcome_entryRules] at houtcome'
  have hnone : found = some none := by
    cases found with
    | none => cases houtcome'
    | some value =>
      cases houtcome'
      rfl
  obtain ⟨haccepts, -⟩ := (hfound hwords hcapital).2 (by decide) hnone
  rw [hrest, hdelimiter] at haccepts
  have hrefused : accepted = false := by
    refine Bool.eq_false_iff.mpr (mt haccepts.mp ?_)
    rintro (hnil | ⟨-, hslash⟩)
    · cases hnil
    · exact absurd hslash (by decide)
  rw [hrefused] at houtcome
  exact ⟨houtcome, Table.outcome_entryRules⟩

/-- Without a value for its variable, a rule does not accept the URLs that it would accept if the
variable were not there. -/
theorem not_forall_accepted_without : ¬∀ (t u : Table) (id id' : NodeId) (c c' : CompiledRule)
    (lead name url : Text) (kind : Kind) (asked : Bool), t.Reachable → u.Reachable →
    t.ruleAt id = .ok c → u.ruleAt id' = .ok c' → c.Precedes c' lead name kind →
    (Action.matchPath id' url asked).outcome u = .ok (some [(name, none)]) →
    (Action.matchPath id url asked).outcome t = .ok (some []) := by
  intro h
  obtain ⟨c, c', hat, hat', hprecedes, -⟩ := Table.ruleAt_entryRules
  have hrefused : (Action.matchPath 1 "blogger" false).outcome Table.entryRules = .ok none :=
    Action.outcome_of_answer? (by decide +kernel)
  have haccepted := h _ _ 1 2 c c' _ _ "blogger" _ false Table.reachable_entryRules
    Table.reachable_entryRules hat hat' hprecedes Table.outcome_entryRules
  rw [hrefused] at haccepted
  cases haccepted

end UrlRouting

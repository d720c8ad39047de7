import UrlRouting.Proofs.Table.Reachable
import UrlRouting.Proofs.Template.Shape
import UrlRouting.Proofs.Text.Lower

/-!
Rules made of segments match what they render. The captures of a rendered URL are the values that it
was rendered with, and a URL that is captured from is what the captures render:
`matchPath_render`.
-/

namespace UrlRouting

open Template Template.Part

/-- The rule has the default configuration, no options and a rule string that is made of segments.
Each of its variables has a named pattern that is built in, or none. -/
structure CompiledRule.HasShape (c : CompiledRule) (s : Shape) (kind : Text → Kind) : Prop where
  config : c.config = {}
  options : c.options = []
  text : c.text = s.text
  valid : s.IsValid
  patterns : ∀ name ∈ s.names, c.patterns.named? name = (kind name).name?.map Value.str
  aliases : ∀ name ∈ s.names, ∀ given, (kind name).name? = some given →
    c.aliases.named? given = some (.str (kind name).text)

variable {c : CompiledRule} {s : Shape} {kind : Text → Kind} {values : Text → Option Text}
  {url : Text} {t : Table} {id : NodeId} {groups : Captures}

namespace Template

theorem fill_of_literals {parts : List Part} (values : Text → Option Text)
    (h : ∀ part ∈ parts, isLiteral (fun _ ↦ true) part = true) :
    fill values parts = written parts := by
  refine List.flatMap_congr fun part hmem ↦ ?_
  cases part with
  | literal c => rfl
  | slot lead name optional => cases h _ hmem

theorem Shape.literal_ne_sigma {lead : Option Char} {x : Char} (h : s.IsValid) (hlead : 'Σ' ∉ lead)
    (hmem : literal x ∈ s.parts lead) : x ≠ 'Σ' := by
  have hword {t : Text} {lead : Option Char} (ht : IsAsciiWord t) (hlead : 'Σ' ∉ lead)
      (hx : literal x ∈ (Segment.word t).parts lead) : x ≠ 'Σ' := by
    obtain ⟨y, hy, he⟩ := List.mem_map.mp hx
    obtain rfl := Part.literal.inj he
    rcases List.mem_append.mp hy with hy | hy
    · rintro rfl
      exact hlead (Option.mem_toList.mp hy)
    · rintro rfl
      exact absurd (ht.2 _ hy) (by decide)
  have hsegment (segment : Segment) (hs : segment ∈ s.first :: s.others) {lead : Option Char}
      (hlead : 'Σ' ∉ lead) (hx : literal x ∈ segment.parts lead) : x ≠ 'Σ' := by
    cases segment with
    | word t => exact hword (h.isAsciiWord hs) hlead hx
    | required name => cases List.mem_singleton.mp hx
  rw [Shape.parts, Shape.body, List.mem_append, List.mem_append, List.mem_append] at hmem
  rcases hmem with ((hmem | hmem) | hmem) | hmem
  · exact hsegment _ List.mem_cons_self hlead hmem
  · obtain ⟨segment, hs, hx⟩ := List.mem_flatMap.mp hmem
    exact hsegment segment (List.mem_cons_of_mem _ hs) (by decide) hx
  · obtain ⟨name, -, hname⟩ := List.mem_map.mp hmem
    cases hname
  · rw [Shape.slash] at hmem
    split at hmem
    · cases List.mem_singleton.mp hmem
      decide
    · cases hmem

end Template

namespace CompiledRule.HasShape

variable (h : c.HasShape s kind)

include h

theorem known : c.Known (s.parts none) kind where
  text := h.text.trans s.written_parts.symm
  isPlain := s.isPlain_parts h.valid none rfl
  patterns := s.names_parts none ▸ h.patterns
  aliases := s.names_parts none ▸ h.aliases
  fallback := by rw [h.config]

theorem dropsEnd_eq : c.dropsEnd = false := by
  rw [dropsEnd, h.options, h.config]
  rfl

theorem isComplete_eq (asked : Bool) : c.isComplete asked = asked := by
  rw [isComplete, h.options, h.config]
  exact Bool.or_false asked

theorem trimmed_eq (url : Text) : c.trimmed [] url = url := by
  rw [trimmed, h.dropsEnd_eq, h.options]
  rfl

theorem pathParts_eq : c.pathParts (s.parts none) = s.parts (some '/') := by
  rw [CompiledRule.pathParts, h.dropsEnd_eq, s.pathParts_parts h.valid, h.config]
  exact delimited_slash _

theorem path_eq : c.path = written (s.parts (some '/')) := by
  rw [h.known.path_eq, h.pathParts_eq]

theorem regex_eq (complete : Bool) :
    c.regex complete = .ok (treeOf false kind complete (s.parts (some '/'))) := by
  have hwell : WellNamed (names (s.parts none)) := by
    rw [s.names_parts]
    exact ⟨h.valid.nodup, fun name hname ↦ (h.valid.name name hname).2⟩
  have hcase : c.ignoresCase = false := by
    rw [ignoresCase, h.options]
    rfl
  have hstanding : c.standing (s.parts none) = s.parts (some '/') := by
    rw [CompiledRule.standing, h.pathParts_eq, h.dropsEnd_eq, h.config]
    exact s.standing_parts h.valid
  rw [h.known.regex_eq, if_pos hwell, hcase, hstanding]

/-- The text before the first variable is all that the rule compares before it matches. -/
theorem decided?_eq (url : Text) (complete : Bool) : c.decided? url complete =
    if Text.startsWith (Text.lower ('/' :: url))
      (Text.lower (written ((s.parts (some '/')).takeWhile (isLiteral fun _ ↦ true)))) then none
    else some none := by
  have hplain := s.isPlain_parts h.valid (some '/') rfl
  have hdelimiter : c.config.delimiter = '/' := by rw [h.config]
  have hgathered : Gathered (isSeparator ['/']) (s.parts (some '/')) := by
    rw [← s.pathParts_parts h.valid]
    exact gathered_pathParts false (s.parts none)
  have hpath : (c.path == c.config.delimiterText) = false := by
    rw [h.path_eq, Config.delimiterText, hdelimiter, beq_eq_false_iff_ne]
    exact mt (written_eq_singleton (by decide)).mp (s.parts_ne_slash h.valid (some '/'))
  have hbracket : c.path.contains '<' = true := by
    refine List.contains_iff_mem.mpr (h.known.mem_path ?_)
    rw [s.names_parts]
    exact h.valid.names_ne_nil
  have hhead : Template.literalHead c.config.delimiterText c.path =
      written ((s.parts (some '/')).takeWhile (isLiteral fun _ ↦ true)) := by
    rw [h.path_eq, Config.delimiterText, hdelimiter]
    exact literalHead_written (by decide) hplain hgathered
  rw [decided?, hpath, hbracket, hhead, hdelimiter]
  rfl

theorem capture_render (hvalues : s.Assigns kind values) :
    c.capture (s.render values) true = .ok (some (s.names.map fun name ↦ (name, values name))) := by
  have hfill : fill values (s.parts (some '/')) = '/' :: s.render values := by
    refine s.fill_parts fun name hname ↦ ?_
    obtain ⟨v, hv, -⟩ := hvalues.required name hname
    rw [hv]
    rfl
  have hprefix : Text.startsWith (Text.lower ('/' :: s.render values))
      (Text.lower (written ((s.parts (some '/')).takeWhile (isLiteral fun _ ↦ true)))) = true := by
    have hliteral : ∀ part ∈ (s.parts (some '/')).takeWhile (isLiteral fun _ ↦ true),
        isLiteral (fun _ ↦ true) part = true := fun part hmem ↦ List.mem_takeWhile_imp hmem
    rw [Text.startsWith_iff, ← hfill,
      ← List.takeWhile_append_dropWhile (l := s.parts (some '/')) (p := isLiteral fun _ ↦ true),
      fill_append, List.takeWhile_append_dropWhile, fill_of_literals values hliteral]
    refine Text.lower_prefix ?_ _
    intro hmem
    obtain ⟨part, hpart, hsigma⟩ := List.mem_flatMap.mp hmem
    cases part with
    | literal x =>
      refine s.literal_ne_sigma h.valid (by decide) ((List.takeWhile_prefix _).subset hpart) ?_
      exact (List.mem_singleton.mp hsigma).symm
    | slot lead name optional => cases hliteral _ hpart
  have hcaptured : c.captured (treeOf false kind true (s.parts (some '/'))) (s.render values) =
      some (s.names.map fun name ↦ (name, values name)) := by
    have hdelimiter : c.config.delimiter = '/' := by rw [h.config]
    rw [captured, hdelimiter, ← hfill, captures_fill true (s.legible_parts hvalues),
      s.names_parts]
  rw [capture, h.decided?_eq, if_pos hprefix, h.regex_eq]
  exact congrArg Except.ok hcaptured

theorem render_of_capture (hurl : '\n' ∉ url) (hcapture : c.capture url true = .ok (some groups)) :
    s.render groups.value = url := by
  have hcaptures : (treeOf false kind true (s.parts (some '/'))).captures? ('/' :: url) =
      some groups := by
    have hcaptured : c.captured (treeOf false kind true (s.parts (some '/'))) url =
        (treeOf false kind true (s.parts (some '/'))).captures? ('/' :: url) := by
      rw [captured, h.config]
    rw [capture, h.decided?_eq, h.regex_eq] at hcapture
    split at hcapture
    next outcome hdecided =>
      split at hdecided
      · cases hdecided
      · cases hdecided
        cases hcapture
    next =>
      rw [← hcaptured]
      exact Except.ok.inj hcapture
  have hnodup : (names (s.parts (some '/'))).Nodup := by
    rw [s.names_parts]
    exact h.valid.nodup
  obtain ⟨hrequired, -, hfilled⟩ := fill_of_captures hnodup hcaptures
  obtain ⟨rest, hrest, hclosed⟩ := hfilled rfl
  have hnil : rest = [] := by
    rcases hclosed rfl with hnil | rfl
    · exact hnil
    · have hmem : '\n' ∈ '/' :: url := hrest ▸ List.mem_append_right _ List.mem_cons_self
      rcases List.mem_cons.mp hmem with he | hmem
      · cases he
      · exact absurd hmem hurl
  have hvalues : ∀ name ∈ s.required, (groups.value name).isSome = true := fun name hname ↦
    hrequired (some '/') name (s.slot_mem_parts hname)
  rw [hnil, List.append_nil, s.fill_parts hvalues] at hrest
  exact (List.cons.inj hrest).2.symm

end CompiledRule.HasShape

theorem Table.ruleAt_of_hasShape (hin : t.inEffect? id = some c)
    (hkeys : t.namesAreKeys (t.lineage id) = true) (h : c.HasShape s kind) :
    t.ruleAt id = .ok c := by
  rw [ruleAt, hin]
  dsimp only
  rw [hkeys, h.regex_eq]
  split <;> rfl

/-- Of a rule that is made of segments, a rendered URL is matched completely with the values that it
was rendered with, and a URL without line feeds that is matched completely is what the captured
values render. -/
theorem matchPath_render (ht : t.Reachable) (hin : t.inEffect? id = some c)
    (hkeys : t.namesAreKeys (t.lineage id) = true) (h : c.HasShape s kind) :
    (∀ values, s.Assigns kind values →
      (Action.matchPath id (s.render values) true).outcome t =
        .ok (some (s.names.map fun name ↦ (name, values name)))) ∧
    (∀ url groups, '\n' ∉ url → (Action.matchPath id url true).outcome t = .ok (some groups) →
      s.render groups.value = url) := by
  have hcaptures (url : Text) :
      (Action.matchPath id url true).outcome t = c.capture url true := by
    rw [(Action.matchPath_answers ht.sound id url true).outcome_eq, Table.capturesAt,
      Table.ruleAt_of_hasShape hin hkeys h]
    change c.capture (c.trimmed [] url) (c.isComplete true) = _
    rw [h.trimmed_eq, h.isComplete_eq]
  constructor
  · intro values hvalues
    rw [hcaptures, h.capture_render hvalues]
  · intro url groups hurl hgroups
    rw [hcaptures] at hgroups
    exact h.render_of_capture hurl hgroups

/-- A router with a rule of all kinds of segments. -/
def Table.libraryRouter : Table := empty.afterAll
  [.addRouter [],
    .routeOn 0
      { rule := "<shelf>/books/<id>/<page?>/<size?>/"
        target := "books/show"
        patterns := [("id", "int"), ("size", "float")] }]

namespace Template

def Shape.books : Shape where
  first := .required "shelf"
  others := [.word "books", .required "id"]
  optionals := ["page", "size"]
  closed := true

def Kind.ofBooks (name : Text) : Kind :=
  if name = "id".toList then int else if name = "size".toList then float else any

def valuesOfBooks (name : Text) : Option Text :=
  ([("shelf".toList, "art".toList), ("id", "42"), ("page", "a.1")] : List (Text × Text)).lookup name

theorem Shape.isValid_books : Shape.books.IsValid where
  word := by decide
  name := by decide
  nodup := by decide
  names_ne_nil := by decide

end Template

theorem Table.reachable_libraryRouter : libraryRouter.Reachable := ⟨_, by decide, rfl⟩

theorem Table.hasShape_libraryRule :
    ∃ c, libraryRouter.inEffect? 1 = some c ∧ c.HasShape Shape.books Kind.ofBooks :=
  ⟨_, rfl,
    { config := rfl
      options := rfl
      text := rfl
      valid := Shape.isValid_books
      patterns := List.forall_mem_cons.mpr ⟨rfl, List.forall_mem_cons.mpr ⟨rfl,
        List.forall_mem_cons.mpr ⟨rfl, List.forall_mem_cons.mpr ⟨rfl, nofun⟩⟩⟩⟩
      aliases := fun _ _ _ hgiven ↦ named?_builtIn hgiven }⟩

theorem Template.Shape.assigns_books : Shape.books.Assigns Kind.ofBooks valuesOfBooks where
  required := List.forall_mem_cons.mpr ⟨⟨_, rfl, by decide, by decide⟩,
    List.forall_mem_cons.mpr ⟨⟨_, rfl, by decide, by decide⟩, nofun⟩⟩
  optional := ⟨["page"], ["size"], rfl,
    List.forall_mem_cons.mpr ⟨⟨_, rfl, by decide, by decide⟩, nofun⟩,
    List.forall_mem_cons.mpr ⟨rfl, nofun⟩⟩

/-- A URL without the last optional variable is matched, and rendered again from its captures. -/
theorem matchPath_libraryRouter : ∃ c, Table.libraryRouter.Reachable ∧
    Table.libraryRouter.inEffect? 1 = some c ∧
    Table.libraryRouter.namesAreKeys (Table.libraryRouter.lineage 1) = true ∧
    c.HasShape Shape.books Kind.ofBooks ∧ Shape.books.Assigns Kind.ofBooks valuesOfBooks ∧
    Shape.books.render valuesOfBooks = "art/books/42/a.1/".toList ∧
    (Action.matchPath 1 "art/books/42/a.1/" true).outcome Table.libraryRouter =
      .ok (some [("shelf".toList, some "art".toList), ("id".toList, some "42".toList),
        ("page".toList, some "a.1".toList), ("size".toList, none)]) ∧
    '\n' ∉ "art/books/42/a.1/".toList ∧
    Shape.books.render (Captures.value [("shelf".toList, some "art".toList),
      ("id".toList, some "42".toList), ("page".toList, some "a.1".toList),
      ("size".toList, none)]) = "art/books/42/a.1/".toList := by
  obtain ⟨c, hin, hc⟩ := Table.hasShape_libraryRule
  have hkeys : Table.libraryRouter.namesAreKeys (Table.libraryRouter.lineage 1) = true := by
    decide
  obtain ⟨hrender, hcaptures⟩ := matchPath_render Table.reachable_libraryRouter hin hkeys hc
  have houtcome := hrender _ Shape.assigns_books
  have hurl : '\n' ∉ "art/books/42/a.1/".toList := by decide
  exact ⟨c, Table.reachable_libraryRouter, hin, hkeys, hc, Shape.assigns_books, rfl, houtcome, hurl,
    hcaptures _ _ hurl houtcome⟩

end UrlRouting

import UrlRouting.Proofs.Table.Plain

/-!
The names that patterns may go by. An expression depends on them only where a pattern in use is such
a name: `AgreeOn.map_expression`.
-/

namespace UrlRouting.Template

variable {s s' : Setting} {patterns aliases other : Mapping} {tokens : List Text} {name : Text}

theorem Setting.replacements_congr (hdelimiter : s'.delimiter = s.delimiter)
    (h : ∀ token ∈ tokens, s'.fragment? token = s.fragment? token) :
    s'.replacements tokens = s.replacements tokens := by
  rw [replacements, replacements, hdelimiter]
  refine congrArg (fun groups : Replacements ↦ if separator s.delimiter = s.delimiter ||
    (groups.lookup s.delimiter).isSome then groups
      else groups ++ [(s.delimiter, separator s.delimiter)]) (List.foldl_ext _ _ _ ?_)
  intro rs token hmem
  rw [h token hmem]

/-- The maps agree on all patterns in use. -/
def AgreeOn (patterns aliases other : Mapping) : Prop :=
  ∀ name pattern, patterns.named? name = some (.str pattern) →
    other.named? pattern = aliases.named? pattern

theorem AgreeOn.hasText (h : AgreeOn patterns aliases other) (name : Text) :
    hasText patterns other name = hasText patterns aliases name := by
  rw [Template.hasText, Template.hasText]
  cases hp : patterns.named? name with
  | none => rfl
  | some v =>
    cases v with
    | str pattern =>
      simp only [Option.bind_some, Value.text?, Option.all_some, isText, h name pattern hp]
    | _ => rfl

theorem exists_of_isText {m : Mapping} (h : isText m name = true) :
    ∃ given : Option Text, m.named? name = given.map Value.str := by
  rw [isText] at h
  cases hv : m.named? name with
  | none => exact ⟨none, rfl⟩
  | some v =>
    cases v with
    | str text => exact ⟨some text, rfl⟩
    | _ =>
      rw [hv] at h
      cases h

def Setting.filled (s : Setting) (patterns aliases : Mapping) : Setting :=
  { s with patterns := .ofMapping patterns, aliases := .ofMapping aliases }

/-- A pattern in use stands for the same, whichever map is asked. -/
theorem AgreeOn.inner_filled (h : AgreeOn patterns aliases other) (s : Setting)
    (htext : Template.hasText patterns aliases name) :
    (s.filled patterns other).inner name = (s.filled patterns aliases).inner name := by
  obtain ⟨hpattern, halias⟩ := Bool.and_eq_true_iff.mp htext
  obtain ⟨given, hgiven⟩ := exists_of_isText hpattern
  rw [Setting.inner, Setting.inner, Setting.filled, Setting.filled, lookup_ofMapping hgiven]
  cases given with
  | none => rfl
  | some pattern =>
    have hnamed : isText aliases pattern = true := by
      rw [hgiven] at halias
      exact halias
    obtain ⟨named, hnamed⟩ := exists_of_isText hnamed
    dsimp only
    rw [resolve, resolve, lookup_ofMapping hnamed,
      lookup_ofMapping ((h name pattern hgiven).trans hnamed)]

theorem AgreeOn.replacements_filled (h : AgreeOn patterns aliases other) (s : Setting)
    (htext : ∀ name ∈ variableNames s.delimiter tokens, Template.hasText patterns aliases name) :
    (s.filled patterns other).replacements tokens =
      (s.filled patterns aliases).replacements tokens := by
  refine Setting.replacements_congr rfl fun token hmem ↦ ?_
  rw [Setting.fragment?, Setting.fragment?]
  change (Variable.ofToken? s.delimiter token).map _ = (Variable.ofToken? s.delimiter token).map _
  cases hv : Variable.ofToken? s.delimiter token with
  | none => rfl
  | some v =>
    have hname := htext v.name
      (List.mem_map.mpr ⟨v, List.mem_filterMap.mpr ⟨token, hmem, hv⟩, rfl⟩)
    rw [Option.map_some, Option.map_some, Setting.group, Setting.group, h.inner_filled s hname]
    rfl

/-- The expression of a rule, where it has one, does not depend on aliases that are not used. -/
theorem AgreeOn.map_expression (h : AgreeOn patterns aliases other) (s : Setting) (rule : Text)
    (tokens : List Text) (complete dropEnd : Bool) :
    (s.withMaps patterns other tokens).map (·.expression rule tokens complete dropEnd) =
      (s.withMaps patterns aliases tokens).map (·.expression rule tokens complete dropEnd) := by
  rw [Setting.withMaps, Setting.withMaps, funext h.hasText]
  split
  next hall =>
    have hreplacements := h.replacements_filled s (List.all_eq_true.mp hall)
    rw [Setting.filled, Setting.filled] at hreplacements
    simp only [Except.map, Setting.expression, hreplacements]
  next => rfl

end UrlRouting.Template

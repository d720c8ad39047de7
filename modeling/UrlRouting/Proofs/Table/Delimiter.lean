import UrlRouting.Proofs.Template.Delimiting
import UrlRouting.Proofs.Text.Split
import UrlRouting.Proofs.Variables.Captured

/-!
A rule under another delimiter. Its path and the URLs have the delimiter in place of slashes; what
it captures, and therefore what it decides, stays the same.
-/

namespace UrlRouting

open Template Template.Part Text Http

/-- The configuration with another delimiter. -/
def Config.between (config : Config) (d : Char) (h : Config.isDelimiter d = true) : Config :=
  { config with delimiter := d, isDelimiter_delimiter := h }

theorem Template.nodup_standing {parts : List Part} (dropEnd : Bool)
    (h : WellNamed (names parts)) :
    (names (standing '/' dropEnd (pathParts dropEnd parts))).Nodup := by
  rw [names_standing, names_pathParts]
  exact h.1

/-! ### Ends of URLs -/

namespace CompiledRule

variable {d : Char} {ext ending url : Text} {x : Char}

theorem mem_of_withoutEnding? {stem : Text} (h : withoutEnding? ending url = some stem)
    (hx : x ∈ stem) : x ∈ url := by
  rw [withoutEnding?] at h
  split at h
  · cases h
    exact List.mem_of_mem_take hx
  · cases h

theorem mem_of_mem_withoutExtension (h : x ∈ withoutExtension ext url) : x ∈ url := by
  rw [withoutExtension] at h
  split at h
  next hend =>
    rw [endsWith_singleton, beq_iff_eq] at hend
    cases hbroken : withoutEnding? ('.' :: ext) url.dropLast with
    | some stem =>
      rw [hbroken] at h
      rcases List.mem_append.mp h with h | h
      · exact List.dropLast_subset _ (mem_of_withoutEnding? hbroken h)
      · rw [List.mem_singleton.mp h]
        exact List.mem_of_getLast? hend
    | none =>
      rw [hbroken] at h
      cases hwhole : withoutEnding? ('.' :: ext) url with
      | some stem =>
        rw [hwhole] at h
        exact mem_of_withoutEnding? hwhole h
      | none =>
        rw [hwhole] at h
        exact h
  next =>
    cases hwhole : withoutEnding? ('.' :: ext) url with
    | some stem =>
      rw [hwhole] at h
      exact mem_of_withoutEnding? hwhole h
    | none =>
      rw [hwhole] at h
      exact h

/-- A URL without delimiters at its end, if the rule disregards them. -/
def withoutEnd (c : CompiledRule) (url : Text) : Text :=
  if c.dropsEnd && c.text != ['/'] then trimRight (· == c.config.delimiter) url else url

theorem trimmed_eq (c : CompiledRule) (ext url : Text) : c.trimmed ext url =
    if (c.options.named "ext").isNull || ext.isEmpty then c.withoutEnd url
    else withoutExtension ext (c.withoutEnd url) := rfl

theorem mem_of_mem_withoutEnd {c : CompiledRule} (h : x ∈ c.withoutEnd url) : x ∈ url := by
  rw [withoutEnd] at h
  split at h
  · exact mem_of_mem_trimRight h
  · exact h

theorem mem_of_mem_trimmed {c : CompiledRule} (h : x ∈ c.trimmed ext url) : x ∈ url := by
  rw [trimmed_eq] at h
  split at h
  · exact mem_of_mem_withoutEnd h
  · exact mem_of_mem_withoutEnd (mem_of_mem_withoutExtension h)

theorem withoutEnding?_delimit (hd : Delimits d) (hending : ∀ x ∈ ending, Apart d x)
    (hslash : '/' ∉ ending) (url : Text) : withoutEnding? ending (url.map (delimit d)) =
      (withoutEnding? ending url).map (List.map (delimit d)) := by
  rw [withoutEnding?, withoutEnding?, List.length_map, ← List.map_drop, ← List.map_take,
    hd.sameFolded_delimit hending hslash]
  split <;> rfl

theorem withoutExtension_delimit (hd : Delimits d) (hext : ∀ x ∈ ext, Apart d x)
    (hslash : '/' ∉ ext) (hurl : ∀ x ∈ url, Apart d x) :
    withoutExtension ext (url.map (delimit d)) =
      (withoutExtension ext url).map (delimit d) := by
  have hending : ∀ x ∈ '.' :: ext, Apart d x :=
    List.forall_mem_cons.mpr ⟨⟨by decide, Ne.symm hd.ne_point⟩, hext⟩
  have hslash' : '/' ∉ '.' :: ext := by
    rw [List.mem_cons, not_or]
    exact ⟨by decide, hslash⟩
  have hbroken : endsWith (url.map (delimit d)) ['\n'] = endsWith url ['\n'] := by
    rw [endsWith_singleton, endsWith_singleton, List.getLast?_map, Bool.eq_iff_iff, beq_iff_eq,
      beq_iff_eq]
    cases hlast : url.getLast? with
    | none => exact iff_of_false nofun nofun
    | some last =>
      rw [Option.map_some, Option.some_inj, Option.some_inj]
      exact hd.delimit_eq_lineFeed (hurl last (List.mem_of_getLast? hlast))
  have hfeed : delimit d '\n' = '\n' := delimit_of_ne (by decide)
  rw [withoutExtension, withoutExtension, hbroken, ← List.map_dropLast,
    withoutEnding?_delimit hd hending hslash', withoutEnding?_delimit hd hending hslash']
  split
  · cases withoutEnding? ('.' :: ext) url.dropLast with
    | some stem =>
      change stem.map (delimit d) ++ ['\n'] = (stem ++ ['\n']).map (delimit d)
      rw [List.map_append, List.map_singleton, hfeed]
    | none => cases withoutEnding? ('.' :: ext) url <;> rfl
  · cases withoutEnding? ('.' :: ext) url <;> rfl

end CompiledRule

/-- The extension of a path holds neither the delimiter nor a slash. -/
theorem Http.Request.apart_ext {d : Char} (hd : Delimits d) {request : Request}
    (hpath : ∀ x ∈ request.path, Apart d x) :
    (∀ x ∈ request.ext, Apart d x) ∧ '/' ∉ request.ext := by
  have hlast {separator : Char} {t before after : Text}
      (hcut : cutLast? separator t = some (before, after)) : ∀ x ∈ after, x ∈ t := by
    rw [eq_append_of_cutLast? hcut]
    exact fun x hx ↦ List.mem_append_right _ (List.mem_cons_of_mem _ hx)
  have hname : ∃ name, request.ext = lower (extension name) ∧
      ∀ x ∈ name, Apart d x ∧ x ≠ '/' := by
    rw [ext]
    cases hcut : cutLast? '/' request.path with
    | none =>
      exact ⟨request.path, rfl, fun x hx ↦
        ⟨hpath x hx, ne_of_mem_of_not_mem hx (not_mem_of_cutLast?_eq_none hcut)⟩⟩
    | some cut =>
      exact ⟨cut.2, rfl, fun x hx ↦
        ⟨hpath x (hlast hcut x hx), ne_of_mem_of_not_mem hx (not_mem_of_cutLast? hcut)⟩⟩
  obtain ⟨name, hext, hname⟩ := hname
  rw [hext]
  have hextension : ∀ x ∈ extension name, Apart d x ∧ x ≠ '/' := by
    rw [extension]
    split
    next stem ending hcut =>
      split
      · exact nofun
      · exact fun x hx ↦ hname x (hlast hcut x hx)
    next => exact nofun
  refine ⟨hd.apart_lower fun x hx ↦ (hextension x hx).1, fun hmem ↦ ?_⟩
  rw [lower_of_isAscii fun x hx ↦ (hextension x hx).1.1] at hmem
  obtain ⟨x, hx, he⟩ := List.mem_map.mp hmem
  rcases (toLower_cases (hextension x hx).1.1).2 with hsame | hletter
  · exact (hextension x hx).2 (hsame.symm.trans he)
  · rw [he] at hletter
    cases hletter

namespace CompiledRule

/-- The rule under another delimiter. -/
def between (c : CompiledRule) (d : Char) (h : Config.isDelimiter d = true) : CompiledRule :=
  { c with config := c.config.between d h }

/-- The rule works under slashes, is written in plain parts of ASCII with known patterns, and does
not separate its parameters in a way of its own. -/
structure Portable (c : CompiledRule) (parts : List Part) (kind : Text → Kind) : Prop
    extends c.Known parts kind where
  delimiter : c.config.delimiter = '/'
  ascii : ∀ x ∈ c.text, IsAscii x
  parameter : (c.options.named "param_depr").isTruthy = false

namespace Portable

variable {c : CompiledRule} {parts : List Part} {kind : Text → Kind} {d : Char} {url ext : Text}
  {request : Request} {captures : Captures}
  (hd : Delimits d) (h : c.Portable parts kind)

include hd in
/-- Plain texts do not hold the delimiter. -/
theorem apart_written {more : List Part}
    (hplain : ∀ part ∈ more, part.isPlain (isSeparator ['/']) = true)
    (hascii : ∀ x ∈ written more, IsAscii x) : ∀ x ∈ written more, Apart d x := by
  refine fun x hx ↦ ⟨hascii x hx, ?_⟩
  rintro rfl
  rcases mem_written hplain hx with hx | hx | hx
  · rw [isWord_of_isDelimiter hd.isDelimiter] at hx
    cases hx
  · rcases isSeparator_singleton.mp hx with he | he | he
    · exact hd.ne_slash he
    · exact hd.ne_hyphen he
    · exact hd.ne_slash he
  · have hmarks : ∀ y ∈ ['<', '>', '?'], y ∈ Config.reservedMarks := by decide
    exact (isDelimiter_iff.mp hd.isDelimiter).2 (hmarks x hx)

include hd in
theorem isOver_of_written {more : List Part}
    (hplain : ∀ part ∈ more, part.isPlain (isSeparator ['/']) = true)
    (hascii : ∀ x ∈ written more, IsAscii x) : ∀ part ∈ more, part.IsOver (Apart d) := by
  intro part hpart
  have hapart : ∀ x ∈ part.text, Apart d x := fun x hx ↦
    apart_written hd hplain hascii x (List.mem_flatMap.mpr ⟨part, hpart, hx⟩)
  cases part with
  | literal x => exact hapart x List.mem_cons_self
  | slot lead name optional =>
    exact fun x hx ↦ hapart x (List.mem_append_left _ (Option.mem_toList.mpr hx))

include h

theorem pathParts_eq : c.pathParts parts = Template.pathParts c.dropsEnd parts := by
  rw [CompiledRule.pathParts, h.delimiter, delimited_slash]

theorem path_eq : c.path = written (Template.pathParts c.dropsEnd parts) := by
  rw [h.toPlain.path_eq, h.pathParts_eq]

theorem isAscii_path : ∀ x ∈ written (Template.pathParts c.dropsEnd parts), IsAscii x := by
  rw [← h.path_eq, CompiledRule.path, Config.delimiterText, h.delimiter]
  split
  · intro x hx
    rw [List.mem_singleton.mp hx]
    decide
  · intro x hx
    rcases List.mem_cons.mp hx with rfl | hx
    · decide
    · rw [replaceChar_eq_map] at hx
      obtain ⟨y, hy, rfl⟩ := List.mem_map.mp hx
      have htext : y ∈ c.text := by
        split at hy
        · exact mem_of_mem_trimRight hy
        · exact hy
      rw [delimit]
      split
      · decide
      · exact h.ascii y htext

theorem regex_eq_treeOf (complete : Bool) : c.regex complete = if WellNamed (names parts) then
      .ok (treeOf c.ignoresCase kind complete
        (Template.standing '/' c.dropsEnd (Template.pathParts c.dropsEnd parts)))
    else .error (.badPattern c.text) := by
  rw [h.regex_eq, CompiledRule.standing, h.pathParts_eq, h.delimiter]

include hd

theorem isOver_pathParts :
    ∀ part ∈ Template.pathParts c.dropsEnd parts, part.IsOver (Apart d) :=
  isOver_of_written hd (isPlain_pathParts c.dropsEnd h.isPlain) h.isAscii_path

theorem apart_path : ∀ x ∈ c.path, Apart d x := by
  rw [h.path_eq]
  exact apart_written hd (isPlain_pathParts c.dropsEnd h.isPlain) h.isAscii_path

theorem known_between : (c.between d hd.isDelimiter).Known parts kind :=
  { h.toKnown with }

theorem path_between : (c.between d hd.isDelimiter).path = c.path.map (delimit d) := by
  rw [(h.known_between hd).toPlain.path_eq, h.path_eq]
  exact written_delimited (isPlain_pathParts c.dropsEnd h.isPlain)

theorem literalHead_between :
    literalHead [d] (c.between d hd.isDelimiter).path =
      (literalHead ['/'] c.path).map (delimit d) := by
  have hplain := isPlain_pathParts c.dropsEnd h.isPlain
  have hgathered := gathered_pathParts c.dropsEnd parts
  have htake : (delimited d (Template.pathParts c.dropsEnd parts)).takeWhile
      (isLiteral fun _ ↦ true) =
        delimited d ((Template.pathParts c.dropsEnd parts).takeWhile (isLiteral fun _ ↦ true)) := by
    rw [delimited, List.takeWhile_map, delimited]
    congr 2
    funext part
    cases part <;> rfl
  rw [(h.known_between hd).toPlain.path_eq, h.path_eq, literalHead_written (by decide) hplain
    hgathered]
  change literalHead [d] (written (delimited d (Template.pathParts c.dropsEnd parts))) = _
  rw [literalHead_written hd.isDelimiter (isPlain_delimited hplain)
    (gathered_delimited hd.isDelimiter hplain hgathered), htake]
  exact written_delimited fun part hmem ↦ hplain part ((List.takeWhile_prefix _).subset hmem)

theorem matchesLiterally_between (hurl : ∀ x ∈ url, Apart d x) (complete : Bool) :
    (c.between d hd.isDelimiter).matchesLiterally (url.map (delimit d)) complete =
      c.matchesLiterally url complete := by
  have hslash : Apart d '/' := ⟨by decide, Ne.symm hd.ne_slash⟩
  have hend : (c.between d hd.isDelimiter).config.delimiterText = ['/'].map (delimit d) := by
    rw [List.map_singleton, delimit_slash]
    rfl
  have hend' : c.config.delimiterText = ['/'] := congrArg (fun d ↦ [d]) h.delimiter
  have hpath := h.apart_path hd
  have happend {t : Text} (ht : ∀ x ∈ t, Apart d x) : ∀ x ∈ t ++ ['/'], Apart d x := by
    intro x hx
    rcases List.mem_append.mp hx with hx | hx
    · exact ht x hx
    · rw [List.mem_singleton.mp hx]
      exact hslash
  have heq : (lower (c.path.map (delimit d)) == lower (url.map (delimit d))) =
      (lower c.path == lower url) := by
    rw [hd.lower_delimit hpath, hd.lower_delimit hurl, Bool.eq_iff_iff, beq_iff_eq, beq_iff_eq]
    exact map_delimit_inj (hd.apart_lower hpath) (hd.apart_lower hurl)
  have hstart : startsWith (lower ((url ++ ['/']).map (delimit d)))
      (lower ((c.path ++ ['/']).map (delimit d))) =
        startsWith (lower (url ++ ['/'])) (lower (c.path ++ ['/'])) := by
    rw [hd.lower_delimit (happend hurl), hd.lower_delimit (happend hpath)]
    exact startsWith_delimit (hd.apart_lower (happend hurl)) (hd.apart_lower (happend hpath))
  rw [matchesLiterally, matchesLiterally, h.path_between hd, hend, hend', ← List.map_append,
    ← List.map_append, heq, hstart]

theorem decided?_between (hurl : ∀ x ∈ url, Apart d x) (complete : Bool) :
    (c.between d hd.isDelimiter).decided? (url.map (delimit d)) complete =
      c.decided? url complete := by
  have hslash : Apart d '/' := ⟨by decide, Ne.symm hd.ne_slash⟩
  have hwhole : ∀ x ∈ '/' :: url, Apart d x := List.forall_mem_cons.mpr ⟨hslash, hurl⟩
  have hwhole' : (c.between d hd.isDelimiter).config.delimiter :: url.map (delimit d) =
      ('/' :: url).map (delimit d) := by
    rw [List.map_cons, delimit_slash]
    rfl
  have hpath := h.apart_path hd
  have hroot : (c.path.map (delimit d) == [d]) = (c.path == ['/']) := by
    have hone := map_delimit_inj hpath (u := ['/']) (List.forall_mem_singleton.mpr hslash)
    rw [List.map_singleton, delimit_slash] at hone
    rw [Bool.eq_iff_iff, beq_iff_eq, beq_iff_eq, hone]
  have hbracket : (c.path.map (delimit d)).contains '<' = c.path.contains '<' := by
    have hfixed : delimit d '<' = '<' := delimit_of_ne (by decide)
    have hne : d ≠ '<' := by
      rintro rfl
      exact absurd hd.isDelimiter (by decide)
    rw [Bool.eq_iff_iff, List.contains_iff_mem, List.contains_iff_mem]
    constructor
    · intro hmem
      obtain ⟨x, hx, he⟩ := List.mem_map.mp hmem
      rw [← hfixed] at he
      exact (delimit_inj (hpath x hx) ⟨by decide, Ne.symm hne⟩).mp he ▸ hx
    · exact fun hmem ↦ hfixed ▸ List.mem_map_of_mem hmem
  have hhead : ∀ x ∈ literalHead ['/'] c.path, Apart d x := fun x hx ↦
    hpath x ((isPrefix_literalHead _ _).subset hx)
  have hstart : startsWith (lower (('/' :: url).map (delimit d)))
      (lower ((literalHead ['/'] c.path).map (delimit d))) =
        startsWith (lower ('/' :: url)) (lower (literalHead ['/'] c.path)) := by
    rw [hd.lower_delimit hwhole, hd.lower_delimit hhead]
    exact startsWith_delimit (hd.apart_lower hwhole) (hd.apart_lower hhead)
  have hdelimiter : c.config.delimiterText = ['/'] := congrArg (fun d ↦ [d]) h.delimiter
  have hdelimiter' : (c.between d hd.isDelimiter).config.delimiterText = [d] := rfl
  rw [decided?, decided?, hwhole', h.matchesLiterally_between hd hwhole, hdelimiter, hdelimiter',
    h.literalHead_between hd, h.path_between hd, hroot, hbracket, hstart, isEmpty_map_delimit,
    h.delimiter]

theorem regex_between (complete : Bool) : (c.between d hd.isDelimiter).regex complete =
    if WellNamed (names parts) then
      .ok (treeOf c.ignoresCase kind complete
        (delimited d (Template.standing '/' c.dropsEnd (Template.pathParts c.dropsEnd parts))))
    else .error (.badPattern c.text) := by
  rw [(h.known_between hd).regex_eq]
  change (if _ then Except.ok (treeOf c.ignoresCase kind complete (Template.standing d c.dropsEnd
    (delimited d (Template.pathParts c.dropsEnd parts)))) else _) = _
  rw [standing_delimited c.dropsEnd (h.isOver_pathParts hd)]
  rfl

theorem capture_between (hurl : ∀ x ∈ url, Apart d x) (complete : Bool) :
    (c.between d hd.isDelimiter).capture (url.map (delimit d)) complete =
      c.capture url complete := by
  have hslash : Apart d '/' := ⟨by decide, Ne.symm hd.ne_slash⟩
  rw [capture, capture, h.decided?_between hd hurl]
  cases c.decided? url complete with
  | some outcome => rfl
  | none =>
    rw [h.regex_between hd, h.regex_eq_treeOf]
    by_cases hwell : WellNamed (names parts)
    · rw [if_pos hwell, if_pos hwell]
      have hover := isOver_standing c.dropsEnd hslash (h.isOver_pathParts hd)
      have hwhole : d :: url.map (delimit d) = ('/' :: url).map (delimit d) := by
        rw [List.map_cons, delimit_slash]
      change Except.ok (Regex.captures? _ (d :: url.map (delimit d))) =
        Except.ok (Regex.captures? _ (c.config.delimiter :: url))
      rw [h.delimiter, hwhole, hd.captures?_delimited c.ignoresCase complete
        (nodup_standing c.dropsEnd hwell) hover (List.forall_mem_cons.mpr ⟨hslash, hurl⟩)]
    · rw [if_neg hwell, if_neg hwell]
      rfl

/-- What a rule captures holds neither the delimiter nor a slash. -/
theorem not_mem_of_capture {complete : Bool}
    (hcapture : c.capture url complete = .ok (some captures)) {name v : Text}
    (hv : (name, some v) ∈ captures) : d ∉ v ∧ '/' ∉ v := by
  obtain ⟨hnodup, -⟩ := captured_names hcapture
  rw [capture] at hcapture
  split at hcapture
  next outcome hdecided =>
    cases hcapture
    rw [eq_nil_of_decided? hdecided] at hv
    cases hv
  next =>
    rw [h.regex_eq_treeOf] at hcapture
    split at hcapture
    next hwell =>
      have hcaptures := Except.ok.inj hcapture
      obtain ⟨q, -, rfl⟩ := Option.map_eq_some_iff.mp hcaptures
      obtain ⟨-, hspans, -⟩ := fill_of_captures (nodup_standing c.dropsEnd hwell) hcaptures
      have hname : name ∈ names (Template.standing '/' c.dropsEnd
          (Template.pathParts c.dropsEnd parts)) := by
        obtain ⟨entry, hentry, he⟩ := List.mem_map.mp hv
        obtain rfl : entry.1 = name := congrArg Prod.fst he
        rw [← fst_groupNames 0]
        exact List.mem_map_of_mem hentry
      have hplain := hspans name hname v (by rw [Captures.value, lookup_of_mem hnodup hv]; rfl)
      have hnot (x : Char) (hx : x = '/' ∨ x = d) : x ∉ v := fun hmem ↦
        Bool.false_ne_true ((hd.spans_eq_false _ _ hx).symm.trans (hplain x hmem))
      exact ⟨hnot d (.inr rfl), hnot '/' (.inl rfl)⟩
    next => cases hcapture

theorem withoutEnd_between (hurl : ∀ x ∈ url, Apart d x) :
    (c.between d hd.isDelimiter).withoutEnd (url.map (delimit d)) =
      (c.withoutEnd url).map (delimit d) := by
  rw [withoutEnd, withoutEnd, h.delimiter, apply_ite (List.map (delimit d)),
    ← trimRight_delimit hurl]
  rfl

theorem trimmed_between (hext : ∀ x ∈ ext, Apart d x) (hslash : '/' ∉ ext)
    (hurl : ∀ x ∈ url, Apart d x) : (c.between d hd.isDelimiter).trimmed ext (url.map (delimit d)) =
      (c.trimmed ext url).map (delimit d) := by
  rw [trimmed_eq, trimmed_eq, h.withoutEnd_between hd hurl, apply_ite (List.map (delimit d)),
    withoutExtension_delimit hd hext hslash fun x hx ↦ hurl x (mem_of_mem_withoutEnd hx)]
  rfl

/-- The variables that a rule finds in a URL are those that it finds between slashes. -/
theorem extract_between (hurl : ∀ x ∈ url, Apart d x) {complete : Bool}
    (hcapture : c.capture url complete = .ok (some captures)) :
    Variables.extract captures.toMapping c.text (url.map (delimit d)) c.patterns c.options
        (.str [d]) =
      Variables.extract captures.toMapping c.text url c.patterns c.options (.str ['/']) := by
  have hvalues (name v : Text) (hmem : (name, some v) ∈ captures) : d ∉ v ∧ '/' ∉ v :=
    h.not_mem_of_capture hd hcapture hmem
  have hextra : Variables.extra c.text (url.map (delimit d)) (.str [d]) =
      Variables.extra c.text url (.str ['/']) := by
    have hrest : Variables.unconsumed c.text (url.map (delimit d)) [d] =
        Variables.unconsumed c.text url ['/'] := by
      rw [Variables.unconsumed, splitOn_delimit hurl]
      rfl
    exact congrArg (fun rest ↦ Except.ok (Variables.ofPairText (Text.join "/" rest))) hrest
  rw [Variables.extract, Variables.extract, hextra,
    Captures.anyHoldsDelimiter_toMapping fun name v hmem ↦
      occursIn_singleton.mpr (hvalues name v hmem).1,
    Captures.anyHoldsDelimiter_toMapping fun name v hmem ↦
      occursIn_singleton.mpr (hvalues name v hmem).2]

theorem decision_between (hurl : ∀ x ∈ url, Apart d x) {complete : Bool}
    (hcapture : c.capture url complete = .ok (some captures)) :
    (c.between d hd.isDelimiter).decision request (url.map (delimit d)) captures.toMapping
        c.options =
      c.decision request url captures.toMapping c.options := by
  have hparameter : c.parameterDelimiter c.options = .str ['/'] := by
    rw [parameterDelimiter, h.parameter, Config.delimiterText, h.delimiter]
    rfl
  have hparameter' : (c.between d hd.isDelimiter).parameterDelimiter c.options = .str [d] := by
    rw [parameterDelimiter, h.parameter]
    rfl
  rw [decision, decision, hparameter, hparameter']
  change Variables.extract captures.toMapping c.text (url.map (delimit d)) c.patterns c.options
    (.str [d]) >>= _ = _
  rw [h.extract_between hd hurl hcapture]
  rfl

theorem decide_between (hpath : ∀ x ∈ request.path, Apart d x) (hurl : ∀ x ∈ url, Apart d x)
    (asked : Bool) :
    (c.between d hd.isDelimiter).decide request (url.map (delimit d)) asked =
      c.decide request url asked := by
  obtain ⟨hext, hslash⟩ := request.apart_ext hd hpath
  have htrimmed : ∀ x ∈ c.trimmed request.ext url, Apart d x :=
    fun x hx ↦ hurl x (mem_of_mem_trimmed hx)
  have htrim : (c.between d hd.isDelimiter).trimmed request.ext (url.map (delimit d)) =
      (c.trimmed request.ext url).map (delimit d) := h.trimmed_between hd hext hslash hurl
  have hdecide : (c.between d hd.isDelimiter).decide request (url.map (delimit d)) asked =
      (c.decide request url asked).map (Option.map id) := by
    refine decide_congr rfl ?_ fun captures hcapture ↦ ?_
    · rw [htrim]
      exact h.capture_between hd htrimmed _
    · rw [htrim, Except.map_id]
      exact h.decision_between hd htrimmed hcapture
  rw [hdecide, Option.map_id_fun, Except.map_id]
  rfl

end Portable

end CompiledRule

end UrlRouting

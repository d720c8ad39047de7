import UrlRouting.Proofs.Template.Slots
import UrlRouting.Proofs.Text.Replace
import UrlRouting.Template.Synthesis

/-!
The expression for a rule string in parts. Each part becomes a fragment of its own: a variable its
group, and the delimiter its escape (`replaceAll_written`). The later passes make a variable
required before a literal separator and change nothing else (`requireBefore_parts`), so that the
expression is written part by part as well: `expression_written`.
-/

namespace UrlRouting.Template

open Template.Part

variable {s : Setting} {d : Char} {part other : Part} {parts more : List Part} {c : Char}
  {name t u old new : Text} {optional : Bool} {lead : Option Char} {rs : Replacements}
  {entry : Text × Text}

/-! ### Variables as they are written -/

theorem isPlain_slot {separates : Char → Bool} :
    (slot lead name optional).isPlain separates = true ↔
      (∀ c, lead = some c → separates c = true) ∧ name ≠ [] ∧
        ∀ c ∈ name, Text.isWord c = true := by
  simp only [isPlain, Bool.and_eq_true, List.all_eq_true, Bool.not_eq_true',
    List.isEmpty_eq_false_iff]
  cases lead <;> simp

theorem takeWhile_canonical (hname : ∀ c ∈ name, Text.isWord c = true) (t : Text) :
    (name ++ ((if optional then ['?', '>'] else ['>']) ++ t)).takeWhile Text.isWord = name := by
  rw [List.takeWhile_append_of_pos hname]
  cases optional
  · rw [if_neg (by decide), List.singleton_append, List.takeWhile_cons_of_neg (by decide),
      List.append_nil]
  · rw [if_pos rfl, List.cons_append, List.takeWhile_cons_of_neg (by decide), List.append_nil]

theorem canonical_unique {name' : Text} {optional' : Bool}
    (hname : ∀ c ∈ name, Text.isWord c = true) (hname' : ∀ c ∈ name', Text.isWord c = true)
    (h : Shorthand.canonical name optional ++ t = Shorthand.canonical name' optional' ++ u) :
    name = name' ∧ optional = optional' := by
  rw [canonical_append, canonical_append, List.cons.injEq] at h
  have hwords := congrArg (List.takeWhile Text.isWord) h.2
  rw [takeWhile_canonical hname, takeWhile_canonical hname'] at hwords
  subst hwords
  have hmarks := List.append_cancel_left h.2
  refine ⟨rfl, ?_⟩
  cases optional <;> cases optional' <;> first | rfl | simp at hmarks

/-- No text of a variable is the beginning of another one. -/
theorem slot_unique {lead' : Option Char} {name' : Text} {optional' : Bool}
    (hd : Config.isDelimiter d = true)
    (h : (slot lead name optional).isPlain (isSeparator [d]) = true)
    (h' : (slot lead' name' optional').isPlain (isSeparator [d]) = true)
    (hp : (slot lead name optional).text <+: (slot lead' name' optional').text ++ t) :
    slot lead name optional = slot lead' name' optional' := by
  obtain ⟨hlead, -, hname⟩ := isPlain_slot.mp h
  obtain ⟨hlead', -, hname'⟩ := isPlain_slot.mp h'
  have hopen : isSeparator [d] '<' = false := isSeparator_mark hd (by simp)
  obtain ⟨u, hu⟩ := hp
  cases lead with
  | none =>
    cases lead' with
    | none =>
      obtain ⟨rfl, rfl⟩ := canonical_unique hname hname' hu
      rfl
    | some c' =>
      obtain ⟨rfl, -⟩ := List.cons.inj hu
      rw [hlead' _ rfl] at hopen
      cases hopen
  | some c =>
    cases lead' with
    | none =>
      obtain ⟨rfl, -⟩ := List.cons.inj hu
      rw [hlead _ rfl] at hopen
      cases hopen
    | some c' =>
      obtain ⟨rfl, hrest⟩ := List.cons.inj hu
      obtain ⟨rfl, rfl⟩ := canonical_unique hname hname' (t := u) (u := t) hrest
      rfl

/-! ### Replacements -/

theorem mem_of_mem_set (h : entry ∈ rs.set old new) : entry = (old, new) ∨ entry ∈ rs := by
  induction rs with
  | nil => exact .inl (List.mem_singleton.mp h)
  | cons first rest ih =>
    rw [Replacements.set] at h
    split at h
    next he =>
      rcases List.mem_cons.mp h with rfl | h
      · exact .inl (he ▸ rfl)
      · exact .inr (List.mem_cons_of_mem _ h)
    next =>
      rcases List.mem_cons.mp h with rfl | h
      · exact .inr List.mem_cons_self
      · exact (ih h).imp id (List.mem_cons_of_mem _)

theorem mem_set_self (rs : Replacements) (old new : Text) : (old, new) ∈ rs.set old new := by
  induction rs with
  | nil => exact List.mem_singleton_self _
  | cons first rest ih =>
    rw [Replacements.set]
    split
    next he => exact List.mem_cons.mpr (.inl (he ▸ rfl))
    next => exact List.mem_cons_of_mem _ ih

theorem exists_mem_set (old new : Text) (h : ∃ u, (t, u) ∈ rs) : ∃ u, (t, u) ∈ rs.set old new := by
  obtain ⟨u, hu⟩ := h
  induction rs with
  | nil => cases hu
  | cons first rest ih =>
    rw [Replacements.set]
    split
    next he =>
      rcases List.mem_cons.mp hu with rfl | hu
      · exact ⟨new, List.mem_cons_self⟩
      · exact ⟨u, List.mem_cons_of_mem _ hu⟩
    next =>
      rcases List.mem_cons.mp hu with rfl | hu
      · exact ⟨u, List.mem_cons_self⟩
      · exact (ih hu).imp fun _ ↦ List.mem_cons_of_mem _

/-- The groups of variables, each bound to the text that the variable is written as. -/
def Setting.bindings (s : Setting) (rs : Replacements) (vs : List (Text × Variable)) :
    Replacements :=
  vs.foldl (fun rs entry ↦ rs.set entry.1 (s.group entry.2)) rs

theorem mem_of_mem_bindings {vs : List (Text × Variable)} (h : entry ∈ s.bindings rs vs) :
    entry ∈ rs ∨ ∃ v ∈ vs, entry = (v.1, s.group v.2) := by
  induction vs generalizing rs with
  | nil => exact .inl h
  | cons v vs ih =>
    rcases ih h with hset | ⟨w, hw, he⟩
    · rcases mem_of_mem_set hset with he | hmem
      · exact .inr ⟨v, List.mem_cons_self, he⟩
      · exact .inl hmem
    · exact .inr ⟨w, List.mem_cons_of_mem _ hw, he⟩

theorem exists_mem_bindings (s : Setting) {vs : List (Text × Variable)}
    (h : (∃ u, (t, u) ∈ rs) ∨ ∃ v ∈ vs, v.1 = t) : ∃ u, (t, u) ∈ s.bindings rs vs := by
  induction vs generalizing rs with
  | nil => exact h.resolve_right nofun
  | cons v vs ih =>
    refine ih ?_
    rcases h with h | ⟨w, hw, rfl⟩
    · exact .inl (exists_mem_set _ _ h)
    · rcases List.mem_cons.mp hw with rfl | hw
      · exact .inl ⟨_, mem_set_self _ _ _⟩
      · exact .inr ⟨w, hw, rfl⟩

/-- What stands in the expression for a part. -/
def Setting.fragment (s : Setting) : Part → Text
  | literal c => if s.delimiter = [c] then separator [c] else [c]
  | slot lead name optional => s.group ⟨lead.elim [] fun c ↦ separator [c], name, optional⟩

theorem mem_placeholders {v : Text × Variable} (h : v ∈ placeholders parts) :
    ∃ lead name optional, slot lead name optional ∈ parts ∧
      v = ((slot lead name optional).text,
        ⟨lead.elim [] fun c ↦ separator [c], name, optional⟩) := by
  obtain ⟨part, hmem, hv⟩ := List.mem_filterMap.mp h
  cases part with
  | literal c => cases hv
  | slot lead name optional =>
    cases hv
    exact ⟨lead, name, optional, hmem, rfl⟩

theorem exists_mem_placeholders (h : slot lead name optional ∈ parts) :
    ∃ v ∈ placeholders parts, v.1 = (slot lead name optional).text :=
  ⟨_, List.mem_filterMap.mpr ⟨_, h, rfl⟩, rfl⟩

section Tokens

variable {ts : List Text} {token : Text} {v : Variable}

theorem replacements_eq (hdelimiter : s.delimiter = [d]) (ts : List Text) :
    ∃ bound, bound = s.bindings [] (ts.filterMap fun t ↦ (Variable.ofToken? [d] t).map (t, ·)) ∧
      s.replacements ts = if separator [d] = [d] || (bound.lookup [d]).isSome then bound
        else bound ++ [([d], separator [d])] := by
  refine ⟨_, rfl, ?_⟩
  rw [Setting.replacements, hdelimiter]
  generalize hfold : List.foldl _ [] ts = groups
  have hgroups : groups =
      s.bindings [] (ts.filterMap fun t ↦ (Variable.ofToken? [d] t).map (t, ·)) := by
    rw [← hfold, Setting.bindings, List.foldl_filterMap]
    refine congrArg (fun step ↦ List.foldl step [] _) (funext₂ fun rs token ↦ ?_)
    rw [Setting.fragment?, hdelimiter]
    cases Variable.ofToken? [d] token <;> rfl
  rw [hgroups]

/-- What is replaced is a token that is a variable, or the delimiter. -/
theorem mem_replacements (hdelimiter : s.delimiter = [d]) (hmem : entry ∈ s.replacements ts) :
    (∃ v, entry.1 ∈ ts ∧ Variable.ofToken? [d] entry.1 = some v ∧ entry.2 = s.group v) ∨
    entry = ([d], separator [d]) ∧ separator [d] ≠ [d] := by
  obtain ⟨bound, hbound, heq⟩ := replacements_eq hdelimiter ts
  have htoken (hin : entry ∈ bound) :
      ∃ v, entry.1 ∈ ts ∧ Variable.ofToken? [d] entry.1 = some v ∧ entry.2 = s.group v := by
    rw [hbound] at hin
    obtain ⟨v, hv, rfl⟩ := (mem_of_mem_bindings hin).resolve_left nofun
    obtain ⟨token, htoken, hv⟩ := List.mem_filterMap.mp hv
    obtain ⟨v, hof, rfl⟩ := Option.map_eq_some_iff.mp hv
    exact ⟨v, htoken, hof, rfl⟩
  rw [heq] at hmem
  split at hmem
  next => exact .inl (htoken hmem)
  next hkeep =>
    simp only [Bool.or_eq_true, decide_eq_true_eq, not_or] at hkeep
    rcases List.mem_append.mp hmem with hin | hlast
    · exact .inl (htoken hin)
    · exact .inr ⟨List.mem_singleton.mp hlast, hkeep.1⟩

theorem exists_mem_replacements (hdelimiter : s.delimiter = [d]) (hmem : token ∈ ts)
    (hv : Variable.ofToken? [d] token = some v) : ∃ u, (token, u) ∈ s.replacements ts := by
  obtain ⟨bound, hbound, heq⟩ := replacements_eq hdelimiter ts
  have hin : ∃ u, (token, u) ∈ bound := by
    rw [hbound]
    exact exists_mem_bindings s
      (.inr ⟨(token, v), List.mem_filterMap.mpr ⟨token, hmem, by rw [hv]; rfl⟩, rfl⟩)
  obtain ⟨u, hu⟩ := hin
  rw [heq]
  split
  · exact ⟨u, hu⟩
  · exact ⟨u, List.mem_append_left _ hu⟩

/-- The delimiter alone is no variable. -/
theorem delimiter_mem_replacements (hdelimiter : s.delimiter = [d])
    (hd : Config.isDelimiter d = true) (hne : separator [d] ≠ [d]) (ts : List Text) :
    ([d], separator [d]) ∈ s.replacements ts := by
  obtain ⟨bound, hbound, heq⟩ := replacements_eq hdelimiter ts
  have hopen : d ≠ '<' := by
    rintro rfl
    exact absurd hd (by decide)
  have hnone : bound.lookup [d] = none := by
    rw [List.lookup_eq_none_iff, hbound]
    intro entry hentry
    obtain ⟨v, hv, rfl⟩ := (mem_of_mem_bindings hentry).resolve_left nofun
    obtain ⟨token, -, hv⟩ := List.mem_filterMap.mp hv
    obtain ⟨v, hof, rfl⟩ := Option.map_eq_some_iff.mp hv
    have hne : [d] ≠ token := by
      rintro rfl
      rw [ofToken?_run hopen (by decide)] at hof
      cases hof
    simpa using hne
  rw [heq, hnone, if_neg (by simp [hne])]
  exact List.mem_append_right _ (List.mem_singleton_self _)

end Tokens

section Written

variable (hdelimiter : s.delimiter = [d]) (hd : Config.isDelimiter d = true)
  (h : ∀ part ∈ parts, part.isPlain (isSeparator [d]) = true)
  (hg : Gathered (isSeparator [d]) parts)

include hdelimiter hd h hg

omit hdelimiter in
/-- The tokens that are variables are those of the parts. -/
theorem exists_slot_of_token {token : Text} {v : Variable}
    (htoken : token ∈ tokens [d] (written parts)) (hv : Variable.ofToken? [d] token = some v) :
    ∃ lead name optional, slot lead name optional ∈ parts ∧
      token = (slot lead name optional).text ∧
      s.group v = s.fragment (slot lead name optional) := by
  have hmem : (token, v) ∈ placeholders parts := by
    rw [← placeholders_tokens hd h hg]
    exact List.mem_filterMap.mpr ⟨token, htoken, by rw [hv]; rfl⟩
  obtain ⟨lead, name, optional, hpart, he⟩ := mem_placeholders hmem
  obtain ⟨htext, rfl⟩ := Prod.mk.inj he
  exact ⟨lead, name, optional, hpart, htext, rfl⟩

theorem mem_replacements_written (hmem : entry ∈ s.replacements (tokens [d] (written parts))) :
    (∃ lead name optional, slot lead name optional ∈ parts ∧
      entry = ((slot lead name optional).text, s.fragment (slot lead name optional))) ∨
    entry = ([d], separator [d]) ∧ separator [d] ≠ [d] := by
  refine (mem_replacements hdelimiter hmem).imp_left fun ⟨v, htoken, hv, hgroup⟩ ↦ ?_
  obtain ⟨lead, name, optional, hpart, htext, hfragment⟩ :=
    exists_slot_of_token (s := s) hd h hg htoken hv
  exact ⟨lead, name, optional, hpart, Prod.ext htext (hgroup.trans hfragment)⟩

theorem exists_mem_replacements_written (hmem : slot lead name optional ∈ parts) :
    ∃ u, ((slot lead name optional).text, u) ∈ s.replacements (tokens [d] (written parts)) := by
  obtain ⟨v, hv, htext⟩ := exists_mem_placeholders hmem
  rw [← placeholders_tokens hd h hg] at hv
  obtain ⟨token, htoken, hv⟩ := List.mem_filterMap.mp hv
  obtain ⟨v, hof, rfl⟩ := Option.map_eq_some_iff.mp hv
  rw [← htext]
  exact exists_mem_replacements hdelimiter htoken hof

end Written

/-! ### The longest replacement -/

/-- The longer one of what has been found and the next entry, if that is found as well. -/
def longer (t : Text) (best : Option (Text × Text)) (entry : Text × Text) : Option (Text × Text) :=
  if Text.startsWith t entry.1 then
    match best with
    | some (found, _) => if found.length < entry.1.length then some entry else best
    | none => some entry
  else best

theorem longestAt?_eq_foldl (rs : Replacements) (t : Text) :
    longestAt? rs t = rs.foldl (longer t) none := rfl

theorem longer_eq_some {best : Option (Text × Text)} {next : Text × Text}
    (h : longer t best next = some entry) : best = some entry ∨ entry = next ∧ next.1 <+: t := by
  rw [longer.eq_def] at h
  split at h
  next hp =>
    have hnext (he : some next = some entry) : best = some entry ∨ entry = next ∧ next.1 <+: t :=
      .inr ⟨(Option.some.inj he).symm, Text.startsWith_iff.mp hp⟩
    split at h
    next =>
      split at h
      next => exact hnext h
      next => exact .inl h
    next => exact hnext h
  next => exact .inl h

theorem exists_longer (best : Option (Text × Text)) (next : Text × Text)
    (h : best = some entry ∨ entry = next ∧ next.1 <+: t) :
    ∃ longest, longer t best next = some longest ∧ entry.1.length ≤ longest.1.length := by
  rw [longer.eq_def]
  split
  next hp =>
    rcases h with rfl | ⟨rfl, -⟩
    · dsimp only
      split
      next hlt => exact ⟨next, rfl, hlt.le⟩
      next => exact ⟨entry, rfl, le_rfl⟩
    · cases best with
      | none => exact ⟨entry, rfl, le_rfl⟩
      | some found =>
        dsimp only
        split
        next => exact ⟨entry, rfl, le_rfl⟩
        next hge => exact ⟨found, rfl, Nat.le_of_not_lt hge⟩
  next hp =>
    rcases h with rfl | ⟨rfl, hprefix⟩
    · exact ⟨entry, rfl, le_rfl⟩
    · exact absurd (Text.startsWith_iff.mpr hprefix) hp

theorem foldl_longer_eq_some {best : Option (Text × Text)}
    (h : rs.foldl (longer t) best = some entry) :
    best = some entry ∨ entry ∈ rs ∧ entry.1 <+: t := by
  induction rs generalizing best with
  | nil => exact .inl h
  | cons next rest ih =>
    rcases ih h with hbest | ⟨hmem, hp⟩
    · rcases longer_eq_some hbest with hbest | ⟨rfl, hp⟩
      · exact .inl hbest
      · exact .inr ⟨List.mem_cons_self, hp⟩
    · exact .inr ⟨List.mem_cons_of_mem _ hmem, hp⟩

theorem exists_foldl_longer (best : Option (Text × Text))
    (h : best = some entry ∨ entry ∈ rs ∧ entry.1 <+: t) : ∃ longest,
    rs.foldl (longer t) best = some longest ∧ entry.1.length ≤ longest.1.length := by
  induction rs generalizing best entry with
  | nil => exact ⟨entry, h.resolve_right nofun, le_rfl⟩
  | cons next rest ih =>
    rcases h with hbest | ⟨hmem, hp⟩
    · obtain ⟨middle, hmiddle, hle⟩ := exists_longer best next (t := t) (.inl hbest)
      obtain ⟨longest, hlongest, hle'⟩ := ih _ (.inl hmiddle)
      exact ⟨longest, hlongest, hle.trans hle'⟩
    · rcases List.mem_cons.mp hmem with rfl | hmem
      · obtain ⟨middle, hmiddle, hle⟩ := exists_longer best _ (.inr ⟨rfl, hp⟩)
        obtain ⟨longest, hlongest, hle'⟩ := ih _ (.inl hmiddle)
        exact ⟨longest, hlongest, hle.trans hle'⟩
      · exact ih _ (.inr ⟨hmem, hp⟩)

theorem longestAt?_eq_none (h : ∀ entry ∈ rs, ¬entry.1 <+: t) : longestAt? rs t = none := by
  cases hl : longestAt? rs t with
  | none => rfl
  | some entry =>
    obtain ⟨hmem, hp⟩ := (foldl_longer_eq_some hl).resolve_left nofun
    exact absurd hp (h entry hmem)

/-- The one replacement of which no other one at the same place is as long. -/
theorem longestAt?_eq_some (hmem : ∃ u, (old, u) ∈ rs) (hp : old <+: t)
    (hmax : ∀ entry ∈ rs, entry.1 <+: t → entry = (old, new) ∨ entry.1.length < old.length) :
    longestAt? rs t = some (old, new) := by
  obtain ⟨u, hu⟩ := hmem
  obtain ⟨longest, hlongest, hle⟩ := exists_foldl_longer none (.inr ⟨hu, hp⟩)
  obtain ⟨hin, hprefix⟩ := (foldl_longer_eq_some hlongest).resolve_left nofun
  rcases hmax longest hin hprefix with rfl | hlt
  · exact hlongest
  · exact absurd hle (Nat.not_le_of_lt hlt)

/-! ### Fragments -/

theorem replaceAllAfter_append (rs : Replacements) (front t : Text) :
    replaceAllAfter rs front.length (front ++ t) = replaceAll rs t := by
  induction front with
  | nil => rfl
  | cons c front ih => exact ih

theorem replaceAll_append (hne : old ≠ []) (h : longestAt? rs (old ++ t) = some (old, new)) :
    replaceAll rs (old ++ t) = new ++ replaceAll rs t := by
  cases old with
  | nil => exact absurd rfl hne
  | cons c rest =>
    rw [List.cons_append] at h
    rw [replaceAll, List.cons_append, replaceAllAfter, h]
    exact congrArg _ (replaceAllAfter_append rs rest t)

theorem replaceAll_cons (h : longestAt? rs (c :: t) = none) :
    replaceAll rs (c :: t) = c :: replaceAll rs t := by
  rw [replaceAll, replaceAllAfter, h, replaceAll]

/-- A character at which no variable begins is kept, but that the delimiter is escaped. -/
theorem replaceAll_literal {ts : List Text} (hdelimiter : s.delimiter = [d])
    (hd : Config.isDelimiter d = true)
    (hnone : ∀ token v, token ∈ ts → Variable.ofToken? [d] token = some v → ¬token <+: c :: t) :
    replaceAll (s.replacements ts) (c :: t) =
      s.fragment (literal c) ++ replaceAll (s.replacements ts) t := by
  rw [Setting.fragment, hdelimiter]
  by_cases hkey : c = d ∧ separator [d] ≠ [d]
  · obtain ⟨rfl, hne⟩ := hkey
    rw [if_pos rfl]
    refine replaceAll_append (List.cons_ne_nil _ _) (longestAt?_eq_some
      ⟨_, delimiter_mem_replacements hdelimiter hd hne _⟩ (List.prefix_append _ _) ?_)
    intro entry hentry hp
    rcases mem_replacements hdelimiter hentry with ⟨v, htoken, hv, -⟩ | ⟨rfl, -⟩
    · exact absurd hp (hnone _ v htoken hv)
    · exact .inl rfl
  · have hkeep : (if [d] = [c] then separator [c] else [c]) = [c] := by
      split
      next he =>
        obtain rfl := (List.cons.inj he).1
        by_contra hne
        exact hkey ⟨rfl, hne⟩
      next => rfl
    rw [hkeep]
    refine replaceAll_cons (longestAt?_eq_none fun entry hentry hp ↦ ?_)
    rcases mem_replacements hdelimiter hentry with ⟨v, htoken, hv, -⟩ | ⟨rfl, hne⟩
    · exact hnone _ v htoken hv hp
    · exact hkey ⟨(List.cons_prefix_cons.mp hp).1.symm, hne⟩

theorem not_slot_prefix (hd : Config.isDelimiter d = true)
    (h : (slot lead name optional).isPlain (isSeparator [d]) = true)
    (hc : (literal c).isPlain (isSeparator [d]) = true)
    (hrest : ∀ part ∈ more, part.isPlain (isSeparator [d]) = true)
    (hg : Gathered (isSeparator [d]) (literal c :: more)) :
    ¬(slot lead name optional).text <+: c :: written more := by
  rintro ⟨t, ht⟩
  cases lead with
  | none =>
    obtain ⟨rfl, -⟩ := List.cons.inj ht
    rw [isPlain, isSeparator_mark hd (by simp), Bool.or_false] at hc
    exact absurd hc (by decide)
  | some c' =>
    obtain ⟨rfl, hbracket⟩ := List.cons.inj ht
    have hhead : (written more).head? = some '<' := hbracket ▸ rfl
    obtain ⟨name', optional', rest, rfl⟩ := head_written_eq_bracket hd hrest hhead
    have hsep := (isPlain_slot.mp h).1 c' rfl
    rw [hg.separates_eq_false] at hsep
    cases hsep

theorem replaceAll_written (hdelimiter : s.delimiter = [d]) (hd : Config.isDelimiter d = true)
    (h : ∀ part ∈ parts, part.isPlain (isSeparator [d]) = true)
    (hg : Gathered (isSeparator [d]) parts) (hmore : more <:+: parts) :
    replaceAll (s.replacements (tokens [d] (written parts))) (written more) =
      more.flatMap s.fragment := by
  induction more with
  | nil => rfl
  | cons part rest ih =>
    have hrest : rest <:+: parts := (List.suffix_cons _ _).isInfix.trans hmore
    have hplain : ∀ part ∈ rest, part.isPlain (isSeparator [d]) = true :=
      fun part hmem ↦ h part (hrest.mem hmem)
    have hpart := h part (hmore.mem List.mem_cons_self)
    rw [written_cons, List.flatMap_cons, ← ih hrest]
    cases part with
    | slot lead name optional =>
      have hmem := hmore.mem (List.mem_cons_self (a := slot lead name optional))
      refine replaceAll_append (Part.text_ne_nil _) (longestAt?_eq_some
        (exists_mem_replacements_written hdelimiter hd h hg hmem) (List.prefix_append _ _) ?_)
      intro entry hentry hp
      rcases mem_replacements_written hdelimiter hd h hg hentry with
        ⟨lead', name', optional', hmem', rfl⟩ | ⟨rfl, -⟩
      · rw [slot_unique hd (h _ hmem') hpart hp]
        exact .inl rfl
      · refine .inr ?_
        cases lead <;> cases optional <;> simp [text, Shorthand.canonical]
    | literal c =>
      refine replaceAll_literal hdelimiter hd fun token v htoken hv ↦ ?_
      obtain ⟨lead, name, optional, hmem, rfl, -⟩ :=
        exists_slot_of_token (s := s) hd h hg htoken hv
      exact not_slot_prefix hd (h _ hmem) hpart hplain (hg.of_infix hmore)

end UrlRouting.Template

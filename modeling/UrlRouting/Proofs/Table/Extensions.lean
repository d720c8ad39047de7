import UrlRouting.Proofs.Admission.Listed
import UrlRouting.Proofs.Table.Fitting
import UrlRouting.Proofs.Template.Nesting
import UrlRouting.Proofs.Text.Delimit

/-!
Rules for paths with an extension. A rule whose only option is a list of extensions decides on the
requests for its path with any of them behind it, and what it matches is its path, without the
extension (`outcome_of_listed_extension`). The letters may be in any case, but for a capital I with
a dot: the small form of that is one character longer than what is to be taken off the path.
-/

namespace UrlRouting

open Http Text

/-! ### Extensions of paths -/

namespace Text

/-- A path without its extension, and the extension with its point. A file name has an extension
from its last point on, unless only points stand before. -/
def splitExtension (path : Text) : Text × Text :=
  let (dir, name) :=
    match cutLast? '/' path with
    | some (dir, name) => (dir ++ ['/'], name)
    | none => ([], path)
  match cutLast? '.' name with
  | some (stem, ext) => if stem.all (· == '.') then (path, []) else (dir ++ stem, '.' :: ext)
  | none => (path, [])

end Text

namespace Http.Request

variable {r : Request} {front e : Text}

theorem extension_of_cutLast? {name stem : Text} (h : cutLast? '.' name = some (stem, e))
    (hstem : stem.all (· == '.') = false) : extension name = e := by
  rw [extension, h]
  simp [hstem]

/-- The extension of a request is that of its path, in small letters and without the point. -/
theorem ext_of_splitExtension (h : splitExtension r.path = (front, '.' :: e)) :
    r.ext = lower e ∧ r.path = front ++ '.' :: e ∧ '.' ∉ e := by
  have hname : ∀ dir name, r.path = dir ++ name →
      (match cutLast? '.' name with
        | some (stem, ext) =>
          if stem.all (· == '.') then (r.path, []) else (dir ++ stem, '.' :: ext)
        | none => (r.path, [])) = (front, '.' :: e) →
      extension name = e ∧ r.path = front ++ '.' :: e ∧ '.' ∉ e := by
    intro dir name hpath hsplit
    cases hcut : cutLast? '.' name with
    | none =>
      rw [hcut] at hsplit
      cases hsplit
    | some cut =>
      obtain ⟨stem, ext⟩ := cut
      rw [hcut] at hsplit
      dsimp only at hsplit
      split at hsplit
      next => cases hsplit
      next hstem =>
        cases hsplit
        refine ⟨extension_of_cutLast? hcut (Bool.eq_false_iff.mpr hstem), ?_,
          not_mem_of_cutLast? hcut⟩
        rw [hpath, eq_append_of_cutLast? hcut, List.append_assoc]
  rw [splitExtension] at h
  rw [Request.ext]
  cases hcut : cutLast? '/' r.path with
  | none =>
    rw [hcut] at h
    obtain ⟨hext, hrest⟩ := hname [] r.path rfl h
    exact ⟨congrArg lower hext, hrest⟩
  | some cut =>
    obtain ⟨dir, name⟩ := cut
    rw [hcut] at h
    have hpath : r.path = (dir ++ ['/']) ++ name := by
      rw [eq_append_of_cutLast? hcut, List.append_assoc]
      rfl
    obtain ⟨hext, hrest⟩ := hname _ name hpath h
    exact ⟨congrArg lower hext, hrest⟩

end Http.Request

/-! ### Taking extensions off -/

namespace Text

variable {c d : Char}

theorem trimLeft_append_point (front e : Text) :
    trimLeft (· == '/') (front ++ '.' :: e) = trimLeft (· == '/') front ++ '.' :: e := by
  induction front with
  | nil => rfl
  | cons c rest ih =>
    rw [trimLeft, trimLeft, List.cons_append, List.dropWhile_cons, List.dropWhile_cons]
    split
    · exact ih
    · rfl

/-- Punctuation matches nothing but itself. -/
theorem eq_of_foldChar (hd : IsPunctuation d) (h : foldChar c = d) : c = d := by
  rw [foldChar, sameLetter] at h
  split at h
  next letters hfind =>
    have hletters : ∀ letters ∈ CaseTable.sameLetter,
        ∀ first ∈ letters.head?, ¬IsPunctuation (Char.ofNat first) := by decide +kernel
    rw [List.headD_eq_head?_getD, List.head?_map] at h
    cases hhead : letters.head? with
    | none => rwa [hhead] at h
    | some first =>
      rw [hhead] at h
      exact absurd hd (h ▸ hletters letters (List.mem_of_find?_eq_some hfind) first hhead)
  next =>
    by_contra hc
    exact lowerChar_ne hd hc h

end Text

namespace CompiledRule

variable {e ext front : Text}

/-- An ending that is longer than what comes after the last point does not match: it has no point
where the text has one. -/
theorem withoutEnding?_of_length_lt (hlength : e.length < ext.length) (hpoint : '.' ∉ ext)
    (front : Text) : withoutEnding? ('.' :: ext) (front ++ '.' :: e) = none := by
  rw [withoutEnding?, if_neg]
  rw [Bool.and_eq_true, decide_eq_true_eq, sameFolded, beq_iff_eq]
  rintro ⟨hle, hfolded⟩
  simp only [List.length_append, List.length_cons] at hle hfolded
  have hstem : front.length + (e.length + 1) - (ext.length + 1) < front.length := by omega
  rw [List.drop_append_of_le_length (Nat.le_of_lt hstem), List.drop_eq_getElem_cons hstem,
    List.cons_append, List.map_cons, List.map_cons, List.cons.injEq] at hfolded
  have hmem : foldChar '.' ∈ ext.map foldChar := by
    rw [← hfolded.2, List.map_append]
    exact List.mem_append_right _ List.mem_cons_self
  have hmark : IsPunctuation '.' := by decide
  rw [foldChar_of_not_alphanum hmark.isAscii rfl] at hmem
  obtain ⟨c, hc, hfold⟩ := List.mem_map.mp hmem
  exact hpoint (eq_of_foldChar hmark hfold ▸ hc)

theorem not_point_mem_lower (h : '.' ∉ e) : '.' ∉ lower e := not_mem_lower (by decide) h

/-- The extension of a request is taken off the end of a URL once. -/
theorem withoutExtension_append (he : e ≠ []) (hpoint : '.' ∉ e) (hdotted : 'İ' ∉ e)
    (front : Text) : withoutExtension (lower e) (front ++ '.' :: e) = front := by
  have hlength : (lower e).length = e.length := length_lowerAfter hdotted []
  have hbroken : withoutEnding? ('.' :: lower e) (front ++ '.' :: e).dropLast = none := by
    have hshort : e.dropLast.length < (lower e).length := by
      have := List.length_pos_iff.mpr he
      rw [hlength, List.length_dropLast]
      omega
    rw [List.dropLast_append_cons, List.dropLast_cons_of_ne_nil he]
    exact withoutEnding?_of_length_lt hshort (not_point_mem_lower hpoint) front
  have hwhole : withoutEnding? ('.' :: lower e) (front ++ '.' :: e) = some front := by
    have hstem : (front ++ '.' :: e).length - ('.' :: lower e).length = front.length := by
      rw [List.length_append, List.length_cons, List.length_cons, hlength, Nat.add_sub_cancel]
    have hfolded : sameFolded ('.' :: e) ('.' :: lower e) = true := by
      have hsame := beq_iff_eq.mp (sameFolded_lower hdotted)
      rw [sameFolded, List.map_cons, List.map_cons, hsame]
      exact beq_self_eq_true _
    rw [withoutEnding?, hstem, List.drop_left, hfolded, List.take_left, if_pos]
    rw [Bool.and_true, decide_eq_true_eq, List.length_append, List.length_cons, List.length_cons,
      hlength]
    exact Nat.le_add_left _ _
  rw [withoutExtension, hbroken, hwhole]
  split <;> rfl

/-- The small form of an extension with a capital I with a dot is too long to be taken off. -/
theorem withoutExtension_of_dotted (he : e ≠ []) (hpoint : '.' ∉ e) (hdotted : 'İ' ∈ e)
    (front : Text) : withoutExtension (lower e) (front ++ '.' :: e) = front ++ '.' :: e := by
  have hlength : e.length < (lower e).length := by
    have hcount := List.count_pos_iff.mpr hdotted
    have hwhole : (lower e).length = _ := length_lowerAfter_eq [] e
    omega
  have hshort : e.dropLast.length < (lower e).length :=
    Nat.lt_of_le_of_lt (e.length_dropLast ▸ Nat.sub_le _ _) hlength
  have hnone := not_point_mem_lower hpoint
  rw [withoutExtension, List.dropLast_append_cons, List.dropLast_cons_of_ne_nil he,
    withoutEnding?_of_length_lt hshort hnone, withoutEnding?_of_length_lt hlength hnone]
  split <;> rfl

/-! ### Rules that list extensions -/

/-- A rule under the default settings, not for the root path, without variables, and with a list of
extensions for its only option. -/
structure ListsExtensions (c : CompiledRule) (listed : Text) : Prop where
  config : c.config = {}
  inner : c.text ≠ ['/']
  static : '<' ∉ c.text
  ext : Mapping.named c.options "ext" = .str listed
  others : ∀ name, name ≠ "ext".toList → Mapping.named c.options name = .null

namespace ListsExtensions

variable {c : CompiledRule} {listed url : Text} {complete asked : Bool} {request : Request}

theorem on (h : c.ListsExtensions listed) (anyDomain : Bool) :
    (c.on anyDomain).ListsExtensions listed := by
  cases anyDomain with
  | false => exact h
  | true =>
    have hext := (named_onAnyDomain (by decide) c).trans h.ext
    refine ⟨h.config, h.inner, h.static, hext, fun name hname ↦ ?_⟩
    by_cases hdomain : name = "domain".toList
    · rw [hdomain]
      exact Mapping.named_erase_self _ _
    · exact (named_onAnyDomain hdomain c).trans (h.others name hname)

theorem delimiter_eq (h : c.ListsExtensions listed) : c.config.delimiter = '/' := by rw [h.config]

theorem dropsEnd_eq (h : c.ListsExtensions listed) : c.dropsEnd = false := by
  rw [dropsEnd, h.others _ (by decide), h.config]

theorem replaceChar_slash (t : Text) : replaceChar '/' ['/'] t = t := by
  rw [Template.replaceChar_eq_map, Template.delimit_slash_eq_id, List.map_id]

theorem path_eq (h : c.ListsExtensions listed) : c.path = '/' :: c.text := by
  rw [path, if_neg h.inner, Config.delimiterText, h.delimiter_eq, h.dropsEnd_eq]
  exact congrArg _ (replaceChar_slash c.text)

theorem urlOf_eq (h : c.ListsExtensions listed) (request : Request) :
    c.config.urlOf request = trimLeft (· == '/') request.path := by
  rw [Config.urlOf, Config.delimiterText, h.delimiter_eq, replaceChar_slash]

theorem trimmed_eq (h : c.ListsExtensions listed) {ext : Text} (hext : ext ≠ []) (url : Text) :
    c.trimmed ext url = withoutExtension ext url := by
  have hempty : ext.isEmpty = false := List.isEmpty_eq_false_iff.mpr hext
  rw [trimmed, h.dropsEnd_eq, h.ext, hempty]
  rfl

/-- A request is admitted if its extension is on the list. -/
theorem rejection?_eq (h : c.ListsExtensions listed)
    (hlisted : Check.inList request.ext listed = true) :
    Admission.rejection? c.options (some c.text) request = .ok none := by
  refine Admission.firstFailure_of_forall fun check _ ↦ ?_
  cases check with
  | predicate => rw [Check.passes, Check.passesPredicate, h.others _ (by decide)]
  | method => rw [Check.passes, Check.passesMethod, h.others _ (by decide)]
  | negotiation =>
    rw [Check.passes, Check.passesNegotiation, h.others _ (by decide), h.others _ (by decide),
      h.others _ (by decide)]
    rfl
  | ext =>
    rw [Check.passes, Check.passesExt, Check.inOption, Check.inOption, h.ext,
      h.others _ (by decide), Value.plain, hlisted]
    exact congrArg Except.ok (Bool.or_true _)
  | domain =>
    rw [Check.passes, Check.passesDomain, h.others _ (by decide)]
    rfl
  | scheme =>
    rw [Check.passes, Check.passesScheme, h.others _ (by decide)]
    rfl
  | filter => rw [Check.passes, Check.passesFilter, h.others _ (by decide)]

/-- Without variables, a rule captures nothing, or does not match. -/
theorem capture_eq (h : c.ListsExtensions listed) (url : Text) (complete : Bool) :
    c.capture url complete = .ok (if c.text.isEmpty && !url.isEmpty then none
      else if c.matchesLiterally ('/' :: url) complete then some [] else none) := by
  have hstatic : (!c.path.contains '<') = true := by simp [h.path_eq, h.static]
  have hroot : (c.path == c.config.delimiterText) = c.text.isEmpty := by
    rw [h.path_eq, Config.delimiterText, h.delimiter_eq]
    cases c.text <;> rfl
  rw [capture, decided?, hroot, hstatic, h.delimiter_eq]
  cases c.text.isEmpty && !url.isEmpty <;> rfl

/-- The rule matches its own path. -/
theorem capture_text (h : c.ListsExtensions listed) (complete : Bool) :
    c.capture c.text complete = .ok (some []) := by
  rw [h.capture_eq, Bool.and_not_self, matchesLiterally, h.path_eq, beq_self_eq_true]
  rfl

/-- What matches the path of the rule begins with it, case apart. -/
theorem matchesLiterally_eq_false (h : c.ListsExtensions listed)
    (hne : lower c.text ≠ lower url) (hstart : ¬lower c.text ++ ['/'] <+: lower url ++ ['/']) :
    c.matchesLiterally ('/' :: url) complete = false := by
  have hslash : IsBoundary '/' := by decide
  have hcons (t : Text) : lower ('/' :: t) = '/' :: lower t := lower_boundary_cons hslash t
  have hconcat (t : Text) : lower ('/' :: t ++ ['/']) = '/' :: (lower t ++ ['/']) := by
    rw [List.cons_append, hcons]
    exact congrArg _ (lowerAfter_concat hslash.1 [] t)
  rw [matchesLiterally, h.path_eq, Config.delimiterText, h.delimiter_eq, hcons, hcons, hconcat,
    hconcat, Bool.or_eq_false_iff, beq_eq_false_iff_ne, Bool.and_eq_false_iff]
  refine ⟨fun he ↦ hne (List.cons.inj he).2, .inr (Bool.eq_false_iff.mpr fun hstarts ↦ ?_)⟩
  exact hstart (List.cons_prefix_cons.mp (startsWith_iff.mp hstarts)).2

/-- A rule string that begins with a slash, which none does that is declared, is matched by no URL
of a request. -/
theorem capture_of_head? (h : c.ListsExtensions listed) (hhead : c.text.head? = some '/')
    (hurl : url.head? ≠ some '/') : c.capture url complete = .ok none := by
  have hslash : IsPunctuation '/' := by decide
  have hsmall : (lower c.text).head? = some '/' := (head?_lowerAfter hslash [] _).mpr hhead
  have hsmall' : (lower url).head? ≠ some '/' := fun he ↦
    hurl ((head?_lowerAfter hslash [] _).mp he)
  obtain ⟨rest, hrest⟩ := List.head?_eq_some_iff.mp hsmall
  have hmatch : c.matchesLiterally ('/' :: url) complete = false := by
    refine h.matchesLiterally_eq_false (fun he ↦ hsmall' (he ▸ hsmall)) fun hprefix ↦ ?_
    rw [hrest] at hprefix
    cases hcase : lower url with
    | nil =>
      rw [hcase] at hprefix
      simpa using hprefix.length_le
    | cons x small =>
      rw [hcase] at hprefix hsmall'
      exact hsmall' (congrArg some (List.cons_prefix_cons.mp hprefix).1.symm)
  rw [h.capture_eq, hmatch]
  split <;> rfl

/-- What follows the rule string is cut off at slashes only. -/
theorem capture_append_point (h : c.ListsExtensions listed) (e : Text) :
    c.capture (c.text ++ '.' :: e) complete = .ok none := by
  have hpoint : IsPunctuation '.' := by decide
  obtain ⟨small, hsmall, happend⟩ := exists_lowerAfter_append [] c.text ('.' :: e)
  rw [hpoint.lowerAfter_cons] at happend
  have hlength : (lower c.text).length = small.length :=
    (length_lowerAfter_eq [] c.text).trans hsmall.symm
  change lower (c.text ++ '.' :: e) = _ at happend
  have hmatch : c.matchesLiterally ('/' :: (c.text ++ '.' :: e)) complete = false := by
    refine h.matchesLiterally_eq_false (fun he ↦ ?_) fun hprefix ↦ ?_
    · have hlengths := congrArg List.length (he.trans happend)
      rw [List.length_append, List.length_cons] at hlengths
      omega
    · obtain ⟨rest, hrest⟩ := hprefix
      rw [happend, List.append_assoc, List.append_assoc] at hrest
      cases (List.append_inj hrest hlength).2
  rw [h.capture_eq, hmatch]
  split <;> rfl

/-- Parameters are delimited by slashes, and only the target can name a class. -/
theorem named (h : c.ListsExtensions listed) :
    c.parameterDelimiter c.options = .str ['/'] ∧
      Target.namedClasses c.target c.options = (Target.class? c.target).toList := by
  constructor
  · rw [parameterDelimiter, h.others _ (by decide), Config.delimiterText, h.delimiter_eq]
    rfl
  · rw [Target.namedClasses, h.others _ (by decide), List.filterMap_cons_none rfl]
    cases c.target <;> rfl

/-- The decision on a request whose extension is on the list. -/
theorem decide_eq (h : c.ListsExtensions listed) (hlisted : Check.inList request.ext listed = true)
    (url : Text) (asked : Bool) : c.decide request url asked =
      c.capture (c.trimmed request.ext url) (c.isComplete asked) >>= fun
        | none => .ok none
        | some captures => (c.decision request (c.trimmed request.ext url) captures.toMapping
            c.options).map some := by
  rw [decide, h.rejection?_eq hlisted]
  change c.capture _ _ >>= _ = c.capture _ _ >>= _
  refine congrArg _ ?_
  funext captures
  cases captures with
  | none => rfl
  | some captures =>
    dsimp only
    cases c.decision request (c.trimmed request.ext url) captures.toMapping c.options <;> rfl

/-- The URL that is matched is the rule string without slashes in front, unless the extension cannot
be taken off. -/
theorem trimmed_urlOf {e : Text} (h : c.ListsExtensions listed) (he : e ≠ [])
    (hpath : splitExtension request.path = ('/' :: c.text, '.' :: e)) :
    c.trimmed request.ext (c.config.urlOf request) =
      trimLeft (· == '/') c.text ++ if 'İ' ∈ e then '.' :: e else [] := by
  obtain ⟨hext, hwhole, hpoint⟩ := Request.ext_of_splitExtension hpath
  rw [h.trimmed_eq (hext ▸ lower_ne_nil he), h.urlOf_eq, hext, hwhole,
    trimLeft_append_point, trimLeft, List.dropWhile_cons_of_pos rfl, ← trimLeft]
  split
  next hdotted => exact withoutExtension_of_dotted he hpoint hdotted _
  next hdotted => rw [withoutExtension_append he hpoint hdotted, List.append_nil]

/-- The rule decides on a request for its path with an extension from the list. -/
theorem decide_listed {e : Text} (h : c.ListsExtensions listed) (he : e ≠ [])
    (hpath : splitExtension request.path = ('/' :: c.text, '.' :: e))
    (hlisted : lower e ∈ (splitAt '|' listed).map lower) (asked : Bool) :
    ('İ' ∉ e → c.text.head? ≠ some '/' →
      c.trimmed request.ext (c.config.urlOf request) = c.text ∧
      ((Target.class? c.target).any DispatchClass.hasFields = false →
        ∃ d, c.decide request (c.config.urlOf request) asked = .ok (some d)) ∧
      ((Target.class? c.target).any DispatchClass.hasFields = true →
        c.decide request (c.config.urlOf request) asked = .error .wrongType)) ∧
    ('İ' ∈ e ∨ c.text.head? = some '/' →
      c.decide request (c.config.urlOf request) asked = .ok none) := by
  have hext := (Request.ext_of_splitExtension hpath).1
  have hdecide := h.decide_eq (hext ▸ Check.inList_lower hlisted) (c.config.urlOf request) asked
  have htrimmed := h.trimmed_urlOf he hpath
  constructor
  · intro hdotted hhead
    rw [if_neg hdotted, List.append_nil, trimLeft_of_head? hhead] at htrimmed
    rw [htrimmed, h.capture_text] at hdecide
    obtain ⟨hmark, hclasses⟩ := h.named
    refine ⟨htrimmed, fun hfields ↦ ?_, fun hfields ↦ ?_⟩
    · have hcan : c.CanDecide := ⟨⟨_, hmark⟩, by rwa [hclasses, Option.head?_toList]⟩
      obtain ⟨d, hd⟩ := hcan.exists_decision request c.text []
      exact ⟨d, hdecide.trans (congrArg (Except.map some) hd)⟩
    · obtain ⟨cls, hcls, hfields⟩ := (Option.any_eq_true _ _).mp hfields
      have hfirst : (Target.namedClasses c.target c.options).head? = some cls := by
        rw [hclasses, Option.head?_toList, hcls]
      exact hdecide.trans
        (congrArg (Except.map some) (decision_of_hasFields hmark hfirst hfields request c.text []))
  · intro hcase
    have hnone : c.capture (c.trimmed request.ext (c.config.urlOf request)) (c.isComplete asked) =
        .ok none := by
      rw [htrimmed]
      by_cases hhead : c.text.head? = some '/'
      · refine h.capture_of_head? hhead ?_
        cases hleft : trimLeft (· == '/') c.text with
        | nil => split <;> exact fun hx ↦ by cases hx
        | cons x rest => exact fun hx ↦ head?_trimLeft c.text (hleft ▸ hx)
      · rw [if_pos (hcase.resolve_right hhead), trimLeft_of_head? hhead]
        exact h.capture_append_point e
    rw [hdecide, hnone]
    rfl

end ListsExtensions

end CompiledRule

/-- A rule that lists extensions decides on a request for its path with one of them behind it, and
matches its path, unless the extension has a capital I with a dot. Its target may name no class
whose decisions have fields of their own. -/
theorem outcome_of_listed_extension {t : Table} {id : NodeId} {c : CompiledRule} {request : Request}
    {listed e : Text} (ht : t.Reachable) (hat : t.ruleAt id = .ok c)
    (h : c.ListsExtensions listed) (he : e ≠ [])
    (hpath : splitExtension request.path = ('/' :: c.text, '.' :: e))
    (hlisted : lower e ∈ (splitAt '|' listed).map lower) (asked anyDomain : Bool) :
    ('İ' ∉ e → c.text.head? ≠ some '/' →
      c.trimmed request.ext (c.config.urlOf request) = c.text ∧
      ((Target.class? c.target).any DispatchClass.hasFields = false →
        ∃ d, (Action.checkRule id request (c.config.urlOf request) asked anyDomain).outcome t =
          .ok (some d)) ∧
      ((Target.class? c.target).any DispatchClass.hasFields = true →
        (Action.checkRule id request (c.config.urlOf request) asked anyDomain).outcome t =
          .error .wrongType)) ∧
    ('İ' ∈ e ∨ c.text.head? = some '/' →
      (Action.checkRule id request (c.config.urlOf request) asked anyDomain).outcome t =
        .ok none) := by
  have htext : (c.on anyDomain).text = c.text := by cases anyDomain <;> rfl
  have htarget : (c.on anyDomain).target = c.target := by cases anyDomain <;> rfl
  have hconfig : (c.on anyDomain).config = c.config := by cases anyDomain <;> rfl
  have hdecide := (h.on anyDomain).decide_listed he (htext.symm ▸ hpath) hlisted asked
  rw [htext, htarget, hconfig, c.trimmed_on] at hdecide
  rw [(Action.checkRule_answers ht.sound id _ _ _ _).outcome_eq, Table.decisionAt, hat]
  exact hdecide

/-- A rule with two extensions, one of them with a capital I with a dot. -/
def Table.listedRule : Table := empty.afterAll
  [.addRouter [],
    .routeOn 0 { rule := "v1.0/page", target := "x", options := [(.str "ext", .str "html|GİF")] }]

theorem Table.reachable_listedRule : listedRule.Reachable := ⟨_, by decide, rfl⟩

theorem Table.listsExtensions_listedRule : ∃ c, listedRule.ruleAt 1 = .ok c ∧
    c.ListsExtensions "html|GİF" ∧ c.text = "v1.0/page" ∧ c.target = .str "x" := by
  obtain ⟨c, hin, hconfig, htext, htarget, hoptions⟩ : ∃ c, listedRule.inEffect? 1 = some c ∧
      c.config = {} ∧ c.text = "v1.0/page" ∧ c.target = .str "x" ∧
      c.options = [(.str "ext", .str "html|GİF")] := ⟨_, rfl, rfl, rfl, rfl, rfl⟩
  refine ⟨c, ruleAt_of_inEffect? hin (by decide +kernel),
    ⟨hconfig, htext ▸ by decide, htext ▸ by decide, hoptions ▸ rfl, fun name hname ↦ ?_⟩, htext,
    htarget⟩
  rw [hoptions, Mapping.named, Entries.named?, Entries.get?, if_neg]
  · rfl
  · exact fun hsame ↦ hname (Value.str.inj (Value.same_str_iff.mp hsame)).symm

theorem outcome_of_listed_extension_listedRule :
    ∃ c d, Table.listedRule.ruleAt 1 = .ok c ∧ c.text = "v1.0/page" ∧
      (Action.checkRule 1 (.bare "GET" "/v1.0/page.HTML")
        (c.config.urlOf (.bare "GET" "/v1.0/page.HTML")) false false).outcome Table.listedRule =
          .ok (some d) := by
  obtain ⟨c, hat, hlists, htext, htarget⟩ := Table.listsExtensions_listedRule
  have hpath : splitExtension (Request.bare "GET" "/v1.0/page.HTML").path =
      ('/' :: c.text, '.' :: "HTML".toList) := by
    rw [htext]
    decide
  have houtcome := outcome_of_listed_extension Table.reachable_listedRule hat hlists (by decide)
    hpath (by decide +kernel) false false
  obtain ⟨-, hdecides, -⟩ := houtcome.1 (by decide) (htext ▸ by decide)
  obtain ⟨d, hd⟩ := hdecides (by rw [htarget]; rfl)
  exact ⟨c, d, hat, htext, hd⟩

/-- The small form of a capital I with a dot is two characters, of which the path has one. -/
theorem not_forall_decides_on_listed : ¬∀ (t : Table) (id : NodeId) (c : CompiledRule)
    (request : Request) (listed e : Text), t.Reachable → t.ruleAt id = .ok c →
    c.ListsExtensions listed → e ≠ [] →
    splitExtension request.path = ('/' :: c.text, '.' :: e) →
    lower e ∈ (splitAt '|' listed).map lower →
    ∃ d, (Action.checkRule id request (c.config.urlOf request) false false).outcome t =
      .ok (some d) := by
  intro h
  obtain ⟨c, hat, hlists, htext, -⟩ := Table.listsExtensions_listedRule
  have hpath : splitExtension (Request.bare "GET" "/v1.0/page.gİf").path =
      ('/' :: c.text, '.' :: "gİf".toList) := by
    rw [htext]
    decide
  have hlisted : lower "gİf" ∈ (splitAt '|' "html|GİF").map lower := by decide +kernel
  obtain ⟨d, hd⟩ := h _ 1 c _ _ _ Table.reachable_listedRule hat hlists (by decide) hpath hlisted
  have hnone := (hlists.decide_listed (by decide) hpath hlisted false).2 (.inl (by decide))
  rw [(Action.checkRule_answers Table.reachable_listedRule.sound _ _ _ _ _).outcome_eq,
    Table.decisionAt, hat] at hd
  cases hnone.symm.trans hd

end UrlRouting

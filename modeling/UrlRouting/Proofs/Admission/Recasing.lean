import Mathlib.Data.List.Forall2
import UrlRouting.Proofs.Admission.Misshapen
import UrlRouting.Proofs.Text.Recased

/-!
Letter case. Methods, extensions, hosts, schemes and the names of headers are compared without
regard to the case of ASCII letters, whichever side they stand on. The domain of the options alone
is compared as it is written, with a host in small letters, so that one with a capital letter is
the domain of no request: `admits_of_recased`.
-/

namespace UrlRouting

open Http

/-- The values are both texts or both none, both null or both not, and their plain texts differ in
the case of ASCII letters only. -/
structure Value.Recased (v w : Value) : Prop where
  text : v.text?.isSome = w.text?.isSome
  null : v.isNull = w.isNull
  plain : Text.Recased v.plain w.plain

/-- The value is a text with a capital letter of ASCII in it. -/
def Value.capitalized (v : Value) : Bool := v.text?.any fun t ↦ t.any Char.isUpper

/-- The names of the options that are texts to be compared with texts of the request. -/
def Options.texts : List Text := ["method", "ext", "deny_ext", "domain"]

/-- The options that are compared with texts of the request differ in case only, and the others do
not differ. -/
structure Options.Recased (m options : Mapping) : Prop where
  texts : ∀ name ∈ Options.texts, Value.Recased (m.named name) (options.named name)
  others : ∀ name ∉ Options.texts, m.named name = options.named name

namespace Http

/-- The headers were given with names that differ in case only, one by one, and with the same
values. -/
inductive Headers.Recased : Headers → Headers → Prop where
  | ofPairs {pairs pairs' : List (Text × Text)}
      (h : List.Forall₂ (fun p q ↦ Text.Recased p.1 q.1 ∧ p.2 = q.2) pairs pairs') :
      Recased (.ofPairs pairs) (.ofPairs pairs')
  | ofMapping {m m' : Mapping} {headers headers' : Headers}
      (h : List.Forall₂ (fun p q ↦ Value.Recased p.1 q.1 ∧ p.2 = q.2) m m')
      (hm : ofMapping m = .ok headers) (hm' : ofMapping m' = .ok headers') :
      Recased headers headers'

/-- The requests differ in case only, but for their parameters, which do not differ. -/
structure Request.Recased (r s : Request) : Prop where
  method : Text.Recased r.method s.method
  path : Text.Recased r.path s.path
  host : Text.Recased r.host s.host
  scheme : Text.Recased r.scheme s.scheme
  headers : Headers.Recased r.headers s.headers
  query : r.query = s.query
  pathParams : r.pathParams = s.pathParams
  rootDomain : Option.Rel Text.Recased r.rootDomain s.rootDomain

end Http

variable {m options : Mapping} {v w : Value} {t : Text} {r s : Request}

namespace Value

theorem Recased.texts (h : Recased v w) :
    (∃ s t, v = .str s ∧ w = .str t ∧ Text.Recased s t) ∨ v.text? = none ∧ w.text? = none := by
  obtain ⟨htext, -, hplain⟩ := h
  cases hv : v.text? with
  | none => simp_all
  | some s =>
    cases hw : w.text? with
    | none => simp [hv, hw] at htext
    | some t =>
      rw [text?_eq_some_iff.mp hv, text?_eq_some_iff.mp hw] at hplain ⊢
      exact .inl ⟨s, t, rfl, rfl, hplain⟩

/-- Where neither text has a capital letter, nothing is left to differ. -/
theorem eq_of_recased {s t : Text} (h : Text.Recased s t) (hs : (str s).capitalized = false)
    (ht : (str t).capitalized = false) : s = t := by
  have hsmall : ∀ {t : Text}, (str t).capitalized = false → ∀ c ∈ t, c.isUpper = false := by
    intro t ht
    simpa [capitalized, text?] using ht
  exact h.eq_of_forall (hsmall hs) (hsmall ht)

end Value

namespace Http

/-! ### Requests -/

namespace Headers

theorem ofEntry_of_textless {entry : Value × Value} (h : entry.1.text? = Option.none) :
    ofEntry entry = .error .missingAttribute := by
  obtain ⟨key, value⟩ := entry
  cases key with
  | str name => cases h
  | _ => rfl

theorem ofEntry_of_recased {p q : Value × Value} (h : Value.Recased p.1 q.1) (hvalue : p.2 = q.2) :
    ofEntry p = ofEntry q := by
  rcases h.texts with ⟨s, t, hp, hq, h⟩ | ⟨hp, hq⟩
  · simp only [ofEntry, hp, hq, hvalue, h.lower_eq]
  · rw [ofEntry_of_textless hp, ofEntry_of_textless hq]

theorem Recased.eq {headers headers' : Headers} (h : Recased headers headers') :
    headers = headers' := by
  cases h with
  | @ofPairs pairs pairs' h =>
    rw [Headers.ofPairs, Headers.ofPairs]
    refine congrArg (fun pairs ↦ Headers.mk (Fields.ofPairs pairs)) ?_
    induction h with
    | nil => rfl
    | cons hentry _ ih => simp only [List.map_cons, hentry.1.lower_eq, hentry.2, ih]
  | @ofMapping m m' _ _ h hm hm' =>
    have hentries : m.mapM ofEntry = m'.mapM ofEntry := by
      clear hm hm'
      induction h with
      | nil => rfl
      | cons hentry _ ih =>
        rw [List.mapM_cons, List.mapM_cons, ofEntry_of_recased hentry.1 hentry.2, ih]
    rw [Headers.ofMapping, hentries] at hm
    exact Except.ok.inj (hm.symm.trans hm')

end Headers

namespace Request

theorem extension_toLower (name : Text) :
    extension (name.map Char.toLower) = (extension name).map Char.toLower := by
  have hpoint : ∀ c : Char, (c.toLower == '.') = (c == '.') := by
    intro c
    rw [Bool.eq_iff_iff, beq_iff_eq, beq_iff_eq, Text.toLower_eq_iff (by decide)]
  rw [extension, extension, Text.cutLast?_toLower (by decide)]
  cases Text.cutLast? '.' name with
  | none => rfl
  | some cut =>
    simp only [Option.map_some, List.all_map, Function.comp_def, hpoint]
    split <;> rfl

theorem ext_toLower (r : Request) : ({ r with path := r.path.map Char.toLower }).ext = r.ext := by
  have hname : ∀ name : Text, Text.lower (extension (name.map Char.toLower)) =
      Text.lower (extension name) := by
    intro name
    rw [extension_toLower, Text.lower_toLower]
  simp only [ext, Text.cutLast?_toLower (d := '/') (by decide)]
  cases Text.cutLast? '/' r.path with
  | none => exact hname r.path
  | some cut => exact hname cut.2

namespace Recased

variable (h : Request.Recased r s)

include h

theorem hostName_eq : r.hostName = s.hostName := by
  simp only [hostName, h.host.lower_eq]

theorem root?_eq : r.root? = s.root? := by
  have hgiven : ∀ {given given' : Option Text}, Option.Rel Text.Recased given given' →
      Text.Recased (given.getD []) (given'.getD []) := by
    intro given given' hrel
    cases hrel with
    | none => rfl
    | some hroot => exact hroot
  have hroot := hgiven h.rootDomain
  simp only [root?, hroot.lower_eq, h.hostName_eq]

theorem subDomain_eq : r.subDomain = s.subDomain := by
  simp only [subDomain, h.root?_eq, h.hostName_eq]

theorem isSecure_eq : r.isSecure = s.isSecure := by
  simp only [isSecure, h.scheme.lower_eq, h.headers.eq]

theorem ext_eq : r.ext = s.ext := by
  have hpath : ({ r with path := r.path.map Char.toLower }).ext =
      ({ s with path := s.path.map Char.toLower }).ext :=
    congrArg (fun path ↦ ({ r with path := path }).ext) h.path
  rw [ext_toLower, ext_toLower] at hpath
  exact hpath

theorem isRoot_eq : (r.path == ['/']) = (s.path == ['/']) := by
  rw [Bool.eq_iff_iff, beq_iff_eq, beq_iff_eq]
  exact h.path.eq_singleton_iff (by decide)

end Recased

/-- The name of a host is in small letters. -/
theorem isUpper_of_mem_hostName {c : Char} (hc : c ∈ r.hostName) : c.isUpper = false := by
  rw [hostName] at hc
  split at hc
  · rcases List.mem_append.mp hc with hc | hc
    · exact Text.isUpper_of_mem_lower (List.takeWhile_subset _ hc)
    · rw [List.mem_singleton.mp hc]
      rfl
  · split at hc
    next name socket hcut =>
      apply Text.isUpper_of_mem_lower (t := r.host)
      rw [Text.eq_append_of_cutLast? hcut]
      exact List.mem_append_left _ hc
    next => exact Text.isUpper_of_mem_lower hc

theorem isUpper_of_mem_subDomain {c : Char} (hc : c ∈ r.subDomain) : c.isUpper = false := by
  rw [subDomain] at hc
  split at hc
  next => cases hc
  next root hroot =>
    dsimp only at hc
    split at hc
    · exact isUpper_of_mem_hostName (List.mem_of_mem_take hc)
    · cases hc

end Request

end Http

/-! ### Checks -/

namespace Check

open Options

theorem inList_of_recased {value listed listed' : Text} (h : Text.Recased listed listed') :
    inList value listed = inList value listed' := by
  have hbars : Text.Recased ('|' :: listed ++ ['|']) ('|' :: listed' ++ ['|']) :=
    ((Text.Recased.refl ['|']).append h).append (.refl ['|'])
  rw [inList, inList, hbars.lower_eq]

theorem inOption_of_recased (h : Value.Recased v w) (hr : r.Recased s) :
    inOption v r = inOption w s := by
  rw [inOption, inOption, h.null, hr.ext_eq, inList_of_recased h.plain]

theorem passesMethod_of_recased (h : Value.Recased (m.named "method") (options.named "method"))
    (hr : r.Recased s) : passesMethod m r = passesMethod options s := by
  rcases h.texts with ⟨listed, listed', hm, hoptions, h⟩ | ⟨hm, hoptions⟩
  · simp only [passesMethod, hm, hoptions, h.isEmpty_eq, h.lower_eq, hr.method.lower_eq]
  · rw [passesMethod_of_textless hm, passesMethod_of_textless hoptions]

/-- The check of the domain apart, no check tells requests or options apart that differ in case
only. -/
theorem holds_of_recased {check : Check} (hdomain : check ≠ .domain) (h : Options.Recased m options)
    (hr : r.Recased s) : check.holds m r = check.holds options s := by
  cases check with
  | predicate => rfl
  | method => exact passesMethod_of_recased (h.texts _ (by decide)) hr
  | negotiation =>
    simp only [holds, passesNegotiation, Request.isAjax, Request.isPjax, Request.isJson,
      hr.headers.eq, h.others "ajax" (by decide), h.others "pjax" (by decide),
      h.others "json" (by decide)]
  | ext =>
    have hext := h.texts "ext" (by decide)
    have hdeny := h.texts "deny_ext" (by decide)
    simp only [holds, passesExt, hr.isRoot_eq, hext.null, inOption_of_recased hext hr,
      inOption_of_recased hdeny hr]
  | domain => exact absurd rfl hdomain
  | scheme =>
    simp only [holds, passesScheme, hr.isSecure_eq, h.others "https" (by decide)]
  | filter =>
    simp only [holds, passesFilter, Request.param?, hr.pathParams, hr.query,
      h.others "filter" (by decide)]

/-- A domain with a capital letter is that of no request. -/
theorem passesDomain_of_capitalized (h : (m.named "domain").capitalized = true) (r : Request) :
    passesDomain m r = false := by
  have hsmall : ∀ {t : Text}, (∀ c ∈ t, c.isUpper = false) →
      (m.named "domain").same (.str t) = false := by
    intro t ht
    rw [Bool.eq_false_iff]
    intro hsame
    rw [Value.same_str_iff.mp hsame] at h
    obtain ⟨c, hc, hcapital⟩ := List.any_eq_true.mp h
    rw [ht c hc] at hcapital
    cases hcapital
  have hnull : (m.named "domain").isNull = false := by
    cases hdomain : m.named "domain" with
    | null =>
      rw [hdomain] at h
      cases h
    | _ => rfl
  rw [passesDomain, hnull, hsmall fun _ ↦ Request.isUpper_of_mem_hostName,
    hsmall fun _ ↦ Request.isUpper_of_mem_subDomain]
  rfl

theorem passesDomain_of_recased (h : Value.Recased (m.named "domain") (options.named "domain"))
    (hm : (m.named "domain").capitalized = false)
    (hoptions : (options.named "domain").capitalized = false) (hr : r.Recased s) :
    passesDomain m r = passesDomain options s := by
  rcases h.texts with ⟨t, t', ht, ht', htext⟩ | ⟨ht, ht'⟩
  · rw [ht] at hm
    rw [ht'] at hoptions
    simp only [passesDomain, ht, ht', Value.eq_of_recased htext hm hoptions, hr.hostName_eq,
      hr.subDomain_eq]
  · rw [passesDomain_of_textless ht, passesDomain_of_textless ht', h.null]

end Check

namespace Admission

/-- The verdict on a request of the checks that cannot fail. -/
def verdict (options : Mapping) (request : Request) : Bool :=
  Check.all.all fun check ↦ check.holds options request

theorem admits_eq_verdict (h : (options.named "match").isCallable = false) (rule : Option Text)
    (request : Request) : admits options rule request = .ok (verdict options request) := by
  rw [admits_eq, Check.passesPredicate_of_uncallable h]
  rfl

theorem verdict_of_capitalized (h : (m.named "domain").capitalized = true) (r : Request) :
    verdict m r = false := by
  rw [verdict, List.all_eq_false]
  exact ⟨.domain, Check.mem_all _, by simp [Check.holds, Check.passesDomain_of_capitalized h]⟩

theorem verdict_of_recased (h : Options.Recased m options) (hr : r.Recased s)
    (hm : (m.named "domain").capitalized = false)
    (hoptions : (options.named "domain").capitalized = false) :
    verdict m r = verdict options s := by
  have hholds : ∀ check : Check, check.holds m r = check.holds options s := by
    intro check
    by_cases hdomain : check = .domain
    · subst hdomain
      exact Check.passesDomain_of_recased (h.texts _ (by decide)) hm hoptions hr
    · exact Check.holds_of_recased hdomain h hr
  simp only [verdict, hholds]

theorem rejection?_of_recased (h : Options.Recased m options) (hr : r.Recased s)
    (hdomain : m.named "domain" = options.named "domain")
    (hmatch : (options.named "match").isCallable = false) (rule rule' : Option Text) :
    rejection? m rule r = rejection? options rule' s := by
  have hmatch' : (m.named "match").isCallable = false := by
    rw [h.others "match" (by decide)]
    exact hmatch
  apply rejection?_congr
  intro check
  by_cases hpredicate : check = .predicate
  · simp only [hpredicate, Check.passes, Check.passesPredicate_of_uncallable hmatch,
      Check.passesPredicate_of_uncallable hmatch']
  · rw [Check.passes_eq_holds hpredicate, Check.passes_eq_holds hpredicate]
    by_cases hcheck : check = .domain
    · simp only [hcheck, Check.holds, Check.passesDomain, hdomain, hr.hostName_eq,
        hr.subDomain_eq]
    · rw [Check.holds_of_recased hcheck h hr]

end Admission

/-- Case makes no difference to admission, but for that of the domain in the options: with a capital
letter in it, nothing is admitted. -/
theorem admits_of_recased (h : Options.Recased m options) (hr : r.Recased s)
    (hmatch : (options.named "match").isCallable = false) (rule rule' : Option Text) :
    (m.named "domain" = options.named "domain" →
      Admission.rejection? m rule r = Admission.rejection? options rule' s) ∧
    ∃ verdict : Bool,
      Admission.admits m rule r = .ok (verdict && !(m.named "domain").capitalized) ∧
      Admission.admits options rule' s =
        .ok (verdict && !(options.named "domain").capitalized) := by
  have hmatch' : (m.named "match").isCallable = false := by
    rw [h.others "match" (by decide)]
    exact hmatch
  refine ⟨fun hdomain ↦ Admission.rejection?_of_recased h hr hdomain hmatch rule rule', ?_⟩
  rw [Admission.admits_eq_verdict hmatch', Admission.admits_eq_verdict hmatch]
  cases hm : (m.named "domain").capitalized with
  | true =>
    refine ⟨Admission.verdict options s, ?_, ?_⟩
    · simp [Admission.verdict_of_capitalized hm]
    · cases hoptions : (options.named "domain").capitalized with
      | true => simp [Admission.verdict_of_capitalized hoptions]
      | false => simp
  | false =>
    refine ⟨Admission.verdict m r, by simp, ?_⟩
    cases hoptions : (options.named "domain").capitalized with
    | true => simp [Admission.verdict_of_capitalized hoptions]
    | false => simp [Admission.verdict_of_recased h hr hm hoptions]

namespace Options.Recased

theorem refl (m : Mapping) : Options.Recased m m where
  texts _ _ := ⟨rfl, rfl, rfl⟩
  others _ _ := rfl

theorem set (h : Options.Recased m options) {name : Text} (hname : name ∈ Options.texts)
    {t t' : Text} (ht : Text.Recased t t') : Options.Recased (Entries.set m (.str name) (.str t))
      (Entries.set options (.str name) (.str t')) where
  texts other hother := by
    by_cases he : other = name
    · subst he
      rw [Mapping.named_set_self, Mapping.named_set_self]
      exact ⟨rfl, rfl, ht⟩
    · rw [Mapping.named_set_of_ne he, Mapping.named_set_of_ne he]
      exact h.texts other hother
  others other hother := by
    have he : other ≠ name := fun he ↦ hother (he ▸ hname)
    rw [Mapping.named_set_of_ne he, Mapping.named_set_of_ne he]
    exact h.others other hother

end Options.Recased

/-- Options that admit secure requests for pages, by the given methods and with the given extension,
on a domain. -/
def Options.ofPages (method ext domain : Text) : Mapping :=
  Entries.set (Entries.set (Entries.set [("https", .bool true)] (.str "method") (.str method))
    (.str "ext") (.str ext)) (.str "domain") (.str domain)

theorem Options.recased_ofPages {method method' ext ext' domain domain' : Text}
    (hmethod : Text.Recased method method') (hext : Text.Recased ext ext')
    (hdomain : Text.Recased domain domain') :
    Options.Recased (ofPages method ext domain) (ofPages method' ext' domain') :=
  (((Recased.refl _).set (by decide) hmethod).set (by decide) hext).set (by decide) hdomain

/-- A secure request on a host, with a header that is given a name. -/
def Http.Request.forPage (method path host scheme header : Text) : Request :=
  { Request.bare method path with
    host := host
    scheme := scheme
    headers := .ofPairs [(header, "yes")] }

theorem Http.Request.recased_forPage {method method' path path' host host' scheme scheme' header
    header' : Text} (hmethod : Text.Recased method method') (hpath : Text.Recased path path')
    (hhost : Text.Recased host host') (hscheme : Text.Recased scheme scheme')
    (hheader : Text.Recased header header') :
    Request.Recased (forPage method path host scheme header)
      (forPage method' path' host' scheme' header') where
  method := hmethod
  path := hpath
  host := hhost
  scheme := hscheme
  headers := .ofPairs (.cons ⟨hheader, rfl⟩ .nil)
  query := rfl
  pathParams := rfl
  rootDomain := .none

theorem admits_of_recased_ofPages : ∃ (m options : Mapping) (r s : Request),
    m = Options.ofPages "Get|post" "HTML" "api" ∧
    r = .forPage "get" "/a.Html" "API.shop.org:80" "https" "X-PJAX" ∧
    s = .forPage "GET" "/a.hTML" "api.SHOP.org:80" "HTTPS" "x-Pjax" ∧
    Options.Recased m options ∧ r.Recased s ∧ (options.named "match").isCallable = false ∧
    Admission.admits m none r = .ok true ∧ Admission.admits options none s = .ok true := by
  let m := Options.ofPages "Get|post" "HTML" "api"
  let options := Options.ofPages "gET|Post" "html" "api"
  let r : Request := .forPage "get" "/a.Html" "API.shop.org:80" "https" "X-PJAX"
  let s : Request := .forPage "GET" "/a.hTML" "api.SHOP.org:80" "HTTPS" "x-Pjax"
  have hoptions : Options.Recased m options :=
    Options.recased_ofPages (by decide) (by decide) (by decide)
  have hr : r.Recased s :=
    Request.recased_forPage (by decide) (by decide) (by decide) (by decide) (by decide)
  have hmatch : (options.named "match").isCallable = false := by decide
  obtain ⟨-, verdict, hm, hboth⟩ := admits_of_recased hoptions hr hmatch none none
  have hverdict : Admission.verdict m r = true := by decide
  have hdomain : (m.named "domain").capitalized = false := by decide
  have hdomain' : (options.named "domain").capitalized = false := by decide
  rw [Admission.admits_eq_verdict (by decide), hverdict, hdomain, Except.ok.injEq] at hm
  refine ⟨m, options, r, s, rfl, rfl, rfl, hoptions, hr, hmatch, ?_, ?_⟩
  · rw [Admission.admits_eq_verdict (by decide), hverdict]
  · rw [hboth, hdomain', ← hm]

/-- Not every change of case leaves admission alone: a domain in capital letters admits nothing. -/
theorem not_forall_admits_recased : ¬∀ (m options : Mapping) (rule : Option Text) (r s : Request),
    Options.Recased m options → r.Recased s → (options.named "match").isCallable = false →
    Admission.admits m rule r = Admission.admits options rule s := by
  intro h
  let m := Options.ofPages "get" "html" "API"
  let options := Options.ofPages "get" "html" "api"
  let r : Request := .forPage "GET" "/a.html" "api.shop.org" "https" "Accept"
  have hoptions : Options.Recased m options := Options.recased_ofPages rfl rfl (by decide)
  have hr : r.Recased r := Request.recased_forPage rfl rfl rfl rfl rfl
  have hmatch : (options.named "match").isCallable = false := by decide
  have hsame := h m options none r r hoptions hr hmatch
  have hcapitals : Admission.verdict m r = false := by decide
  have hsmall : Admission.verdict options r = true := by decide
  rw [Admission.admits_eq_verdict (by decide), Admission.admits_eq_verdict hmatch, hcapitals,
    hsmall] at hsame
  cases hsame

end UrlRouting

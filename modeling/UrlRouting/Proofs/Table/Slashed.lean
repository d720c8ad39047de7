import UrlRouting.Proofs.Table.Closed
import UrlRouting.Proofs.Table.Prefix
import UrlRouting.Proofs.Variables.Unconsumed

/-!
Slashes at the end, where a rule disregards them. A rule string with one at its end has the same
path, so that it matches and captures the same, and it comes to the same decisions but for their
variables: parameters are counted off by the rule string, slash at its end included
(`CompiledRule.SkipsMore`). Delimiters at the end of a URL make no difference at all.
-/

namespace UrlRouting

open Http

/-- The fault without the rule string that it names. -/
def Fault.unnamed : Fault → Fault
  | .badPattern _ => .badPattern []
  | fault => fault

section MapError

variable {α β : Type} {x y : Except Fault α}

theorem mapError_eq_ok {g : Fault → Fault} {a : α} : x.mapError g = .ok a ↔ x = .ok a := by
  cases x with
  | error fault => exact ⟨nofun, nofun⟩
  | ok b => exact Iff.rfl

theorem mapError_bind (x : Except Fault α) (f : α → Except Fault β) (g : Fault → Fault) :
    (x >>= f).mapError g = x.mapError g >>= fun a ↦ (f a).mapError g := by
  cases x <;> rfl

theorem mapError_map (x : Except Fault α) (f : α → β) (g : Fault → Fault) :
    (x.map f).mapError g = (x.mapError g).map f := by
  cases x <;> rfl

theorem Corresponds.mono {R S : α → α → Prop} (h : Corresponds R x y)
    (hrel : ∀ a b, R a b → S a b) : Corresponds S x y := by
  cases h with
  | error fault => exact .error fault
  | ok hab => exact .ok (hrel _ _ hab)

theorem Corresponds.exists_some {R : α → α → Prop} {a : α} {y : Except Fault (Option α)}
    (h : Corresponds (Option.Rel R) (.ok (some a)) y) : ∃ b, y = .ok (some b) ∧ R a b := by
  cases h with
  | ok hab =>
    cases hab with
    | some hab => exact ⟨_, rfl, hab⟩

theorem Corresponds.mapError {R : α → α → Prop} (h : Corresponds R x y) (g : Fault → Fault) :
    Corresponds R (x.mapError g) (y.mapError g) := by
  cases h with
  | error fault => exact .error (g fault)
  | ok hab => exact .ok hab

end MapError

namespace Text

theorem trimRight_append_replicate (c : Char) (t : Text) (n : Nat) :
    trimRight (· == c) (t ++ List.replicate n c) = trimRight (· == c) t := by
  induction n with
  | zero => rw [List.replicate_zero, List.append_nil]
  | succ n ih =>
    have hlast := Template.trimRight_append_of_pos (p := (· == c)) (beq_self_eq_true c)
    rw [List.replicate_succ', ← List.append_assoc, hlast, ih]

end Text

namespace Variables

/-- A slash more in the rule string takes one part more off the URL. -/
theorem unconsumed_slash (rule url mark : Text) :
    unconsumed (rule ++ ['/']) url mark = (unconsumed rule url mark).tail := by
  rw [unconsumed, unconsumed, List.count_append, List.count_singleton_self, List.tail_drop]

end Variables

namespace Captures

variable {captures : Captures} {delimiter : Value}

theorem anyHoldsDelimiter_of_mem {mark name v : Text} (hmem : (name, some v) ∈ captures)
    (hv : Text.occursIn mark v = true) :
    Variables.anyHoldsDelimiter (.str mark)
      (Entries.values (captures.toMapping.filter fun entry ↦ !entry.2.isNull)) = .ok true := by
  induction captures with
  | nil => cases hmem
  | cons first rest ih =>
    obtain ⟨name', part⟩ := first
    have hrest (h : (name, some v) ∈ rest) := ih h
    cases part with
    | none =>
      rcases List.mem_cons.mp hmem with he | hmem
      · cases he
      · exact hrest hmem
    | some w =>
      have hfirst : Variables.holdsDelimiter (.str mark) (.str w) = .ok (Text.occursIn mark w) :=
        rfl
      change Variables.anyHoldsDelimiter _ (.str w :: _) = _
      rw [Variables.anyHoldsDelimiter, hfirst]
      cases hw : Text.occursIn mark w with
      | true => rfl
      | false =>
        rcases List.mem_cons.mp hmem with he | hmem
        · obtain ⟨-, he⟩ := Prod.mk.inj he
          rw [← Option.some.inj he, hv] at hw
          cases hw
        · exact hrest hmem

/-- Parameters cannot be separated by what is not a text. -/
theorem tail_eq_error (h : ∀ mark, delimiter ≠ .str mark) (rule url : Text) :
    Variables.tail captures.toMapping rule url delimiter = .error .wrongType := by
  have hextra : Variables.extra rule url delimiter = .error .wrongType := by
    cases delimiter with
    | str mark => exact absurd rfl (h mark)
    | _ => rfl
  have hfirst (w : Text) : Variables.holdsDelimiter delimiter (.str w) = .error .wrongType := by
    cases delimiter with
    | str mark => exact absurd rfl (h mark)
    | _ => rfl
  rw [Variables.tail]
  induction captures with
  | nil => exact hextra
  | cons first rest ih =>
    obtain ⟨name, part⟩ := first
    cases part with
    | none => exact ih
    | some w =>
      change (Variables.anyHoldsDelimiter _ (.str w :: _) >>= _) = _
      rw [Variables.anyHoldsDelimiter, hfirst]
      rfl

end Captures

namespace CompiledRule

variable {c : CompiledRule} {shown : Text} {captures : Captures} {request : Request} {url : Text}
  {asked complete anyDomain : Bool} {d d' : Dispatch}

/-- The rule with a slash at the end of its rule string. -/
def slashed (c : CompiledRule) (shown : Text) : CompiledRule :=
  { c with text := c.text ++ ['/'], shown := shown }

/-- The rule string has an end that is not a slash, and slashes at the end are disregarded. -/
structure DropsSlash (c : CompiledRule) : Prop where
  ne_nil : c.text ≠ []
  last : c.text.getLast? ≠ some '/'
  dropsEnd : c.dropsEnd = true

theorem on_slashed (c : CompiledRule) (shown : Text) (anyDomain : Bool) :
    (c.slashed shown).on anyDomain = (c.on anyDomain).slashed shown := by
  cases anyDomain <;> rfl

theorem DropsSlash.on (h : c.DropsSlash) (anyDomain : Bool) : (c.on anyDomain).DropsSlash := by
  cases anyDomain with
  | false => exact h
  | true => exact ⟨h.ne_nil, h.last, c.dropsEnd_onAnyDomain.trans h.dropsEnd⟩

/-! ### Matches -/

namespace DropsSlash

variable (h : c.DropsSlash)

include h

theorem text_ne : c.text ≠ ['/'] := fun he ↦ h.last (by rw [he]; rfl)

theorem slashed_text_ne (shown : Text) : (c.slashed shown).text ≠ ['/'] := by
  intro he
  change c.text ++ ['/'] = [] ++ ['/'] at he
  exact h.ne_nil (List.append_cancel_right he)

theorem path_slashed (shown : Text) : (c.slashed shown).path = c.path := by
  have htrim : Text.trimRight (· == '/') (c.text ++ ['/']) =
      Text.trimRight (· == '/') c.text := Template.trimRight_append_of_pos (by decide) _
  have hdrops : (c.slashed shown).dropsEnd = true := h.dropsEnd
  rw [path, path, if_neg (h.slashed_text_ne shown), if_neg h.text_ne, hdrops, h.dropsEnd,
    if_pos rfl, if_pos rfl]
  change c.config.delimiter :: Text.replaceChar '/' _ (Text.trimRight _ (c.text ++ ['/'])) =
    c.config.delimiter :: Text.replaceChar '/' _ (Text.trimRight _ c.text)
  rw [htrim]
  rfl

theorem trimmed_slashed (shown ext url : Text) :
    (c.slashed shown).trimmed ext url = c.trimmed ext url := by
  have hflag : ((c.slashed shown).dropsEnd && (c.slashed shown).text != ['/']) =
      (c.dropsEnd && c.text != ['/']) := by
    have hdrops : (c.slashed shown).dropsEnd = true := h.dropsEnd
    rw [hdrops, h.dropsEnd, bne_iff_ne.mpr (h.slashed_text_ne shown), bne_iff_ne.mpr h.text_ne]
  rw [trimmed, trimmed, hflag]
  rfl

theorem regex_slashed (shown : Text) (complete : Bool) :
    ((c.slashed shown).regex complete).mapError Fault.unnamed =
      (c.regex complete).mapError Fault.unnamed := by
  have hdrops : (c.slashed shown).dropsEnd = c.dropsEnd := rfl
  have hexpression : (c.slashed shown).expression complete = c.expression complete := by
    rw [expression, expression, tokens, tokens, h.path_slashed shown, hdrops]
    rfl
  rw [regex, regex, hexpression]
  cases c.expression complete with
  | error fault => rfl
  | ok text =>
    change ((c.slashed shown).read text).mapError _ = (c.read text).mapError _
    have hcase : (c.slashed shown).ignoresCase = c.ignoresCase := rfl
    rw [read, read, hcase]
    rcases Regex.parse c.ignoresCase text with (_ | _) | r <;> rfl

theorem capture_slashed (shown url : Text) (complete : Bool) :
    ((c.slashed shown).capture url complete).mapError Fault.unnamed =
      (c.capture url complete).mapError Fault.unnamed := by
  have hdecided : (c.slashed shown).decided? url complete = c.decided? url complete := by
    simp only [decided?, matchesLiterally, h.path_slashed shown]
    rfl
  rw [capture, capture, hdecided]
  cases c.decided? url complete with
  | some outcome => rfl
  | none =>
    change (((c.slashed shown).regex complete).map _).mapError _ =
      ((c.regex complete).map _).mapError _
    rw [mapError_map, mapError_map, h.regex_slashed]
    rfl

end DropsSlash

/-! ### Decisions -/

/-- The second decision is the first one but for the rule string and the variables. These are read
from one part of the URL less, if at all. -/
structure SkipsMore (c : CompiledRule) (url : Text) (captures : Captures) (d d' : Dispatch) :
    Prop where
  eq : d' = { d with rule := c.text ++ ['/'], vars := d'.vars }
  vars : ∃ mark, c.parameterDelimiter c.options = .str mark ∧
    ((∃ name v, (name, some v) ∈ captures ∧ Text.occursIn mark v = true) → d'.vars = d.vars) ∧
    ((∀ name v, (name, some v) ∈ captures → Text.occursIn mark v = false) →
      d.vars = c.varsWith captures (Variables.unconsumed c.text url mark) ∧
      d'.vars = c.varsWith captures (Variables.unconsumed c.text url mark).tail)

/-- Where a captured value holds the delimiter of the parameters, or the rule string has as many
parts as the URL, the variables are the same. -/
theorem SkipsMore.vars_eq (h : c.SkipsMore url captures d d')
    (hrest : ∀ mark, c.parameterDelimiter c.options = .str mark →
      (∃ name v, (name, some v) ∈ captures ∧ Text.occursIn mark v = true) ∨
        Variables.unconsumed c.text url mark = []) : d'.vars = d.vars := by
  obtain ⟨mark, hmark, hheld, hread⟩ := h.vars
  by_cases hholds : ∃ name v, (name, some v) ∈ captures ∧ Text.occursIn mark v = true
  · exact hheld hholds
  · obtain ⟨hd, hd'⟩ := hread fun name v hmem ↦
      Bool.eq_false_iff.mpr fun ht ↦ hholds ⟨name, v, hmem, ht⟩
    rw [hd, hd', (hrest mark hmark).resolve_left hholds, List.tail_nil]

/-- The variables of a match are read by the rule with a slash at its end from one part less, unless
a captured value keeps either rule from reading any. -/
theorem extract_slashed (captures : Captures) (url : Text)
    (hmark : ∃ mark, c.parameterDelimiter c.options = .str mark) :
    ∃ vars vars', Variables.extract captures.toMapping c.text url c.patterns c.options
        (c.parameterDelimiter c.options) = .ok vars ∧
      Variables.extract captures.toMapping (c.text ++ ['/']) url c.patterns c.options
        (c.parameterDelimiter c.options) = .ok vars' ∧
      ∀ d : Dispatch, c.SkipsMore url captures { d with vars := vars }
        { d with rule := c.text ++ ['/'], vars := vars' } := by
  obtain ⟨mark, hmark⟩ := hmark
  by_cases hholds : ∃ name v, (name, some v) ∈ captures ∧ Text.occursIn mark v = true
  · obtain ⟨name, v, hmem, hv⟩ := hholds
    have htail (rule : Text) : Variables.tail captures.toMapping rule url (.str mark) =
        .ok [] := by
      rw [Variables.tail, Captures.anyHoldsDelimiter_of_mem hmem hv]
      rfl
    rw [Variables.extract_eq, Variables.extract_eq, hmark, htail, htail]
    refine ⟨_, _, rfl, rfl, fun d ↦ ⟨rfl, mark, hmark, fun _ ↦ rfl, fun hnone ↦ ?_⟩⟩
    rw [hnone name v hmem] at hv
    cases hv
  · have hnone : ∀ name v, (name, some v) ∈ captures → Text.occursIn mark v = false :=
      fun name v hmem ↦ Bool.eq_false_iff.mpr fun ht ↦ hholds ⟨name, v, hmem, ht⟩
    have hslashed : Variables.extract captures.toMapping (c.text ++ ['/']) url c.patterns c.options
        (c.parameterDelimiter c.options) = _ :=
      extract_eq_varsWith (c := c.slashed []) hmark hnone
    refine ⟨_, _, extract_eq_varsWith hmark hnone, hslashed, fun d ↦
      ⟨rfl, mark, hmark, fun h ↦ absurd h hholds, fun _ ↦ ⟨rfl, ?_⟩⟩⟩
    rw [← Variables.unconsumed_slash]
    rfl

theorem decision_slashed (shown : Text) (request : Request) (url : Text) (captures : Captures) :
    Corresponds (c.SkipsMore url captures)
      (c.decision request url captures.toMapping c.options)
      ((c.slashed shown).decision request url captures.toMapping c.options) := by
  have hsame : (c.slashed shown).parameterDelimiter c.options = c.parameterDelimiter c.options :=
    rfl
  rw [decision, decision, hsame]
  change Corresponds _ (Variables.extract captures.toMapping c.text url c.patterns c.options
      (c.parameterDelimiter c.options) >>= _)
    (Variables.extract captures.toMapping (c.text ++ ['/']) url c.patterns c.options
      (c.parameterDelimiter c.options) >>= _)
  by_cases hmark : ∃ mark, c.parameterDelimiter c.options = .str mark
  · obtain ⟨vars, vars', hvars, hvars', hskips⟩ := extract_slashed captures url hmark
    rw [hvars, hvars']
    change Corresponds _ (Dispatch.resolve request c.text _ vars _ _ _)
      (Dispatch.resolve request (c.text ++ ['/'])
        (Target.substitute captures.toMapping c.options c.target) vars' c.options
        c.config.namespaceMark (Target.substitute [] c.options c.target))
    rw [Dispatch.resolve, Dispatch.resolve]
    cases Target.handler (Target.substitute captures.toMapping c.options c.target) c.options
      c.config.namespaceMark (Target.substitute [] c.options c.target) with
    | error fault => exact .error fault
    | ok handler => exact .ok (hskips ⟨request, c.text, _, vars, c.options, handler⟩)
  · have hnone : ∀ mark, c.parameterDelimiter c.options ≠ .str mark := not_exists.mp hmark
    rw [Variables.extract_eq, Variables.extract_eq, Captures.tail_eq_error hnone,
      Captures.tail_eq_error hnone]
    exact .error _

/-- The custom check, if there is one, does not tell the rule strings apart. -/
def ChecksAlike (c : CompiledRule) (request : Request) : Prop :=
  Check.passesPredicate c.options (some (c.text ++ ['/'])) request =
    Check.passesPredicate c.options (some c.text) request

theorem ChecksAlike.rejection? (h : c.ChecksAlike request) :
    Admission.rejection? c.options (some (c.text ++ ['/'])) request =
      Admission.rejection? c.options (some c.text) request := by
  rw [Admission.rejection?, Admission.rejection?, Check.all, Admission.firstFailure,
    Admission.firstFailure, Check.passes, Check.passes, h]
  rfl

theorem ChecksAlike.on (h : c.ChecksAlike request) (anyDomain : Bool) :
    (c.on anyDomain).ChecksAlike request := by
  cases anyDomain with
  | false => exact h
  | true =>
    change Check.passesPredicate c.onAnyDomain.options _ _ =
      Check.passesPredicate c.onAnyDomain.options _ _
    rw [Check.passesPredicate, Check.passesPredicate, named_onAnyDomain (by decide)]
    exact h

/-- Both rules decide alike on whatever is captured. -/
theorem decide_slashed (h : c.DropsSlash) (hchecks : c.ChecksAlike request) (shown url : Text)
    (asked : Bool) : Corresponds (Option.Rel fun d d' ↦ ∃ captures,
        c.capture (c.trimmed request.ext url) (c.isComplete asked) = .ok (some captures) ∧
        c.SkipsMore (c.trimmed request.ext url) captures d d')
      ((c.decide request url asked).mapError Fault.unnamed)
      (((c.slashed shown).decide request url asked).mapError Fault.unnamed) := by
  have hcomplete : (c.slashed shown).isComplete asked = c.isComplete asked := rfl
  have hcapture := h.capture_slashed shown (c.trimmed request.ext url) (c.isComplete asked)
  rw [decide_eq_decideOn, decide_eq_decideOn, h.trimmed_slashed, hcomplete, decideOn, decideOn]
  change Corresponds _ ((Admission.rejection? c.options (some c.text) request >>= _).mapError _)
    ((Admission.rejection? c.options (some (c.text ++ ['/'])) request >>= _).mapError _)
  rw [hchecks.rejection?, mapError_bind, mapError_bind]
  refine (Corresponds.refl (R := Eq) (fun _ ↦ rfl) _).bind fun rejection _ _ hsame ↦ ?_
  subst hsame
  cases rejection with
  | some failed => exact .ok .none
  | none =>
    change Corresponds _
      ((c.capture (c.trimmed request.ext url) (c.isComplete asked) >>= _).mapError _)
      (((c.slashed shown).capture (c.trimmed request.ext url) (c.isComplete asked) >>=
        _).mapError _)
    rw [mapError_bind, mapError_bind, hcapture]
    refine (Corresponds.refl (R := Eq) (fun _ ↦ rfl) _).bind fun found _ hfound hsame ↦ ?_
    subst hsame
    cases found with
    | none => exact .ok .none
    | some captures =>
      have hdecision := (decision_slashed (c := c) shown request (c.trimmed request.ext url)
        captures).mapError Fault.unnamed
      change Corresponds _
        ((c.decision request (c.trimmed request.ext url) captures.toMapping c.options >>=
          _).mapError _)
        (((c.slashed shown).decision request (c.trimmed request.ext url) captures.toMapping
          c.options >>= _).mapError _)
      rw [mapError_bind, mapError_bind]
      exact hdecision.bind fun d d' _ hskips ↦
        .ok (.some ⟨captures, mapError_eq_ok.mp hfound, hskips⟩)

theorem skipsMore_on (anyDomain : Bool) (h : (c.on anyDomain).SkipsMore url captures d d') :
    c.SkipsMore url captures d d' := by
  have htext : (c.on anyDomain).text = c.text := by cases anyDomain <;> rfl
  have hread : (c.on anyDomain).varsWith captures = c.varsWith captures := by
    cases anyDomain with
    | false => rfl
    | true =>
      change c.onAnyDomain.varsWith captures = _
      funext segments
      rw [varsWith, varsWith, named_onAnyDomain (by decide)]
      rfl
  obtain ⟨heq, mark, hmark, hvars⟩ := h
  rw [htext] at heq
  rw [c.parameterDelimiter_on] at hmark
  rw [hread, htext] at hvars
  exact ⟨heq, mark, hmark, hvars⟩

/-! ### URLs -/

/-- Delimiters at the end of a URL go before the rule is compared with it. -/
theorem trimmed_append (hend : c.dropsEnd = true) (htext : c.text ≠ ['/']) (ext url : Text)
    (n : Nat) :
    c.trimmed ext (url ++ List.replicate n c.config.delimiter) = c.trimmed ext url := by
  rw [trimmed, trimmed, hend, bne_iff_ne.mpr htext, Bool.and_self, if_pos rfl, if_pos rfl,
    Text.trimRight_append_replicate]

end CompiledRule

/-! ### Rules in a table -/

section Rules

variable {t u : Table} {id id' : NodeId} {c : CompiledRule}

theorem outcome_of_ruleAt (ht : t.Reachable) (hat : t.ruleAt id = .ok c) (request : Request)
    (url : Text) (asked anyDomain : Bool) :
    (Action.matchPath id url asked).outcome t =
      c.capture (c.trimmed [] url) (c.isComplete asked) ∧
    (Action.checkRule id request url asked anyDomain).outcome t =
      (c.on anyDomain).decide request url asked := by
  rw [(Action.matchPath_answers ht.sound id url asked).outcome_eq,
    (Action.checkRule_answers ht.sound id request url asked anyDomain).outcome_eq,
    Table.capturesAt, Table.decisionAt, hat]
  exact ⟨rfl, rfl⟩

/-- A rule that disregards slashes at the end does so in URLs. -/
theorem outcome_append_delimiters (ht : t.Reachable) (hat : t.ruleAt id = .ok c)
    (hend : c.dropsEnd = true) (htext : c.text ≠ ['/']) (request : Request) (url : Text) (n : Nat)
    (asked anyDomain : Bool) :
    (Action.matchPath id (url ++ List.replicate n c.config.delimiter) asked).outcome t =
      (Action.matchPath id url asked).outcome t ∧
    (Action.checkRule id request (url ++ List.replicate n c.config.delimiter) asked
        anyDomain).outcome t =
      (Action.checkRule id request url asked anyDomain).outcome t := by
  obtain ⟨hmatch, hcheck⟩ := outcome_of_ruleAt ht hat request url asked anyDomain
  obtain ⟨hmatch', hcheck'⟩ := outcome_of_ruleAt ht hat request
    (url ++ List.replicate n c.config.delimiter) asked anyDomain
  rw [hmatch, hmatch', hcheck, hcheck', CompiledRule.decide_eq_decideOn,
    CompiledRule.decide_eq_decideOn, c.trimmed_on, c.trimmed_on, c.trimmed_append hend htext,
    c.trimmed_append hend htext]
  exact ⟨rfl, rfl⟩

/-- A rule that disregards slashes at the end matches and decides as it does with one at the end of
its rule string, but for the variables; a custom check must not tell the rule strings apart. Each of
both disregards delimiters at the end of URLs. -/
theorem outcome_slashed (ht : t.Reachable) (hu : u.Reachable) (hat : t.ruleAt id = .ok c)
    {shown : Text} (hat' : u.ruleAt id' = .ok (c.slashed shown)) (h : c.DropsSlash)
    (request : Request) (url : Text) (asked anyDomain : Bool) :
    ((Action.matchPath id' url asked).outcome u).mapError Fault.unnamed =
      ((Action.matchPath id url asked).outcome t).mapError Fault.unnamed ∧
    (c.ChecksAlike request → Corresponds (Option.Rel fun d d' ↦ ∃ captures,
        c.capture (c.trimmed request.ext url) (c.isComplete asked) = .ok (some captures) ∧
        c.SkipsMore (c.trimmed request.ext url) captures d d')
      (((Action.checkRule id request url asked anyDomain).outcome t).mapError Fault.unnamed)
      (((Action.checkRule id' request url asked anyDomain).outcome u).mapError Fault.unnamed)) ∧
    ∀ n,
      ((Action.matchPath id (url ++ List.replicate n c.config.delimiter) asked).outcome t =
          (Action.matchPath id url asked).outcome t ∧
        (Action.checkRule id request (url ++ List.replicate n c.config.delimiter) asked
            anyDomain).outcome t =
          (Action.checkRule id request url asked anyDomain).outcome t) ∧
      (Action.matchPath id' (url ++ List.replicate n c.config.delimiter) asked).outcome u =
          (Action.matchPath id' url asked).outcome u ∧
        (Action.checkRule id' request (url ++ List.replicate n c.config.delimiter) asked
            anyDomain).outcome u =
          (Action.checkRule id' request url asked anyDomain).outcome u := by
  obtain ⟨hmatch, hcheck⟩ := outcome_of_ruleAt ht hat request url asked anyDomain
  obtain ⟨hmatch', hcheck'⟩ := outcome_of_ruleAt hu hat' request url asked anyDomain
  refine ⟨?_, fun hchecks ↦ ?_, fun n ↦ ⟨?_, ?_⟩⟩
  · rw [hmatch, hmatch', h.trimmed_slashed]
    exact h.capture_slashed shown _ _
  · rw [hcheck, hcheck', c.on_slashed]
    have hdecides := CompiledRule.decide_slashed (h.on anyDomain) (hchecks.on anyDomain) shown url
      asked
    rw [c.capture_on, c.trimmed_on] at hdecides
    refine hdecides.mono fun found found' hfound ↦ ?_
    cases hfound with
    | none => exact .none
    | some hskips =>
      obtain ⟨captures, hcaptures, hskips⟩ := hskips
      exact .some ⟨captures, hcaptures, CompiledRule.skipsMore_on anyDomain hskips⟩
  · exact outcome_append_delimiters ht hat h.dropsEnd h.text_ne request url n asked anyDomain
  · exact outcome_append_delimiters hu hat' h.dropsEnd (h.slashed_text_ne shown) request url n asked
      anyDomain

end Rules

/-- Two rules that disregard slashes at the end, one with such a slash in its rule string. -/
def Table.slashRules : Table := empty.afterAll
  [.addRouter [],
    .routeOn 0 { rule := "user/<id>", target := "x", patterns := [("id", "int")],
                 options := [(.str "remove_slash", .bool true)] },
    .routeOn 0 { rule := "user/<id>/", target := "x", patterns := [("id", "int")],
                 options := [(.str "remove_slash", .bool true)] }]

theorem Table.reachable_slashRules : slashRules.Reachable := ⟨_, by decide, rfl⟩

theorem Table.ruleAt_slashRules : ∃ c shown, slashRules.ruleAt 1 = .ok c ∧
    slashRules.ruleAt 2 = .ok (c.slashed shown) ∧ c.DropsSlash ∧
    c.text = "user/<id>".toList ∧ c.config.delimiter = '/' ∧
    c.parameterDelimiter c.options = .str "/" ∧ (∀ request, c.ChecksAlike request) := by
  obtain ⟨c, hin⟩ : ∃ c, slashRules.inEffect? 1 = some c := ⟨_, rfl⟩
  obtain ⟨shown, hin'⟩ : ∃ shown, slashRules.inEffect? 2 =
      (slashRules.inEffect? 1).map (·.slashed shown) := ⟨_, rfl⟩
  have htext : (slashRules.inEffect? 1).map CompiledRule.text = some "user/<id>".toList := rfl
  have hdrops : (slashRules.inEffect? 1).map CompiledRule.dropsEnd = some true := rfl
  have hdelimiter : (slashRules.inEffect? 1).map (·.config.delimiter) = some '/' := rfl
  have hmark : (slashRules.inEffect? 1).map (fun c ↦ c.parameterDelimiter c.options) =
      some (.str "/") := rfl
  have hchecks : (slashRules.inEffect? 1).map (fun c ↦ Mapping.named c.options "match") =
      some .null := rfl
  rw [hin, Option.map_some, Option.some.injEq] at htext hdrops hdelimiter hmark hchecks
  rw [hin, Option.map_some] at hin'
  refine ⟨c, shown, ruleAt_of_inEffect? hin (by decide +kernel),
    ruleAt_of_inEffect? hin' (by decide +kernel), ⟨?_, ?_, hdrops⟩, htext, hdelimiter, hmark,
    fun request ↦ ?_⟩
  · rw [htext]
    decide
  · rw [htext]
    decide
  · rw [CompiledRule.ChecksAlike, Check.passesPredicate, Check.passesPredicate, hchecks]

/-- On a URL of as many parts as the rule string, the slash at its end changes nothing. -/
theorem outcome_slashed_slashRules : ∃ d d',
    (Action.matchPath 2 "user/42/" false).outcome Table.slashRules =
      .ok (some [("id".toList, some "42".toList)]) ∧
    (Action.checkRule 1 (.bare "GET" "/") "user/42" false false).outcome Table.slashRules =
      .ok (some d) ∧
    (Action.checkRule 2 (.bare "GET" "/") "user/42" false false).outcome Table.slashRules =
      .ok (some d') ∧
    d' = { d with rule := "user/<id>/".toList } := by
  obtain ⟨c, shown, hat, hat', hdrops, htext, hdelimiter, hmark, hchecks⟩ :=
    Table.ruleAt_slashRules
  obtain ⟨hmatch, hcheck, hurls⟩ := outcome_slashed Table.reachable_slashRules
    Table.reachable_slashRules hat hat' hdrops (.bare "GET" "/") "user/42" false false
  have hsome : ((Action.checkRule 1 (.bare "GET" "/") "user/42" false false).answer?
      Table.slashRules).join.isSome = true := by decide +kernel
  obtain ⟨d, hd⟩ := Option.isSome_iff_exists.mp hsome
  have hd := Action.outcome_of_answer? (Option.join_eq_some_iff.mp hd)
  have hcheck := hcheck (hchecks _)
  rw [hd] at hcheck
  obtain ⟨d', hd', captures, -, hskips⟩ := hcheck.exists_some
  have hnothing : (Table.slashRules.inEffect? 1).map (fun c ↦
      Variables.unconsumed c.text (c.trimmed [] "user/42") "/") = some [] := by decide +kernel
  rw [Table.inEffect?_of_ruleAt hat, Option.map_some, Option.some.injEq] at hnothing
  have hvars : d'.vars = d.vars := hskips.vars_eq fun mark hread ↦ by
    cases hmark.symm.trans hread
    exact .inr hnothing
  refine ⟨d, d', ?_, hd, mapError_eq_ok.mp hd', ?_⟩
  · have hurl := (hurls 1).2.1
    rw [hdelimiter] at hurl
    change (Action.matchPath 2 "user/42/" false).outcome Table.slashRules = _ at hurl
    have hmatched : (Action.matchPath 1 "user/42" false).outcome Table.slashRules =
        .ok (some [("id".toList, some "42".toList)]) :=
      Action.outcome_of_answer? (by decide +kernel)
    rw [hmatched] at hmatch
    exact hurl.trans (mapError_eq_ok.mp hmatch)
  · rw [hskips.eq, hvars, htext]
    rfl

/-- On a longer URL, the rule with a slash at its end loses the first part behind its match. -/
theorem not_forall_vars_slashed : ¬∀ (t u : Table) (id id' : NodeId) (c : CompiledRule)
    (shown url : Text) (request : Request) (asked anyDomain : Bool) (d d' : Dispatch),
    t.Reachable → u.Reachable → t.ruleAt id = .ok c → u.ruleAt id' = .ok (c.slashed shown) →
    c.DropsSlash → c.ChecksAlike request →
    (Action.checkRule id request url asked anyDomain).outcome t = .ok (some d) →
    (Action.checkRule id' request url asked anyDomain).outcome u = .ok (some d') →
    d'.vars = d.vars := by
  intro h
  obtain ⟨c, shown, hat, hat', hdrops, -, -, -, hchecks⟩ := Table.ruleAt_slashRules
  have hpage (id : NodeId) (bound : Bool)
      (hfound : (((Action.checkRule id (.bare "GET" "/") "user/42/page/2" false false).answer?
        Table.slashRules).join.map fun d ↦ (d.vars.named? "page").isSome) = some bound) :
      ∃ d, (Action.checkRule id (.bare "GET" "/") "user/42/page/2" false false).outcome
        Table.slashRules = .ok (some d) ∧ (d.vars.named? "page").isSome = bound := by
    obtain ⟨d, hd, hbound⟩ := Option.map_eq_some_iff.mp hfound
    exact ⟨d, Action.outcome_of_answer? (Option.join_eq_some_iff.mp hd), hbound⟩
  obtain ⟨d, hd, hbound⟩ := hpage 1 true (by decide +kernel)
  obtain ⟨d', hd', hbound'⟩ := hpage 2 false (by decide +kernel)
  have hvars := h _ _ 1 2 c shown _ _ _ _ d d' Table.reachable_slashRules
    Table.reachable_slashRules hat hat' hdrops (hchecks _) hd hd'
  rw [hvars, hbound] at hbound'
  cases hbound'

end UrlRouting

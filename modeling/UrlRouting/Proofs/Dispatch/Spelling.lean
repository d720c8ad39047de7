import Mathlib.Data.List.TakeWhile
import UrlRouting.Proofs.Dispatch.Form
import UrlRouting.Proofs.Dispatch.Simultaneous

/-!
The two spellings of a target that names a method of a class: with a double colon and with an at
sign. Both run the same method (`outcome_checkRule_spelling`) where the double colon stays one: its
second colon is not to be read with the method as a placeholder, and no single colon is left before
it.
-/

namespace UrlRouting

open Http

namespace Target

open Text

variable {t u v w front cls method back : Text} {c x : Char} {groups options : Mapping}
  {filled : List (Text × Text)}

/-! ### Double colons -/

def colonsAtEnd (t : Text) : Nat := (t.reverse.takeWhile (· == ':')).length

theorem eq_append_colonsAtEnd (t : Text) :
    ∃ front, t = front ++ List.replicate (colonsAtEnd t) ':' ∧ front.getLast? ≠ some ':' := by
  refine ⟨(t.reverse.dropWhile (· == ':')).reverse, ?_, ?_⟩
  · have hcolons : t.reverse.takeWhile (· == ':') = List.replicate (colonsAtEnd t) ':' := by
      refine List.eq_replicate_iff.mpr ⟨rfl, fun x hx ↦ ?_⟩
      have hcolon : (x == ':') = true := List.mem_takeWhile_imp (p := (· == ':')) hx
      exact beq_iff_eq.mp hcolon
    have hwhole := List.takeWhile_append_dropWhile (p := (· == ':')) (l := t.reverse)
    rw [hcolons] at hwhole
    have hreverse := congrArg List.reverse hwhole
    rw [List.reverse_append, List.reverse_replicate, List.reverse_reverse] at hreverse
    exact hreverse.symm
  · rw [List.getLast?_reverse]
    intro hlast
    have hfound := List.find?_not_eq_head?_dropWhile (p := (· == ':')) (l := t.reverse)
    rw [hlast] at hfound
    simpa using List.find?_some hfound

theorem replace_pairs (n : Nat) (t : Text) :
    replace "::" "@" (List.replicate (2 * n) ':' ++ t) =
      List.replicate n '@' ++ replace "::" "@" t := by
  induction n with
  | zero => rfl
  | succ n ih =>
    rw [Nat.mul_succ, List.replicate_succ, List.replicate_succ, List.replicate_succ]
    have hpair := replace_append (show "::".toList ≠ [] by decide) "@".toList
      (List.replicate (2 * n) ':' ++ t)
    rw [ih] at hpair
    exact hpair

/-- Behind an even number of colons, a double colon is read as such. -/
theorem replace_colons_append (h : colonsAtEnd t % 2 = 0) (back : Text) :
    replace "::" "@" (t ++ ':' :: ':' :: back) = replace "::" "@" (t ++ '@' :: back) := by
  obtain ⟨front, ht, hfront⟩ := eq_append_colonsAtEnd t
  obtain ⟨n, hn⟩ : ∃ n, colonsAtEnd t = 2 * n := ⟨colonsAtEnd t / 2, by omega⟩
  have hat (back : Text) : replace "::" "@" ('@' :: back) = '@' :: replace "::" "@" back :=
    replace_cons (fun h ↦ absurd (List.cons_prefix_cons.mp h).1 (by decide)) _
  have hcolons : replace "::" "@" (':' :: ':' :: back) = '@' :: replace "::" "@" back :=
    replace_append (show "::".toList ≠ [] by decide) "@".toList back
  rw [hn] at ht
  rw [ht, List.append_assoc, List.append_assoc]
  rcases List.eq_nil_or_concat front with rfl | ⟨init, c, rfl⟩
  · rw [List.nil_append, List.nil_append, replace_pairs, replace_pairs, hcolons, hat]
  · have hc : c ≠ ':' := by
      rintro rfl
      exact hfront (by simp)
    have hcut (u : Text) : replace "::" "@" (init ++ c :: u) =
        replace "::" "@" init ++ c :: replace "::" "@" u := by
      rw [replace_append_cons (by decide) (by simpa using hc), replace_cons]
      exact fun h ↦ hc (List.cons_prefix_cons.mp h).1.symm
    simp only [List.concat_eq_append, List.append_assoc, List.singleton_append]
    rw [hcut, hcut, replace_pairs, replace_pairs, hcolons, hat]

theorem callback_colons (h : colonsAtEnd t % 2 = 0) (back : Text) :
    callback (t ++ ':' :: ':' :: back) = callback (t ++ '@' :: back) := by
  rw [callback, callback, replace_colons_append h]

/-! ### Filling what comes before the method -/

/-- No placeholder that is filled begins in the end of the text, and none runs into it. -/
theorem foldl_replace_append (h : ∀ e ∈ filled, e.1 ≠ [] ∧ x ∉ e.1.tail ∧ ¬e.1 <:+: x :: back)
    (t : Text) : filled.foldl (fun t e ↦ replace e.1 e.2 t) (t ++ x :: back) =
      filled.foldl (fun t e ↦ replace e.1 e.2 t) t ++ x :: back := by
  induction filled generalizing t with
  | nil => rfl
  | cons e rest ih =>
    obtain ⟨hne, htail, hback⟩ := h e List.mem_cons_self
    rw [List.foldl_cons, replace_append_cons hne htail, replace_eq_self hback,
      ih fun e he ↦ h e (List.mem_cons_of_mem _ he), List.foldl_cons]

/-- A text without opening marks holds no placeholder. -/
theorem IsPlaceholder.not_occurs (hw : IsPlaceholder w) (ht : ∀ c ∈ t, c ∉ openers) :
    ¬w <:+: t := by
  obtain ⟨c, rest, rfl, hc, -⟩ := hw.eq_cons
  intro hin
  exact ht c (hin.subset List.mem_cons_self) hc

theorem IsPlaceholder.at_not_mem (hw : IsPlaceholder w) : '@' ∉ w := by
  obtain ⟨name, hname, hmem⟩ := hw
  have hat : '@' ∉ name := (harmless_of_isIdentifier hname).not_mem '@' (by decide)
  simp only [placeholders, List.mem_cons, List.not_mem_nil, or_false] at hmem
  rcases hmem with rfl | rfl | rfl <;> simp [hat]

/-- No placeholder can be read in a double colon and what comes behind it. -/
theorem not_infix_colons {name : Text} (hmethod : ∀ c ∈ method, c ∉ openers)
    (hname : isIdentifier name = true)
    (hspared : ¬name <+: method) (hw : w ∈ placeholders name) :
    ¬w <:+: ':' :: ':' :: method := by
  have hmark (mark : Char) (hmark : mark ∈ openers) (hne : mark ≠ ':') (hmem : mark ∈ w) :
      ¬w <:+: ':' :: ':' :: method := by
    intro hin
    have h := hin.subset hmem
    rw [List.mem_cons, List.mem_cons] at h
    exact h.elim hne fun h ↦ h.elim hne fun h ↦ hmethod _ h hmark
  have hwhole : IsPlaceholder w := ⟨name, hname, hw⟩
  simp only [placeholders, List.mem_cons, List.not_mem_nil, or_false] at hw
  rcases hw with rfl | rfl | rfl
  · exact hmark '<' (by decide) (by decide) (by simp)
  · exact hmark '\x7b' (by decide) (by decide) (by simp)
  · -- behind the first colon there is no identifier, and behind the second one it is another one
    rw [List.infix_cons_iff, List.infix_cons_iff, List.cons_prefix_cons, List.cons_prefix_cons]
    rintro (⟨-, hfirst⟩ | ⟨-, hsecond⟩ | hin)
    · cases name with
      | nil => cases hname
      | cons c rest =>
        have hcolon := (harmless_of_isIdentifier hname).not_mem ':' (by decide)
        exact hcolon ((List.cons_prefix_cons.mp hfirst).1 ▸ List.mem_cons_self)
    · exact hspared hsecond
    · exact hwhole.not_occurs hmethod hin

theorem declared_append (options : Mapping) (t u : Text) :
    declared options (t ++ u) = declared options t ++ u := by
  rw [declared, declared]
  split
  · exact (List.append_assoc _ _ _).symm
  · rfl

/-- The double colon stays one: no variable has a name that the method begins with, and what is
filled in before it, which needs a `prefix` option, ends in an even number of colons. -/
structure SparesMethod (groups options : Mapping) (cls method : Text) : Prop where
  names : ∀ entry ∈ groups, entry.2.isNull = false → ¬entry.1.plain <+: method
  front : ∀ front, options.named "prefix" = .str front →
    colonsAtEnd (fill groups (front ++ cls)) % 2 = 0

variable (hnames : ∀ entry ∈ groups, isIdentifier entry.1.plain = true)
  (hmethod : ∀ c ∈ method, c ∉ openers)

include hnames hmethod

theorem fill_append_at (t : Text) :
    fill groups (t ++ '@' :: method) = fill groups t ++ '@' :: method := by
  rw [fill_eq_foldl, fill_eq_foldl]
  refine foldl_replace_append (fun e he ↦ ?_) t
  have hplaceholder := isPlaceholder_of_mem_fillings hnames he
  refine ⟨hplaceholder.ne_nil, fun h ↦ hplaceholder.at_not_mem (List.mem_of_mem_tail h), ?_⟩
  refine hplaceholder.not_occurs fun c hc ↦ ?_
  rcases List.mem_cons.mp hc with rfl | hc
  · decide
  · exact hmethod c hc

theorem fill_append_colons (t : Text)
    (hspared : ∀ entry ∈ groups, entry.2.isNull = false → ¬entry.1.plain <+: method) :
    fill groups (t ++ ':' :: ':' :: method) = fill groups t ++ ':' :: ':' :: method := by
  rw [fill_eq_foldl, fill_eq_foldl]
  refine foldl_replace_append (fun e he ↦ ?_) t
  have hplaceholder := isPlaceholder_of_mem_fillings hnames he
  have htail : ':' ∉ e.1.tail := by
    obtain ⟨c, rest, heq, -, hrest⟩ := hplaceholder.eq_cons
    rw [heq]
    exact fun h ↦ hrest _ h (by decide)
  refine ⟨hplaceholder.ne_nil, htail, ?_⟩
  obtain ⟨entry, hentry, he⟩ := List.mem_flatMap.mp he
  obtain ⟨w, hw, rfl⟩ := List.mem_map.mp he
  obtain ⟨hmem, hvalue⟩ := List.mem_filter.mp hentry
  exact not_infix_colons hmethod (hnames entry hmem) (hspared entry hmem (by simpa using hvalue)) hw

omit hmethod in
theorem fill_eq_self (ht : ∀ c ∈ t, c ∉ openers) : fill groups t = t := by
  rw [fill_eq_foldl]
  refine List.foldlRecOn _ _ (motive := fun u ↦ u = t) rfl fun u hu e he ↦ ?_
  rw [hu]
  exact replace_eq_self ((isPlaceholder_of_mem_fillings hnames he).not_occurs ht) e.2

omit hmethod in
theorem SparesMethod.even (hcls : ∀ c ∈ cls, c ∉ openers)
    (h : SparesMethod groups options cls method) :
    colonsAtEnd (fill groups (declared options cls)) % 2 = 0 := by
  rw [declared]
  split
  next front hfront => exact h.front front hfront
  next =>
    rw [fill_eq_self hnames hcls]
    cases hlast : cls.reverse with
    | nil => rw [colonsAtEnd, hlast]; rfl
    | cons c rest =>
      have hc : c ≠ ':' := by
        rintro rfl
        exact hcls ':' (List.mem_reverse.mp (hlast ▸ List.mem_cons_self)) (by decide)
      rw [colonsAtEnd, hlast, List.takeWhile_cons_of_neg (by simpa using hc)]
      rfl

/-- Both spellings are run by one handler. -/
theorem handler_spelling (hcls : ∀ c ∈ cls, c ∉ openers)
    (h : SparesMethod groups options cls method) (mark : Text) :
    handler (substitute groups options (.str (cls ++ ':' :: ':' :: method))) options mark
        (substitute [] options (.str (cls ++ ':' :: ':' :: method))) =
      handler (substitute groups options (.str (cls ++ '@' :: method))) options mark
        (substitute [] options (.str (cls ++ '@' :: method))) := by
  by_cases hdispatcher : ∃ found, options.named "dispatcher" = .dispatch found
  · obtain ⟨found, hfound⟩ := hdispatcher
    rw [handler_of_dispatcher hfound, handler_of_dispatcher hfound]
  rw [not_exists] at hdispatcher
  simp only [substitute]
  rw [handler_str hdispatcher, handler_str hdispatcher, declared_append, declared_append,
    fill_append_colons hnames hmethod _ h.names, fill_append_at hnames hmethod,
    ofText_of_namesMethod (.inr (.inl ?_)), ofText_of_namesMethod (.inl (by simp)),
    callback_colons (h.even hnames hcls)]
  exact ⟨fill groups (declared options cls), method, by simp⟩

end Target

def Dispatch.aimedAt (d : Dispatch) (target : Value) : Dispatch := { d with target := target }

namespace CompiledRule

open Target

variable {c : CompiledRule} {request : Request} {url cls method shown shown' : Text}
  {groups : Mapping} {asked anyDomain : Bool}

/-- The rule with another target. -/
def aimedAt (c : CompiledRule) (target : Value) (shown : Text) : CompiledRule :=
  { c with target := target, shown := shown }

theorem on_aimedAt (c : CompiledRule) (target : Value) (shown : Text) (anyDomain : Bool) :
    (c.aimedAt target shown).on anyDomain = (c.on anyDomain).aimedAt target shown := by
  cases anyDomain <;> rfl

/-- Rules that differ in their targets alone decide alike, but for the target, if they do so on
whatever is captured. -/
theorem decide_aimedAt {target target' : Value}
    (h : ∀ captures, c.capture (c.trimmed request.ext url) (c.isComplete asked) =
      .ok (some captures) → ∀ url,
        ((c.aimedAt target shown).decision request url captures.toMapping c.options).map
            (·.aimedAt .null) =
          ((c.aimedAt target' shown').decision request url captures.toMapping c.options).map
            (·.aimedAt .null)) :
    ((c.aimedAt target shown).decide request url asked).map (Option.map (·.aimedAt .null)) =
      ((c.aimedAt target' shown').decide request url asked).map
        (Option.map (·.aimedAt .null)) := by
  rw [decide, decide]
  change Except.map _ (Admission.rejection? c.options (some c.text) request >>= _) =
    Except.map _ (Admission.rejection? c.options (some c.text) request >>= _)
  rcases Admission.rejection? c.options (some c.text) request with fault | _ | failed
  · rfl
  · change Except.map _ (c.capture (c.trimmed request.ext url) (c.isComplete asked) >>= _) =
      Except.map _ (c.capture (c.trimmed request.ext url) (c.isComplete asked) >>= _)
    rcases hcapture : c.capture (c.trimmed request.ext url) (c.isComplete asked) with
      fault | _ | captures
    · rfl
    · rfl
    · have hmap (x : Except Fault Dispatch) :
          (x >>= fun d ↦ Except.ok (some d)).map (Option.map (·.aimedAt .null)) =
            (x.map (·.aimedAt .null)).map some := by
        cases x <;> rfl
      change Except.map _ ((c.aimedAt target shown).decision request (c.trimmed request.ext url)
          captures.toMapping c.options >>= fun d ↦ .ok (some d)) =
        Except.map _ ((c.aimedAt target' shown').decision request (c.trimmed request.ext url)
          captures.toMapping c.options >>= fun d ↦ .ok (some d))
      rw [hmap, hmap, h captures hcapture]
  · rfl

theorem decision_spelling (hnames : ∀ entry ∈ groups, Text.isIdentifier entry.1.plain = true)
    (hcls : ∀ x ∈ cls, x ∉ openers) (hmethod : ∀ x ∈ method, x ∉ openers)
    (h : SparesMethod groups c.options cls method) (request : Request) (url : Text) :
    ((c.aimedAt (.str (cls ++ ':' :: ':' :: method)) shown).decision request url groups
        c.options).map (·.aimedAt .null) =
      ((c.aimedAt (.str (cls ++ '@' :: method)) shown').decision request url groups
        c.options).map (·.aimedAt .null) := by
  have hhandler := handler_spelling hnames hmethod hcls h c.config.namespaceMark
  rw [decision, decision]
  change Except.map _ (Variables.extract groups c.text url c.patterns c.options
      (c.parameterDelimiter c.options) >>= _) =
    Except.map _ (Variables.extract groups c.text url c.patterns c.options
      (c.parameterDelimiter c.options) >>= _)
  rcases Variables.extract groups c.text url c.patterns c.options
    (c.parameterDelimiter c.options) with fault | vars
  · rfl
  · change Except.map _ (Dispatch.resolve request c.text
        (substitute groups c.options (.str (cls ++ ':' :: ':' :: method))) vars c.options
        c.config.namespaceMark (substitute [] c.options (.str (cls ++ ':' :: ':' :: method)))) =
      Except.map _ (Dispatch.resolve request c.text
        (substitute groups c.options (.str (cls ++ '@' :: method))) vars c.options
        c.config.namespaceMark (substitute [] c.options (.str (cls ++ '@' :: method))))
    rw [Dispatch.resolve, Dispatch.resolve, hhandler]
    rcases handler (substitute groups c.options (.str (cls ++ '@' :: method))) c.options
      c.config.namespaceMark (substitute [] c.options (.str (cls ++ '@' :: method))) with
      fault | handler
    · rfl
    · rfl

end CompiledRule

/-- A rule whose target is spelled with a double colon decides as one whose target is spelled with
an at sign, where the double colon stays one whatever is captured: the decisions differ in nothing
but the target. -/
theorem outcome_checkRule_spelling {t u : Table} {id id' : NodeId} {c : CompiledRule}
    {cls method shown shown' url : Text} {request : Request} {asked anyDomain : Bool}
    (ht : t.Reachable) (hu : u.Reachable) (hcls : ∀ x ∈ cls, x ∉ Target.openers)
    (hmethod : ∀ x ∈ method, x ∉ Target.openers)
    (hat : t.ruleAt id = .ok (c.aimedAt (.str (cls ++ ':' :: ':' :: method)) shown))
    (hat' : u.ruleAt id' = .ok (c.aimedAt (.str (cls ++ '@' :: method)) shown'))
    (h : ∀ captures, c.capture (c.trimmed request.ext url) (c.isComplete asked) =
      .ok (some captures) → Target.SparesMethod captures.toMapping c.options cls method) :
    ((Action.checkRule id request url asked anyDomain).outcome t).map
        (Option.map (·.aimedAt .null)) =
      ((Action.checkRule id' request url asked anyDomain).outcome u).map
        (Option.map (·.aimedAt .null)) := by
  have hbind {β : Type} (c : CompiledRule) (f : CompiledRule → Except Fault β) :
      (Except.ok c : Except Fault CompiledRule) >>= f = f c := rfl
  rw [(Action.checkRule_answers ht.sound id request url asked anyDomain).outcome_eq,
    (Action.checkRule_answers hu.sound id' request url asked anyDomain).outcome_eq,
    Table.decisionAt, Table.decisionAt, hat, hat', hbind, hbind, c.on_aimedAt, c.on_aimedAt]
  refine CompiledRule.decide_aimedAt fun captures hcaptures url ↦ ?_
  rw [c.capture_on] at hcaptures
  refine CompiledRule.decision_spelling ?_ hcls hmethod ?_ request url
  · intro entry hentry
    obtain ⟨capture, hcapture, rfl⟩ := List.mem_map.mp hentry
    exact (CompiledRule.captured_names hcaptures).2 capture hcapture
  · obtain ⟨hnames, hfront⟩ := h captures hcaptures
    refine ⟨hnames, fun front ↦ ?_⟩
    have hoption : Mapping.named (c.on anyDomain).options "prefix" =
        Mapping.named c.options "prefix" := by
      cases anyDomain with
      | false => rfl
      | true => exact CompiledRule.named_onAnyDomain (by decide) c
    rw [hoption]
    exact hfront front

/-- Two rules for one path, whose targets are two spellings of one method. -/
def Table.postRules : Table := empty.afterAll
  [.addRouter [],
    .routeOn 0 { rule := "post/<id>", target := "Blog::read", options := [(.str "prefix", "My")] },
    .routeOn 0 { rule := "post/<id>", target := "Blog@read", options := [(.str "prefix", "My")] }]

theorem reachable_postRules : Table.postRules.Reachable := ⟨_, by decide, rfl⟩

theorem ruleAt_postRules : ∃ c : CompiledRule, ∃ shown shown',
    Table.postRules.ruleAt 1 = .ok (c.aimedAt (.str ("Blog".toList ++ "::read".toList)) shown) ∧
    Table.postRules.ruleAt 2 = .ok (c.aimedAt (.str ("Blog".toList ++ "@read".toList)) shown') ∧
    c.capture (c.trimmed [] "post/5") (c.isComplete false) =
      .ok (some [("id".toList, some "5".toList)]) ∧
    Mapping.named c.options "prefix" = .str "My" := by
  have hcaptured : ((Table.postRules.ruleAt 1).toOption.any fun c ↦
      (c.capture (c.trimmed [] "post/5") (c.isComplete false)).toOption.any fun captures ↦
        captures == some [("id".toList, some "5".toList)]) = true := by decide +kernel
  obtain ⟨c, hat, hcaptured⟩ := exists_ok_of_any hcaptured
  obtain ⟨captures, hcapture, hcaptured⟩ := exists_ok_of_any hcaptured
  rw [beq_iff_eq.mp hcaptured] at hcapture
  have hin := Table.inEffect?_of_ruleAt hat
  obtain ⟨shown', hin'⟩ : ∃ shown', Table.postRules.inEffect? 2 =
      (Table.postRules.inEffect? 1).map
        (·.aimedAt (.str ("Blog".toList ++ "@read".toList)) shown') := ⟨_, rfl⟩
  have hoption : (Table.postRules.inEffect? 1).map (fun c ↦ Mapping.named c.options "prefix") =
      some (.str "My") := rfl
  have htarget : (Table.postRules.inEffect? 1).map CompiledRule.target =
      some (.str ("Blog".toList ++ "::read".toList)) := rfl
  rw [hin, Option.map_some, Option.some.injEq] at hoption htarget
  rw [hin, Option.map_some] at hin'
  refine ⟨c, c.shown, shown', ?_, Table.ruleAt_of_inEffect? hin' (by decide +kernel), hcapture,
    hoption⟩
  rw [← htarget]
  exact hat

theorem outcome_checkRule_postRules : ∃ c : CompiledRule, ∃ shown shown',
    Table.postRules.Reachable ∧
    (∀ x ∈ "Blog".toList, x ∉ Target.openers) ∧ (∀ x ∈ "read".toList, x ∉ Target.openers) ∧
    Table.postRules.ruleAt 1 = .ok (c.aimedAt (.str ("Blog".toList ++ "::read".toList)) shown) ∧
    Table.postRules.ruleAt 2 = .ok (c.aimedAt (.str ("Blog".toList ++ "@read".toList)) shown') ∧
    (∀ captures, c.capture (c.trimmed [] "post/5") (c.isComplete false) = .ok (some captures) →
      Target.SparesMethod captures.toMapping c.options "Blog" "read") ∧
    ((Action.checkRule 1 (.bare "GET" "/") "post/5" false false).outcome Table.postRules).map
        (Option.map (·.aimedAt .null)) =
      ((Action.checkRule 2 (.bare "GET" "/") "post/5" false false).outcome Table.postRules).map
        (Option.map (·.aimedAt .null)) := by
  obtain ⟨c, shown, shown', hat, hat', hcaptured, hoption⟩ := ruleAt_postRules
  have hcls : ∀ x ∈ "Blog".toList, x ∉ Target.openers := by decide
  have hmethod : ∀ x ∈ "read".toList, x ∉ Target.openers := by decide
  have hspares : ∀ captures, c.capture (c.trimmed [] "post/5") (c.isComplete false) =
      .ok (some captures) → Target.SparesMethod captures.toMapping c.options "Blog" "read" := by
    intro captures hcaptures
    cases hcaptured.symm.trans hcaptures
    refine ⟨by decide +kernel, fun front hfront ↦ ?_⟩
    cases hoption.symm.trans hfront
    decide +kernel
  exact ⟨c, shown, shown', reachable_postRules, hcls, hmethod, hat, hat', hspares,
    outcome_checkRule_spelling reachable_postRules reachable_postRules hcls hmethod hat hat'
      hspares⟩

/-- As `Table.postRules`, with a variable that has the name of the method. -/
def Table.readRules : Table := empty.afterAll
  [.addRouter [],
    .routeOn 0 { rule := "post/<read>", target := "Blog::read" },
    .routeOn 0 { rule := "post/<read>", target := "Blog@read" }]

/-- A variable with the name of the method takes the second colon away, and the target is a path. -/
theorem not_forall_checkRule_spelling : ¬∀ (t u : Table) (id id' : NodeId) (c : CompiledRule)
    (cls method shown shown' url : Text) (request : Request) (asked anyDomain : Bool),
    t.Reachable → u.Reachable → cls ≠ [] → method ≠ [] →
    (∀ x ∈ cls, x ∉ "@:|/<\x7b".toList) → (∀ x ∈ method, x ∉ "@:|/<\x7b".toList) →
    t.ruleAt id = .ok (c.aimedAt (.str (cls ++ "::".toList ++ method)) shown) →
    u.ruleAt id' = .ok (c.aimedAt (.str (cls ++ "@".toList ++ method)) shown') →
    ((Action.checkRule id request url asked anyDomain).outcome t).map
        (Option.map Dispatch.cls) =
      ((Action.checkRule id' request url asked anyDomain).outcome u).map
        (Option.map Dispatch.cls) := by
  intro h
  have hreachable : Table.readRules.Reachable := ⟨_, by decide, rfl⟩
  obtain ⟨shown, hin⟩ : ∃ shown, Table.readRules.inEffect? 1 =
      (Table.readRules.inEffect? 1).map
        (·.aimedAt (.str ("Blog".toList ++ "::".toList ++ "read".toList)) shown) := ⟨_, rfl⟩
  obtain ⟨shown', hin'⟩ : ∃ shown', Table.readRules.inEffect? 2 =
      (Table.readRules.inEffect? 1).map
        (·.aimedAt (.str ("Blog".toList ++ "@".toList ++ "read".toList)) shown') := ⟨_, rfl⟩
  obtain ⟨c, hc⟩ : ∃ c, Table.readRules.inEffect? 1 = some c := ⟨_, rfl⟩
  rw [hc, Option.map_some, ← hc] at hin
  rw [hc, Option.map_some] at hin'
  have heq := h _ _ 1 2 c "Blog" "read" shown shown' "post/5" (.bare "GET" "/") false false
    hreachable hreachable (by decide) (by decide) (by decide) (by decide)
    (Table.ruleAt_of_inEffect? hin (by decide +kernel))
    (Table.ruleAt_of_inEffect? hin' (by decide +kernel))
  have hdiffer : ((Action.checkRule 1 (.bare "GET" "/") "post/5" false false).outcome
        Table.readRules).toOption.map (Option.map Dispatch.cls) = some (some .controller) ∧
      ((Action.checkRule 2 (.bare "GET" "/") "post/5" false false).outcome
        Table.readRules).toOption.map (Option.map Dispatch.cls) = some (some .method) := by
    decide +kernel
  have hoption (x : Except Fault (Option Dispatch)) : (x.map (Option.map Dispatch.cls)).toOption =
      x.toOption.map (Option.map Dispatch.cls) := by
    cases x <;> rfl
  have hsame := congrArg Except.toOption heq
  rw [hoption, hoption, hdiffer.1, hdiffer.2] at hsame
  cases hsame

end UrlRouting

import UrlRouting.Proofs.Admission.Reading
import UrlRouting.Proofs.Table.Deciding
import UrlRouting.Proofs.Table.Reachable

/-!
Rules asked on any domain. The domain has no say then: what a rule decides on its own domain it
decides, and where no predicate looks at the request, it decides the same under any host
(`outcome_anywhere`).
-/

namespace UrlRouting

open Http

variable {t : Table} {id : NodeId} {request : Request} {url : Text} {asked : Bool} {d : Dispatch}

namespace Admission

variable {options : Mapping} {rule : Option Text}

theorem passesDomain_erase (options : Mapping) (request : Request) :
    Check.passesDomain (Entries.erase options (.str "domain")) request = true := by
  rw [Check.passesDomain, Mapping.named_erase_self]
  rfl

/-- Without a domain, options admit what they admitted. -/
theorem rejection?_erase_domain (h : rejection? options rule request = .ok none) :
    rejection? (Entries.erase options (.str "domain")) rule request =
      rejection? options rule request := by
  refine rejection?_congr fun check ↦ ?_
  -- The check of the domain is the one that reads the option, and it let the request pass.
  by_cases hdomain : check = .domain
  · subst hdomain
    rw [passes_of_admitted h .domain (by decide), Check.passes, passesDomain_erase]
  · refine Check.passes_congr (fun name hmem ↦ Mapping.named_erase_of_ne ?_ options) rule request
    have hread : "domain".toList ∈ Check.domain.reads := by decide
    rintro rfl
    exact hdomain (Check.eq_of_mem_reads hread hmem)

/-- Without domain and predicate, the host makes no difference. -/
theorem rejection?_onHost (hmatch : (options.named "match").isCallable = false)
    (rule : Option Text) (request : Request) (host : Text) (rootDomain : Option Text) :
    rejection? (Entries.erase options (.str "domain")) rule
        { request with host := host, rootDomain := rootDomain } =
      rejection? (Entries.erase options (.str "domain")) rule request := by
  refine rejection?_congr fun check ↦ ?_
  by_cases hdomain : check = .domain
  · subst hdomain
    rw [Check.passes, Check.passes, passesDomain_erase, passesDomain_erase]
  by_cases hpredicate : check = .predicate
  · subst hpredicate
    have hname : "match".toList ≠ "domain" := by decide
    rw [← Mapping.named_erase_of_ne hname options] at hmatch
    rw [Check.passes, Check.passes, Check.passesPredicate_of_uncallable hmatch,
      Check.passesPredicate_of_uncallable hmatch]
  · exact Check.passes_onHost hpredicate hdomain _ rule request host rootDomain

end Admission

namespace CompiledRule

variable {c : CompiledRule}

/-- What a rule decides on its own domain it decides on any, without that option. -/
theorem decide_onAnyDomain (h : c.decide request url asked = .ok (some d)) :
    c.onAnyDomain.decide request url asked =
      .ok (some { d with options := Entries.erase d.options "domain" }) := by
  obtain ⟨captures, -, hdecision⟩ := decide_eq_some h
  have hreads : ∀ name ∈ decisionReads, name ≠ "domain" := by decide
  have htrimmed : c.onAnyDomain.trimmed request.ext url = c.trimmed request.ext url :=
    c.trimmed_on true request.ext url
  have hsame (groups : Mapping) : c.onAnyDomain.decision request
      (c.onAnyDomain.trimmed request.ext url) groups c.onAnyDomain.options =
        (c.decision request (c.trimmed request.ext url) groups c.options).map
          fun d ↦ { d with options := Entries.erase c.options "domain" } := by
    rw [htrimmed]
    exact decision_congr (fun name hmem ↦ named_onAnyDomain (hreads name hmem) c) c request _ groups
  have hdecide : c.onAnyDomain.decide request url asked = _ :=
    decide_congr (Admission.rejection?_erase_domain (admitted_of_decide h))
      (c.capture_on true request.ext url asked) fun captures _ ↦ hsame captures.toMapping
  rw [hdecide, h, options_of_decision hdecision]
  rfl

/-- A decision carries its request, and is the same apart from it. -/
theorem decision_withRequest (c : CompiledRule) (request request' : Request) (url : Text)
    (groups options : Mapping) : c.decision request' url groups options =
      (c.decision request url groups options).map fun d ↦ { d with request := request' } := by
  rw [decision, decision]
  cases Variables.extract groups c.text url c.patterns options (c.parameterDelimiter options) with
  | error e => rfl
  | ok vars =>
    change Except.map _ _ = Except.map _ (Except.map _ _)
    cases Target.handler (Target.substitute groups options c.target) options
      c.config.namespaceMark (Target.substitute [] options c.target) <;> rfl

theorem decide_onHost (hmatch : (c.options.named "match").isCallable = false) (request : Request)
    (url : Text) (asked : Bool) (host : Text) (rootDomain : Option Text) :
    c.onAnyDomain.decide { request with host := host, rootDomain := rootDomain } url asked =
      (c.onAnyDomain.decide request url asked).map (Option.map fun d ↦
        { d with request := { request with host := host, rootDomain := rootDomain } }) := by
  have hrejection := Admission.rejection?_onHost hmatch (some c.text) request host rootDomain
  exact decide_congr hrejection rfl fun _ _ ↦ decision_withRequest _ _ _ _ _ _

end CompiledRule

/-- All nodes keep their own options, and what is in effect at them. -/
def Table.SameOptions (t s : Table) : Prop := ∀ id,
  s.readAll (s.node id).options = t.readAll (t.node id).options ∧
    s.effectiveOptions id = t.effectiveOptions id

theorem Table.Advanced.sameOptions {s : Table} (h : t.Advanced s) : t.SameOptions s := by
  intro id
  have hoptions : (s.node id).bare.options = (t.node id).bare.options := by rw [h.bare]
  exact ⟨(readAll_of_cells h.cells _).trans (congrArg t.readAll hoptions), h.effectiveOptions id⟩

/-- A rule that decides on a request on its own domain makes the same decision on any, without the
option; if it has no predicate, it makes the same under every host. Its options stay as they are. -/
theorem outcome_anywhere (ht : t.Reachable) (id : NodeId) (url : Text) (asked : Bool) :
    (∀ request d s, (Action.checkRule id request url asked false).run t = .ok (some d) s →
      ∀ u ∈ [t, s], (Action.checkRule id request url asked true).outcome u =
        .ok (some { d with options := Entries.erase d.options "domain" })) ∧
    ((Mapping.named (t.effectiveOptions id) "match").isCallable = false →
      ∀ request host rootDomain,
        (Action.checkRule id { request with host := host, rootDomain := rootDomain } url asked
          true).outcome t =
        ((Action.checkRule id request url asked true).outcome t).map (Option.map fun d ↦
          { d with request := { request with host := host, rootDomain := rootDomain } })) ∧
    ∀ request, (Action.checkRule id request url asked true).Ends t
      (fun _ s ↦ t.SameOptions s) (fun s ↦ t.SameOptions s) := by
  refine ⟨fun request d s hrun u hu ↦ ?_, fun hmatch request host rootDomain ↦ ?_,
    fun request ↦ ?_⟩
  · obtain ⟨hd, hs⟩ := (Action.checkRule_answers ht.sound _ _ _ _ _).run_ok hrun
    obtain ⟨c, hat, hdecide⟩ := bind_eq_ok_iff.mp hd
    have hsame : t.Same u := by
      simp only [List.mem_cons, List.not_mem_nil, or_false] at hu
      rcases hu with rfl | rfl
      · exact .refl ht.sound
      · exact hs
    rw [(Action.checkRule_answers hsame.sound _ _ _ _ _).outcome_eq, Table.decisionAt,
      hsame.ruleAt, hat]
    exact CompiledRule.decide_onAnyDomain hdecide
  · rw [(Action.checkRule_answers ht.sound _ _ _ _ _).outcome_eq,
      (Action.checkRule_answers ht.sound _ _ _ _ _).outcome_eq, Table.decisionAt,
      Table.decisionAt]
    cases hat : t.ruleAt id with
    | error fault => rfl
    | ok c =>
      rw [← Table.options_of_ruleAt hat] at hmatch
      exact CompiledRule.decide_onHost hmatch request url asked host rootDomain
  · have hanswers := Action.checkRule_answers ht.sound id request url asked true
    rw [Action.Ends]
    cases hr : (Action.checkRule id request url asked true).run t with
    | ok d s => exact (hanswers.run_ok hr).2.advanced.sameOptions
    | error fault s => exact (hanswers.run_error hr).2.2.sameOptions

/-- A rule for one sub-domain. -/
def Table.apiRule : Table := empty.afterAll
  [.addRouter [], .routeOn 0 { rule := "page", target := "x",
                               options := [(.str "domain", .str "api")] }]

theorem reachable_apiRule : Table.apiRule.Reachable := ⟨_, by decide, rfl⟩

def Http.Request.pageUnder (host : Text) : Request :=
  { Request.bare "GET" "/page" with host := host }

/-- Under another host, the rule makes the decision that it makes on its own domain if it is asked
on any, and none otherwise. -/
theorem outcome_anywhere_apiRule : Table.apiRule.Reachable ∧
    (Mapping.named (Table.apiRule.effectiveOptions 1) "match").isCallable = false ∧ ∃ d s,
    (Action.checkRule 1 (.pageUnder "api.example.com") "page" false false).run Table.apiRule =
      .ok (some d) s ∧
    (Action.checkRule 1 (.pageUnder "www.example.com") "page" false false).outcome
      Table.apiRule = .ok none ∧
    (Action.checkRule 1 (.pageUnder "www.example.com") "page" false true).outcome
      Table.apiRule = .ok (some { d with
        request := .pageUnder "www.example.com"
        options := Entries.erase d.options "domain" }) := by
  have hmatch : (Mapping.named (Table.apiRule.effectiveOptions 1) "match").isCallable = false := by
    decide
  have hfound : (((Action.checkRule 1 (.pageUnder "api.example.com") "page" false
      false).answer? Table.apiRule).join).isSome = true := by decide
  obtain ⟨d, hd⟩ := Option.isSome_iff_exists.mp hfound
  obtain ⟨s, hrun⟩ := Action.exists_run_of_answer? (Option.join_eq_some_iff.mp hd)
  have hother : (Action.checkRule 1 (.pageUnder "www.example.com") "page" false
      false).outcome Table.apiRule = .ok none := by
    have hnone : (((Action.checkRule 1 (.pageUnder "www.example.com") "page" false
        false).answer? Table.apiRule).join).isNone = true := by decide
    rw [Action.outcome_join (by decide), Option.isNone_iff_eq_none.mp hnone]
  obtain ⟨hdomain, hhost, -⟩ := outcome_anywhere reachable_apiRule 1 "page" false
  have hany := hhost hmatch (.pageUnder "api.example.com") "www.example.com" none
  rw [hdomain _ d s hrun _ List.mem_cons_self] at hany
  exact ⟨reachable_apiRule, hmatch, d, s, hrun, hother, hany⟩

end UrlRouting

import UrlRouting.Proofs.Http.Making
import UrlRouting.Proofs.Table.Anywhere

/-!
Requests that agree. No check tells them apart, so that rules decide alike on requests that agree
and have the same path, and routers answer them alike. A router therefore gives the same answer
whichever way a request is made, unless its path is empty (`outcome_create_ofScope`).
-/

namespace UrlRouting

open Http

variable {t : Table} {r s : Request} {id : NodeId} {url : Text} {asked anyDomain : Bool}

namespace Http.Request.Agrees

theorem param? (h : r.Agrees s) (name : Value) : r.param? name = s.param? name := by
  rw [Request.param?, Request.param?, h.query, h.pathParams]

theorem withRoot (h : r.Agrees s) (root : Option Text) :
    Agrees { r with rootDomain := root } { s with rootDomain := root } :=
  { h with
    subDomain := subDomain_congr h.hostName rfl
    rootDomain := rfl }

theorem completed (h : r.Agrees s) (t : Table) (rid : RouterId) :
    (t.completed rid r).Agrees (t.completed rid s) := by
  rw [Table.completed, Table.completed, Config.complete, Config.complete, h.rootDomain]
  split
  · split
    · exact h
    · exact h.withRoot _
  · exact h

end Http.Request.Agrees

/-! ### Admission -/

namespace Check

theorem answer_of_agrees (h : r.Agrees s) (rule : Option Text) (g : Guard Value) :
    answer rule r g = answer rule s g := by
  cases g with
  | parameter name value => rw [answer, answer, h.param?]
  | method value => rw [answer, answer, h.method]
  | secure => rw [answer, answer, h.isSecure]
  | _ => rfl

theorem passes_of_agrees (h : r.Agrees s) (hpath : r.path = s.path) (check : Check)
    (options : Mapping) (rule : Option Text) :
    check.passes options rule r = check.passes options rule s := by
  cases check with
  | predicate => simp only [passes, passesPredicate, answer_of_agrees h]
  | method => rw [passes, passes, passesMethod, passesMethod, h.method]
  | negotiation =>
    rw [passes, passes, passesNegotiation, passesNegotiation, h.isAjax, h.isPjax, h.isJson]
  | ext => simp only [passes, passesExt, inOption, hpath, h.ext]
  | domain => rw [passes, passes, passesDomain, passesDomain, h.hostName, h.subDomain]
  | scheme => rw [passes, passes, passesScheme, passesScheme, h.isSecure]
  | filter => simp only [passes, passesFilter, h.param?]

end Check

/-! ### Decisions -/

theorem CompiledRule.decide_of_agrees (h : r.Agrees s) (hpath : r.path = s.path)
    (c : CompiledRule) (url : Text) (asked : Bool) : c.decide r url asked =
      (c.decide s url asked).map (Option.map fun d ↦ { d with request := r }) := by
  have hrejection : Admission.rejection? c.options (some c.text) r =
      Admission.rejection? c.options (some c.text) s :=
    Admission.rejection?_congr fun check ↦ Check.passes_of_agrees h hpath check _ _
  refine decide_congr hrejection (by rw [h.ext]) fun captures _ ↦ ?_
  rw [h.ext]
  exact c.decision_withRequest s r _ _ _

namespace Table

/-- Where decisions are made the same way but for a change to them, so is the first one. -/
theorem firstOf_map {decide decide' : NodeId → Except Fault (Option Dispatch)}
    {f : Dispatch → Dispatch} (h : ∀ id, decide' id = (decide id).map (Option.map f))
    (ids : List NodeId) : firstOf decide' ids = (firstOf decide ids).map (Option.map f) := by
  induction ids with
  | nil => rfl
  | cons id rest ih =>
    rw [firstOf, firstOf, h]
    rcases decide id with fault | _ | d
    · rfl
    · exact ih
    · rfl

theorem decisionAt_of_agrees (h : r.Agrees s) (hpath : r.path = s.path) :
    t.decisionAt id r url asked anyDomain =
      (t.decisionAt id s url asked anyDomain).map
        (Option.map fun d ↦ { d with request := r }) := by
  rw [decisionAt, decisionAt]
  cases t.ruleAt id with
  | error fault => rfl
  | ok c => exact (c.on anyDomain).decide_of_agrees h hpath url asked

theorem answering_of_agrees (h : r.Agrees s) (hpath : r.path = s.path) (rid : RouterId)
    (url : Text) : t.answering rid r url =
      (t.answering rid s url).map fun d ↦ { d with request := r } := by
  have hfirst : t.firstDecisionOf r url false (t.routes rid) =
      (t.firstDecisionOf s url false (t.routes rid)).map
        (Option.map fun d ↦ { d with request := r }) :=
    firstOf_map (fun id ↦ decisionAt_of_agrees h hpath) _
  have hanywhere : t.firstAnywhereOf r url (t.router rid).everywhere =
      (t.firstAnywhereOf s url (t.router rid).everywhere).map
        (Option.map fun d ↦ { d with request := r }) := by
    refine firstOf_map (fun id ↦ ?_) _
    rw [anywhereAt, anywhereAt]
    split
    · exact decisionAt_of_agrees h hpath
    · rfl
  have hrefusal : Fault.refusal r = Fault.refusal s := by
    funext allowed
    rw [Fault.refusal, Fault.refusal, h.method, hpath]
  rw [answering, answering, hfirst, hanywhere, hrefusal]
  rcases t.firstDecisionOf s url false (t.routes rid) with fault | _ | d
  · rfl
  · rcases t.firstAnywhereOf s url (t.router rid).everywhere with fault | _ | d
    · rfl
    · cases t.allowedOf url (t.routes rid) <;> rfl
    · rfl
  · rfl

theorem routing_of_agrees (h : r.Agrees s) (hpath : r.path = s.path) (rid : RouterId) :
    t.routing rid r = (t.routing rid s).map fun d ↦ { d with request := t.completed rid r } := by
  have hcompleted : (t.completed rid r).path = (t.completed rid s).path := by
    obtain ⟨root, hroot⟩ := t.completed_eq rid r
    obtain ⟨root', hroot'⟩ := t.completed_eq rid s
    rw [hroot, hroot']
    exact hpath
  have hurl : t.urlOf rid r = t.urlOf rid s := by
    rw [urlOf, urlOf, Config.urlOf, Config.urlOf, hpath]
  rw [routing, routing, routed, routed, answering_of_agrees (h.completed t rid) hcompleted, hurl]
  cases t.readying rid <;> rfl

end Table

/-- A request that is made from plain values and one that is made from what a server interface tells
of the same request agree. The path is the same unless it is empty, and a router then answers both
alike: its decision carries the request as the router completes it. -/
theorem outcome_create_ofScope {scope : Request.Scope} {method path host scheme query : Text}
    {headers : List (Text × Text)} (hscope : scope.Tells method path host scheme headers query)
    (hmethod : Text.upper method = method)
    (hheaders : ∀ header ∈ headers, Headers.IsPlain header) (rootDomain : Option Text) :
    ∃ r s, Request.create method path host scheme (headers.map Headers.entry) query [] rootDomain =
        .ok r ∧
      Request.ofScope scope rootDomain = .ok s ∧ r.Agrees s ∧
      (path ≠ [] → r.path = s.path ∧ ∀ t : Table, t.Reachable → ∀ rid,
        (Action.route rid r).outcome t = ((Action.route rid s).outcome t).map
          fun d ↦ { d with request := t.completed rid r }) := by
  obtain ⟨r, s, hr, hs, hagrees, hspath, hrpath⟩ :=
    Request.exists_create_ofScope hscope hmethod hheaders rootDomain
  refine ⟨r, s, hr, hs, hagrees, fun hpath ↦ ?_⟩
  have hsame : r.path = s.path := by
    rw [hrpath, hspath, if_neg (mt List.isEmpty_iff.mp hpath)]
  refine ⟨hsame, fun t ht rid ↦ ?_⟩
  rw [(Action.route_answers ht.sound rid r).outcome_eq,
    (Action.route_answers ht.sound rid s).outcome_eq, Table.routing_of_agrees hagrees hsame]

/-- A page for scripts on one sub-domain. -/
def Table.scriptRule : Table := empty.afterAll
  [.addRouter [], .routeOn 0 { rule := "page", target := "x",
                               options := [(.str "domain", .str "api"), (.str "ajax", .bool true),
                                           (.str "ext", .str "html")] }]

theorem reachable_scriptRule : Table.scriptRule.Reachable := ⟨_, by decide, rfl⟩

/-- What a server interface tells of a request for a path. -/
def Http.Request.Scope.forPath (path : Text) (headers : List (Text × Text)) : Scope where
  method := some "GET"
  path := some path
  scheme := "http"
  headers := headers
  query := []
  server := .null

/-- The names of headers are given in capital letters here and in small ones there. -/
theorem outcome_create_ofScope_scriptRule : ∃ (scope : Request.Scope) (header : Text × Text)
    (r s : Request), header = ("x-requested-with".toList, "XMLHttpRequest".toList) ∧
    scope = .forPath "/page.html" [("Host", "api.shop.org"), ("X-Requested-With", header.2)] ∧
    scope.Tells "GET" "/page.html" "api.shop.org" "http" [header] [] ∧
    Text.upper "GET" = "GET" ∧ (∀ h ∈ [header], Headers.IsPlain h) ∧
    Request.create "GET" "/page.html" "api.shop.org" "http" [Headers.entry header] [] [] none =
      .ok r ∧
    Request.ofScope scope none = .ok s ∧ Table.scriptRule.Reachable ∧ ∃ d,
      (Action.route 0 s).outcome Table.scriptRule = .ok d ∧
      (Action.route 0 r).outcome Table.scriptRule = .ok { d with request := r } := by
  let header : Text × Text := ("x-requested-with", "XMLHttpRequest")
  let scope : Request.Scope :=
    .forPath "/page.html" [("Host", "api.shop.org"), ("X-Requested-With", header.2)]
  have hscope : scope.Tells "GET" "/page.html" "api.shop.org" "http" [header] [] :=
    ⟨rfl, rfl, rfl, ⟨[], [("X-Requested-With", header.2)], "Host", rfl, by decide, by decide⟩, rfl⟩
  have hheader : ∀ h ∈ [header], Headers.IsPlain h :=
    List.forall_mem_singleton.mpr ⟨by decide, by decide, by decide⟩
  obtain ⟨r, s, hr, hs, -, hpath⟩ := outcome_create_ofScope hscope (by decide) hheader none
  have hroute := (hpath (by decide)).2 _ reachable_scriptRule 0
  have htold : Request.ofScope scope none = .ok
      { Request.bare "GET" "/page.html" with
        host := "api.shop.org"
        headers := .ofPairs scope.headers } := rfl
  obtain rfl := Except.ok.inj (htold.symm.trans hs)
  have hfound : ((Action.route 0 { Request.bare "GET" "/page.html" with
      host := "api.shop.org"
      headers := .ofPairs scope.headers }).answer? Table.scriptRule).isSome = true := by decide
  obtain ⟨d, hd⟩ := Option.isSome_iff_exists.mp hfound
  rw [Action.outcome_of_answer? hd] at hroute
  have hcompleted : Table.scriptRule.completed 0 r = r := by
    rw [Table.completed, Config.complete]
    cases r.rootDomain <;> rfl
  rw [hcompleted] at hroute
  exact ⟨scope, header, r, _, rfl, rfl, hscope, by decide, hheader, hr, hs, reachable_scriptRule, d,
    Action.outcome_of_answer? hd, hroute⟩

/-- The root path, for requests of one extension. -/
def Table.rootRule : Table := empty.afterAll
  [.addRouter [], .routeOn 0 { rule := "/", target := "x",
                               options := [(.str "ext", .str "html")] }]

/-- The ways of making a request part for an empty path: only plain values make the root path of it,
which a rule accepts whatever the extension. -/
theorem not_forall_outcome_create_ofScope :
    (¬∀ (scope : Request.Scope) (path host : Text) (r s : Request),
      scope.Tells "GET" path host "http" [] [] →
      Request.create "GET" path host "http" [] [] [] none = .ok r →
      Request.ofScope scope none = .ok s → r.path = s.path) ∧
    ¬∀ (scope : Request.Scope) (path host : Text) (r s : Request),
      scope.Tells "GET" path host "http" [] [] →
      Request.create "GET" path host "http" [] [] [] none = .ok r →
      Request.ofScope scope none = .ok s → ∀ t : Table, t.Reachable →
      ((Action.route 0 r).outcome t).isOk = ((Action.route 0 s).outcome t).isOk := by
  let scope : Request.Scope := .forPath [] [("host", "localhost")]
  let r : Request := { Request.bare "GET" "/" with headers := .ofPairs [] }
  let s : Request := { Request.bare "GET" [] with headers := .ofPairs scope.headers }
  have hscope : scope.Tells "GET" [] "localhost" "http" [] [] :=
    ⟨rfl, rfl, rfl, ⟨[], [], "host", rfl, by decide, rfl⟩, rfl⟩
  constructor
  · intro h
    exact absurd (h scope [] "localhost" r s hscope rfl rfl) (by decide)
  · intro h
    have hanswers := h scope [] "localhost" r s hscope rfl rfl Table.rootRule ⟨_, by decide, rfl⟩
    exact absurd hanswers (by decide)

end UrlRouting

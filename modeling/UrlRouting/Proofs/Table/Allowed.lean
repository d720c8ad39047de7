import UrlRouting.Proofs.Http.Allow
import UrlRouting.Proofs.Table.Deciding
import UrlRouting.Proofs.Table.Reachable
import UrlRouting.Proofs.Table.Refusal
import UrlRouting.Proofs.Text.Boundary

/-!
Refusals that name other methods. Whether a rule turns a request away by its method is judged by
where the method stands in the option, whether a refusal is about methods by the methods that are
listed between bars; `methodNotAllowed_of_listed` and `listed_of_methodNotAllowed` say what follows
in either direction.
-/

namespace UrlRouting

open Http

variable {t s : Table} {id : NodeId} {rid : RouterId} {request : Request} {url text : Text}
  {methods : List Text} {fault : Fault} {e : HttpError} {d : Dispatch} {asked anyDomain : Bool}

/-! ### The check of the method -/

namespace Check

variable {option : Value} {options : Mapping} {listed : List Text}

theorem mem_listedMethods? (h : listedMethods? option = some listed) : ∃ text,
    option = .str text ∧ ∀ m, m ∈ listed ↔ m ∈ Text.splitAt '|' (Text.lower text) ∧ m ≠ [] := by
  rw [listedMethods?.eq_def] at h
  split at h
  next => cases h
  next text _ =>
    cases h
    exact ⟨text, rfl, fun m ↦ by simp⟩
  next => cases h

theorem passesMethod_eq_false_iff : passesMethod options request = false ↔ ∃ text,
    options.named "method" = .str text ∧ text ≠ [] ∧
      ¬Text.lower request.method <:+: Text.lower text := by
  rw [passesMethod]
  split
  next text hoption =>
    rw [hoption, Bool.or_eq_false_iff, List.isEmpty_eq_false_iff, ← Bool.not_eq_true,
      Text.occursIn_iff]
    simp
  next hoption =>
    constructor
    · intro h
      cases h
    · rintro ⟨text, htext, -⟩
      exact absurd htext (hoption text)

theorem listedMethods?_of_rejected (h : passesMethod options request = false) : ∃ listed,
    listedMethods? (options.named "method") = some listed ∧ Text.lower request.method ∉ listed := by
  obtain ⟨text, hoption, hne, hpart⟩ := passesMethod_eq_false_iff.mp h
  cases text with
  | nil => exact absurd rfl hne
  | cons c rest =>
    rw [hoption]
    refine ⟨_, rfl, fun hmem ↦ hpart ?_⟩
    exact Text.infix_of_mem_splitAt (List.mem_filter.mp hmem).1

end Check

namespace Table

theorem exists_listed_of_routing
    (h : t.routing rid request = .error (.http .methodNotAllowed e)) : ∃ methods,
    methods ≠ [] ∧ Text.lower request.method ∉ methods ∧ e = .methodNotAllowed methods [] ∧
    (∀ id ∈ t.routes rid, t.PathMatches id (t.urlOf rid request) →
      ∃ listed, t.listedAt id = some listed) ∧
    ∀ m, m ∈ methods ↔ ∃ id ∈ t.routes rid, t.PathMatches id (t.urlOf rid request) ∧
      ∃ listed ∈ t.listedAt id, m ∈ listed := by
  obtain ⟨allowed, hallowed, he⟩ := routing_eq_http h
  obtain ⟨hne, hmem, he⟩ := Fault.refusal_eq_methodNotAllowed.mp he.symm
  obtain ⟨root, hroot⟩ := t.completed_eq rid request
  rw [hroot] at hmem
  cases allowed with
  | none => exact absurd rfl hne
  | some methods =>
    obtain ⟨hlists, hmethods⟩ := allowedOf_eq_some hallowed
    exact ⟨methods, hne, hmem, he, hlists, hmethods⟩

end Table

/-- If a router refuses a request for its method, then there is a rule whose path matches, and no
such rule lists the method. All of them reject the method if and only if it is not even a part of
their options, and the refusal does not name the method if and only if no method that they list
reads like it in capital letters and without outer blanks. -/
theorem listed_of_methodNotAllowed (ht : t.Reachable)
    (h : (Action.route rid request).run t = .error (.http .methodNotAllowed e) s) :
    (∃ id ∈ t.routes rid, t.PathMatches id (t.urlOf rid request)) ∧
    (∀ id ∈ t.routes rid, t.PathMatches id (t.urlOf rid request) →
      ∃ listed, t.listedAt id = some listed ∧ Text.lower request.method ∉ listed) ∧
    ((∀ id ∈ t.routes rid, t.PathMatches id (t.urlOf rid request) →
        Check.passesMethod (t.effectiveOptions id) request = false) ↔
      ∀ id ∈ t.routes rid, t.PathMatches id (t.urlOf rid request) →
        ∀ text, Mapping.named (t.effectiveOptions id) "method" = .str text →
          ¬Text.lower request.method <:+: Text.lower text) ∧
    (Text.upper request.method ∉ e.allowed ↔
      Text.upper request.method = [] ∨
      ∀ id ∈ t.routes rid, t.PathMatches id (t.urlOf rid request) → ∀ listed ∈ t.listedAt id,
        ∀ m ∈ listed, Text.upper request.method ∉ Text.bareFields (Text.upper m)) := by
  have hrouting := ((Action.route_answers ht.sound rid request).run_error h).1
  obtain ⟨methods, hne, hmem, rfl, hlists, hmethods⟩ := Table.exists_listed_of_routing hrouting
  refine ⟨?_, fun id hid hmatches ↦ ?_, ?_, ?_⟩
  · obtain ⟨m, hm⟩ := List.exists_mem_of_ne_nil _ hne
    obtain ⟨id, hid, hmatches, -⟩ := (hmethods m).mp hm
    exact ⟨id, hid, hmatches⟩
  · obtain ⟨listed, hlisted⟩ := hlists id hid hmatches
    refine ⟨listed, hlisted, fun hin ↦ hmem ?_⟩
    exact (hmethods _).mpr ⟨id, hid, hmatches, listed, hlisted, hin⟩
  · refine forall_congr' fun id ↦ forall_congr' fun hid ↦ forall_congr' fun hmatches ↦ ?_
    obtain ⟨listed, hlisted⟩ := hlists id hid hmatches
    obtain ⟨text, hoption, -⟩ := Check.mem_listedMethods? hlisted
    have htext : text ≠ [] := by
      rintro rfl
      rw [Table.listedAt, hoption] at hlisted
      cases hlisted
    rw [Check.passesMethod_eq_false_iff]
    constructor
    · rintro ⟨text', hoption', -, hpart⟩ text'' hoption''
      cases hoption'.symm.trans hoption''
      exact hpart
    · exact fun hpart ↦ ⟨text, hoption, htext, hpart text hoption⟩
  · rw [HttpError.mem_allowed_methodNotAllowed, Classical.not_and_iff_not_or_not, ne_eq,
      Classical.not_not]
    refine or_congr_right ?_
    simp only [hmethods, not_exists, not_and]
    constructor
    · exact fun h id hid hmatches listed hlisted m hm ↦
        h m ⟨id, hid, hmatches, listed, hlisted, hm⟩
    · rintro h m ⟨id, hid, hmatches, listed, hlisted, hm⟩
      exact h id hid hmatches listed hlisted m hm

/-- A router with one rule, for secure requests, that lists methods with blanks around the bar. -/
def Table.secureRouter : Table := empty.afterAll
  [.addRouter [],
    .routeOn 0
      { rule := "s", target := "x", method := "get | post", options := [("https", .bool true)] }]

theorem reachable_secureRouter : Table.secureRouter.Reachable :=
  ⟨_, by decide, rfl⟩

theorem secureRouter_refuses : ∃ e s,
    (Action.route 0 (.bare "GET" "/s")).run Table.secureRouter =
      .error (.http .methodNotAllowed e) s ∧ e.allowed = ["POST".toList, "GET".toList] := by
  have hrun : (((Action.route 0 (.bare "GET" "/s")).fault? Table.secureRouter).bind
      Fault.refused?).map (Prod.map id HttpError.allowed) =
        some (.methodNotAllowed, ["POST".toList, "GET".toList]) := by decide +kernel
  obtain ⟨⟨kind, e⟩, hrefused, hallowed⟩ := Option.map_eq_some_iff.mp hrun
  obtain ⟨hkind, hnames⟩ := Prod.mk.inj hallowed
  cases hkind
  obtain ⟨fault, hfault, hrefused⟩ := Option.bind_eq_some_iff.mp hrefused
  rw [Fault.eq_http_of_refused? hrefused] at hfault
  obtain ⟨s, hs⟩ := Action.exists_run_of_fault? hfault
  exact ⟨e, s, hs, hnames⟩

theorem listed_secureRouter : ∃ e s, Table.secureRouter.Reachable ∧
    (Action.route 0 (.bare "GET" "/s")).run Table.secureRouter =
      .error (.http .methodNotAllowed e) s ∧
    (∃ id ∈ Table.secureRouter.routes 0, Table.secureRouter.PathMatches id
      (Table.secureRouter.urlOf 0 (.bare "GET" "/s"))) ∧
    (∀ id ∈ Table.secureRouter.routes 0, Table.secureRouter.PathMatches id
        (Table.secureRouter.urlOf 0 (.bare "GET" "/s")) →
      ∃ listed, Table.secureRouter.listedAt id = some listed ∧ Text.lower "GET" ∉ listed) := by
  obtain ⟨e, s, h, -⟩ := secureRouter_refuses
  obtain ⟨hmatches, hlisted, -, -⟩ := listed_of_methodNotAllowed reachable_secureRouter h
  exact ⟨e, s, reachable_secureRouter, h, hmatches, hlisted⟩

/-- A refusal may name the very method of the request. -/
theorem not_forall_rejected_of_methodNotAllowed : ¬∀ (t s : Table) (rid : RouterId)
    (request : Request) (e : HttpError), t.Reachable →
    (Action.route rid request).run t = .error (.http .methodNotAllowed e) s →
    (∃ id ∈ t.routes rid, t.PathMatches id (t.urlOf rid request)) ∧
    (∀ id ∈ t.routes rid, t.PathMatches id (t.urlOf rid request) →
      Check.passesMethod (t.effectiveOptions id) request = false) ∧
    Text.upper request.method ∉ e.allowed := by
  intro h
  obtain ⟨e, s, hrun, hallowed⟩ := secureRouter_refuses
  have hnot := (h _ _ _ _ _ reachable_secureRouter hrun).2.2
  rw [hallowed] at hnot
  exact hnot (by decide)

/-! ### Methods that are left out -/

namespace Table

variable {allowed : Option (List Text)} {ids : List NodeId} {m text : Text}

/-- The path of a rule that decides on a request matches the URL, unless it takes an extension
away. -/
theorem pathMatches_of_decisionAt
    (h : t.decisionAt id request url false anyDomain = .ok (some d))
    (hpath : ∀ c, t.ruleAt id = .ok c →
      c.trimmed request.ext url = c.trimmed [] url ∨ t.PathMatches id url) :
    t.PathMatches id url := by
  obtain ⟨-, c, captures, hat, hcaptures, -⟩ := decisionAt_eq_some h
  rcases hpath c hat with heq | hmatches
  · rw [heq] at hcaptures
    exact ⟨captures, bind_eq_ok_iff.mpr ⟨c, hat, hcaptures⟩⟩
  · exact hmatches

theorem allowedOf_of_rejected (h : t.allowedOf url ids = .ok allowed)
    (hrejects : ∀ id ∈ ids, Check.passesMethod (t.effectiveOptions id) request = false) :
    ∃ methods, allowed = some methods ∧ Text.lower request.method ∉ methods ∧
      ∀ id ∈ ids, t.PathMatches id url → ∀ listed ∈ t.listedAt id, ∀ m ∈ listed, m ∈ methods := by
  have hlists : ∀ id ∈ ids, ∃ listed, t.listedAt id = some listed ∧
      Text.lower request.method ∉ listed :=
    fun id hid ↦ Check.listedMethods?_of_rejected (hrejects id hid)
  cases allowed with
  | none =>
    obtain ⟨id, hid, -, hnone⟩ := allowedOf_eq_none h
    obtain ⟨listed, hlisted, -⟩ := hlists id hid
    cases hnone.symm.trans hlisted
  | some methods =>
    obtain ⟨-, hmethods⟩ := allowedOf_eq_some h
    refine ⟨methods, rfl, fun hin ↦ ?_, fun id hid hmatches listed hlisted m hm ↦ ?_⟩
    · obtain ⟨id, hid, -, listed, hlisted, hin⟩ := (hmethods _).mp hin
      obtain ⟨listed', hlisted', hnot⟩ := hlists id hid
      cases hlisted.symm.trans hlisted'
      exact hnot hin
    · exact (hmethods m).mpr ⟨id, hid, hmatches, listed, hlisted, hm⟩

theorem exists_listed_of_mem_splitAt
    (hoption : Mapping.named (t.effectiveOptions id) "method" = .str text)
    (hm : m ∈ Text.splitAt '|' text) (hne : m ≠ []) :
    ∃ listed, t.listedAt id = some listed ∧ Text.lower m ∈ listed := by
  have htext : text ≠ [] := by
    rintro rfl
    exact hne (List.mem_singleton.mp hm)
  obtain ⟨c, rest, rfl⟩ := List.exists_cons_of_ne_nil htext
  refine ⟨_, by rw [listedAt, hoption]; rfl, ?_⟩
  rw [List.mem_filter, Text.splitAt_lower (by decide)]
  refine ⟨List.mem_map_of_mem hm, ?_⟩
  simpa using Text.lower_ne_nil hne

end Table

/-- If all rules of a router reject the method of a request, and a rule would decide on it under one
of the methods that it lists, then the router refuses the request for its method and names this one,
unless a fault breaks routing off. The path of the rule has to match the URL with its extension, if
the rule takes the extension away. -/
theorem methodNotAllowed_of_listed {m listed : Text} {root : Option Text} (ht : t.Reachable)
    (hrejects : ∀ id ∈ t.routes rid ++ (t.router rid).everywhere,
      Check.passesMethod (t.effectiveOptions id) request = false)
    (hid : id ∈ t.routes rid)
    (hoption : Mapping.named (t.effectiveOptions id) "method" = .str listed)
    (hm : m ∈ Text.splitAt '|' listed) (hne : m ≠ [])
    (hd : (Action.checkRule id { request with method := m, rootDomain := root }
      (t.urlOf rid request) false anyDomain).run t = .ok (some d) s)
    (hpath : ∀ c, t.ruleAt id = .ok c →
      c.trimmed request.ext (t.urlOf rid request) = c.trimmed [] (t.urlOf rid request) ∨
        t.PathMatches id (t.urlOf rid request)) :
    ∃ fault u, (Action.route rid request).run t = .error fault u ∧
      ((∃ e, fault = .http .methodNotAllowed e ∧
        ∀ field ∈ Text.bareFields (Text.upper (Text.lower m)), field ≠ [] → field ∈ e.allowed) ∨
      t.Breaks rid request fault) := by
  have hanswer := Action.route_answers ht.sound rid request
  have hmethod : (t.completed rid request).method = request.method := by
    obtain ⟨root', hroot⟩ := t.completed_eq rid request
    rw [hroot]
  have hdecides := ((Action.checkRule_answers ht.sound _ _ _ _ _).run_ok hd).1
  have hmatches : t.PathMatches id (t.urlOf rid request) :=
    Table.pathMatches_of_decisionAt hdecides hpath
  obtain ⟨own, hown, hmem⟩ := Table.exists_listed_of_mem_splitAt hoption hm hne
  rcases t.routing_cases rid request with ⟨d', other, anyDomain', -, hother, hd'⟩ |
    ⟨fault, hfault, hbreaks⟩ | ⟨allowed, hallowed, hrefusal⟩
  · have hpasses := (Table.decisionAt_eq_some hd').1
    have hrejected := hrejects other hother
    rw [Check.passesMethod, hmethod] at hpasses
    rw [Check.passesMethod, hpasses] at hrejected
    cases hrejected
  · rw [hfault] at hanswer
    obtain ⟨u, hu, -⟩ := hanswer.exists_run_error
    exact ⟨fault, u, hu, .inr hbreaks⟩
  · rw [hrefusal] at hanswer
    obtain ⟨u, hu, -⟩ := hanswer.exists_run_error
    obtain ⟨methods, rfl, hnot, hmethods⟩ := Table.allowedOf_of_rejected hallowed
      fun other hother ↦ hrejects other (List.mem_append_left _ hother)
    have hin : Text.lower m ∈ methods := hmethods id hid hmatches own hown _ hmem
    have hrefuse := Fault.refusal_eq_methodNotAllowed.mpr
      ⟨List.ne_nil_of_mem hin, hmethod ▸ hnot, rfl⟩
    refine ⟨_, u, hu, .inl ⟨_, hrefuse, fun field hfield hfne ↦ ?_⟩⟩
    exact HttpError.mem_allowed_methodNotAllowed.mpr ⟨hfne, _, hin, hfield⟩

/-- A router with a rule that takes an extension away, and one for two methods. -/
def Table.pagesRouter : Table := empty.afterAll
  [.addRouter [],
    .routeOn 0 { rule := "page", target := "x", method := "get", options := [("ext", "html")] },
    .routeOn 0 { rule := "form", target := "y", method := "get|post" }]

theorem reachable_pagesRouter : Table.pagesRouter.Reachable :=
  ⟨_, by decide, rfl⟩

theorem pagesRouter_rejects : ∀ id ∈ Table.pagesRouter.routes 0 ++
      (Table.pagesRouter.router 0).everywhere,
    Check.passesMethod (Table.pagesRouter.effectiveOptions id) (.bare "PUT" []) = false := by
  decide +kernel

theorem pagesRouter_lists : ∀ rule ∈ [(1, "get".toList), (2, "get|post".toList)],
    Mapping.named (Table.pagesRouter.effectiveOptions rule.1) "method" = .str rule.2 := by
  have htext : ∀ rule ∈ [(1, "get".toList), (2, "get|post".toList)],
      (Mapping.named (Table.pagesRouter.effectiveOptions rule.1) "method").text? = some rule.2 := by
    decide
  exact fun rule hmem ↦ Value.text?_eq_some_iff.mp (htext rule hmem)

theorem pagesRouter_decides : ∀ visit ∈ [(1, "get".toList, "page.html".toList),
    (2, "post".toList, "form".toList)], ∃ d s,
      (Action.checkRule visit.1 (.bare visit.2.1 ('/' :: visit.2.2)) visit.2.2 false false).run
        Table.pagesRouter = .ok (some d) s := by
  have hrun : ∀ visit ∈ [(1, "get".toList, "page.html".toList), (2, "post".toList, "form".toList)],
      ((Action.checkRule visit.1 (.bare visit.2.1 ('/' :: visit.2.2)) visit.2.2 false
        false).answer? Table.pagesRouter).join.isSome = true := by decide +kernel
  intro visit hvisit
  obtain ⟨d, hd⟩ := Option.isSome_iff_exists.mp (hrun visit hvisit)
  obtain ⟨s, hs⟩ := Action.exists_run_of_answer? (Option.join_eq_some_iff.mp hd)
  exact ⟨d, s, hs⟩

theorem methodNotAllowed_pagesRouter : ∃ d s fault u, Table.pagesRouter.Reachable ∧
    (∀ id ∈ Table.pagesRouter.routes 0 ++ (Table.pagesRouter.router 0).everywhere,
      Check.passesMethod (Table.pagesRouter.effectiveOptions id) (.bare "PUT" "/form") = false) ∧
    2 ∈ Table.pagesRouter.routes 0 ∧
    Mapping.named (Table.pagesRouter.effectiveOptions 2) "method" = "get|post" ∧
    "post".toList ∈ Text.splitAt '|' "get|post" ∧ "post".toList ≠ [] ∧
    (Action.checkRule 2 (.bare "post" "/form") (Table.pagesRouter.urlOf 0 (.bare "PUT" "/form"))
      false false).run Table.pagesRouter = .ok (some d) s ∧
    (∀ c : CompiledRule, Table.pagesRouter.ruleAt 2 = .ok c →
      c.trimmed (Request.bare "PUT" "/form").ext (Table.pagesRouter.urlOf 0 (.bare "PUT" "/form")) =
        c.trimmed [] (Table.pagesRouter.urlOf 0 (.bare "PUT" "/form"))) ∧
    (Action.route 0 (.bare "PUT" "/form")).run Table.pagesRouter = .error fault u ∧
    ((∃ e, fault = .http .methodNotAllowed e ∧
      ∀ field ∈ Text.bareFields (Text.upper (Text.lower "post")), field ≠ [] →
        field ∈ e.allowed) ∨
    Table.pagesRouter.Breaks 0 (.bare "PUT" "/form") fault) := by
  have hurl : Table.pagesRouter.urlOf 0 (.bare "PUT" "/form") = "form".toList := by decide +kernel
  obtain ⟨d, s, hd⟩ := pagesRouter_decides (2, "post".toList, "form".toList) (by simp)
  have hd' : (Action.checkRule 2 (.bare "post" "/form")
      (Table.pagesRouter.urlOf 0 (.bare "PUT" "/form")) false false).run Table.pagesRouter =
        .ok (some d) s := by
    rw [hurl]
    exact hd
  have hrejects : ∀ id ∈ Table.pagesRouter.routes 0 ++ (Table.pagesRouter.router 0).everywhere,
      Check.passesMethod (Table.pagesRouter.effectiveOptions id) (.bare "PUT" "/form") = false :=
    pagesRouter_rejects
  have hid : 2 ∈ Table.pagesRouter.routes 0 := by decide +kernel
  have hoption := pagesRouter_lists (2, "get|post".toList) (by simp)
  have hm : "post".toList ∈ Text.splitAt '|' "get|post" := by decide
  have htrimmed : ∀ c : CompiledRule, Table.pagesRouter.ruleAt 2 = .ok c →
      c.trimmed (Request.bare "PUT" "/form").ext (Table.pagesRouter.urlOf 0 (.bare "PUT" "/form")) =
        c.trimmed [] (Table.pagesRouter.urlOf 0 (.bare "PUT" "/form")) := fun _ _ ↦ rfl
  obtain ⟨fault, u, hrun, hfault⟩ := methodNotAllowed_of_listed reachable_pagesRouter hrejects hid
    hoption hm (by decide) hd' fun c hc ↦ .inl (htrimmed c hc)
  exact ⟨d, s, fault, u, reachable_pagesRouter, hrejects, hid, hoption, hm, by decide, hd',
    htrimmed, hrun, hfault⟩

/-- A method that a rule lists and would decide on need not be named. -/
theorem not_forall_methodNotAllowed : ¬∀ (t s : Table) (rid : RouterId) (request : Request)
    (id : NodeId) (listed m : Text) (d : Dispatch), t.Reachable →
    (∀ id ∈ t.routes rid ++ (t.router rid).everywhere,
      Check.passesMethod (t.effectiveOptions id) request = false) →
    id ∈ t.routes rid → Mapping.named (t.effectiveOptions id) "method" = .str listed →
    m ∈ Text.splitAt '|' listed →
    (Action.checkRule id { request with method := m } (t.urlOf rid request) false false).run t =
      .ok (some d) s →
    ∃ e u, (Action.route rid request).run t = .error (.http .methodNotAllowed e) u ∧
      Text.upper m ∈ e.allowed := by
  intro h
  have hurl : Table.pagesRouter.urlOf 0 (.bare "PUT" "/page.html") = "page.html".toList := by
    decide +kernel
  obtain ⟨d, s, hd⟩ := pagesRouter_decides (1, "get".toList, "page.html".toList) (by simp)
  have hd' : (Action.checkRule 1 { Request.bare "PUT" "/page.html" with method := "get".toList }
      (Table.pagesRouter.urlOf 0 (.bare "PUT" "/page.html")) false false).run Table.pagesRouter =
        .ok (some d) s := by
    rw [hurl]
    exact hd
  have hoption := pagesRouter_lists (1, "get".toList) (by simp)
  obtain ⟨e, u, hrun, -⟩ := h _ _ 0 (.bare "PUT" "/page.html") 1 _ _ d reachable_pagesRouter
    pagesRouter_rejects (by decide +kernel) hoption (by decide) hd'
  have hkind : (((Action.route 0 (.bare "PUT" "/page.html")).fault? Table.pagesRouter).bind
      Fault.refused?).map Prod.fst = some .notFound := by decide +kernel
  rw [Action.fault?, hrun] at hkind
  cases hkind

end UrlRouting

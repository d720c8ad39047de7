import UrlRouting.Proofs.Http.Written
import UrlRouting.Proofs.Table.Allowed

/-!
The `Allow` header of a refusal. It lists the methods that stand between bars in the options of the
rules whose path matches, and what is read back from it are the fields of these methods. So the
names read back are the methods if and only if none of these has a comma or an outer blank
(`allow_of_methodNotAllowed`).
-/

namespace UrlRouting

open Http

variable {t s : Table} {rid : RouterId} {request : Request} {e : HttpError} {token name : Text}
  {methods : List Text}

/-- A rule whose path matches has the text between bars in its method option. -/
def Table.Offers (t : Table) (rid : RouterId) (request : Request) (token : Text) : Prop :=
  token ≠ [] ∧ ∃ id ∈ t.routes rid, t.PathMatches id (t.urlOf rid request) ∧
    ∃ option, Mapping.named (t.effectiveOptions id) "method" = .str option ∧
      token ∈ Text.splitAt '|' option

/-- The form in which a refusal names a method. -/
def HttpError.spelled (token : Text) : Text := Text.upper (Text.lower token)

namespace Table

theorem exists_offers_of_routing
    (h : t.routing rid request = .error (.http .methodNotAllowed e)) : ∃ methods,
    e = .methodNotAllowed methods [] ∧
      ∀ m, m ∈ methods ↔ ∃ token, t.Offers rid request token ∧ m = Text.lower token := by
  obtain ⟨methods, -, -, he, hlists, hmethods⟩ := exists_listed_of_routing h
  refine ⟨methods, he, fun m ↦ (hmethods m).trans ⟨?_, ?_⟩⟩
  · rintro ⟨id, hid, hmatches, listed, hlisted, hm⟩
    obtain ⟨option, hoption, hmem⟩ := Check.mem_listedMethods? hlisted
    obtain ⟨hpiece, hne⟩ := (hmem m).mp hm
    rw [Text.splitAt_lower (by decide)] at hpiece
    obtain ⟨token, htoken, rfl⟩ := List.mem_map.mp hpiece
    have hfilled : token ≠ [] := by
      rintro rfl
      exact hne rfl
    exact ⟨token, ⟨hfilled, id, hid, hmatches, option, hoption, htoken⟩, rfl⟩
  · rintro ⟨token, ⟨hne, id, hid, hmatches, option, hoption, htoken⟩, rfl⟩
    obtain ⟨listed, hlisted, hm⟩ := exists_listed_of_mem_splitAt hoption htoken hne
    exact ⟨id, hid, hmatches, listed, hlisted, hm⟩

end Table

/-- The header of a refusal lists the methods that are offered for the path, in capital letters,
each once and in their order. Read back, it gives the fields of these methods, which are the methods
themselves if and only if no method has a comma or an outer blank. -/
theorem allow_of_methodNotAllowed (ht : t.Reachable)
    (h : (Action.route rid request).run t = .error (.http .methodNotAllowed e) s) :
    ∃ names : List Text, e.headers = [("Allow".toList, Text.join ", " names)] ∧
      names.Pairwise (· < ·) ∧
      (∀ name, name ∈ names ↔
        ∃ token, t.Offers rid request token ∧ name = HttpError.spelled token) ∧
      (∀ name, name ∈ e.allowed ↔ name ≠ [] ∧
        ∃ token, t.Offers rid request token ∧ name ∈ Text.bareFields (HttpError.spelled token)) ∧
      ((∀ name, name ∈ e.allowed ↔ name ∈ names) ↔
        ∀ token, t.Offers rid request token → Text.IsBare token) := by
  have hrouting := ((Action.route_answers ht.sound rid request).run_error h).1
  obtain ⟨methods, rfl, hmethods⟩ := Table.exists_offers_of_routing hrouting
  refine ⟨Text.sorted (methods.map Text.upper), rfl, Text.pairwise_sorted _, fun name ↦ ?_,
    fun name ↦ ?_, ?_⟩
  · rw [Text.mem_sorted, List.mem_map]
    constructor
    · rintro ⟨m, hm, rfl⟩
      obtain ⟨token, htoken, rfl⟩ := (hmethods m).mp hm
      exact ⟨token, htoken, rfl⟩
    · rintro ⟨token, htoken, rfl⟩
      exact ⟨_, (hmethods _).mpr ⟨token, htoken, rfl⟩, rfl⟩
  · rw [HttpError.mem_allowed_methodNotAllowed]
    refine and_congr_right fun _ ↦ ⟨?_, ?_⟩
    · rintro ⟨m, hm, hfield⟩
      obtain ⟨token, htoken, rfl⟩ := (hmethods m).mp hm
      exact ⟨token, htoken, hfield⟩
    · rintro ⟨token, htoken, hfield⟩
      exact ⟨_, (hmethods _).mpr ⟨token, htoken, rfl⟩, hfield⟩
  · have hfilled : ∀ m ∈ methods, Text.upper m ≠ [] := by
      intro m hm
      obtain ⟨token, htoken, rfl⟩ := (hmethods m).mp hm
      exact Text.upper_ne_nil (Text.lower_ne_nil htoken.1)
    rw [HttpError.allowed_iff_mem_sorted hfilled]
    constructor
    · intro hbare token htoken
      exact (Text.isBare_upper_lower token).mp (hbare _ ((hmethods _).mpr ⟨token, htoken, rfl⟩))
    · intro hbare m hm
      obtain ⟨token, htoken, rfl⟩ := (hmethods m).mp hm
      exact (Text.isBare_upper_lower token).mpr (hbare token htoken)

/-- A router with one rule that lists a method with a blank behind it, and one with a blank before
it and a letter without a single capital. -/
def Table.sharpRouter : Table := empty.afterAll
  [.addRouter [],
    .routeOn 0 { rule := "s", target := "x", options := [("method", .str "get | ẞ")] }]

theorem reachable_sharpRouter : Table.sharpRouter.Reachable :=
  ⟨_, by decide, rfl⟩

theorem sharpRouter_refuses : ∃ e s,
    (Action.route 0 (.bare "POST" "/s")).run Table.sharpRouter =
      .error (.http .methodNotAllowed e) s ∧
    e.headers = [("Allow".toList, " SS, GET ".toList)] ∧
    e.allowed = ["SS".toList, "GET".toList] := by
  have hrun : (((Action.route 0 (.bare "POST" "/s")).fault? Table.sharpRouter).bind
      Fault.refused?).map (Prod.map id HttpError.headers) =
        some (.methodNotAllowed, [("Allow".toList, " SS, GET ".toList)]) := by decide +kernel
  obtain ⟨⟨kind, e⟩, hrefused, hshown⟩ := Option.map_eq_some_iff.mp hrun
  obtain ⟨hkind, hheader⟩ := Prod.mk.inj hshown
  cases hkind
  obtain ⟨fault, hfault, hrefused⟩ := Option.bind_eq_some_iff.mp hrefused
  rw [Fault.eq_http_of_refused? hrefused] at hfault
  obtain ⟨s, hs⟩ := Action.exists_run_of_fault? hfault
  have hheaders : e.headers = [("Allow".toList, " SS, GET ".toList)] := hheader
  refine ⟨e, s, hs, hheaders, ?_⟩
  rw [HttpError.allowed, hheaders]
  decide

theorem sharpRouter_offers (h : Table.sharpRouter.Offers 0 request token) :
    token ∈ ["get ".toList, " ẞ".toList] := by
  obtain ⟨-, id, hid, -, option, hoption, htoken⟩ := h
  have hroutes : Table.sharpRouter.routes 0 = [1] := rfl
  rw [hroutes, List.mem_singleton] at hid
  have hmethods : Mapping.named (Table.sharpRouter.effectiveOptions 1) "method" =
      .str "get | ẞ" := rfl
  rw [hid, hmethods] at hoption
  cases hoption
  exact htoken

/-- The names read back from the header are not those that it lists. -/
theorem allow_sharpRouter : ∃ e s, Table.sharpRouter.Reachable ∧
    (Action.route 0 (.bare "POST" "/s")).run Table.sharpRouter =
      .error (.http .methodNotAllowed e) s ∧
    e.allowed = ["SS".toList, "GET".toList] ∧
    ∃ names : List Text, e.headers = [("Allow".toList, Text.join ", " names)] ∧
      names.Pairwise (· < ·) ∧ ¬∀ name, name ∈ e.allowed ↔ name ∈ names := by
  obtain ⟨e, s, hrun, -, hallowed⟩ := sharpRouter_refuses
  have hends : ∀ token ∈ ["get ".toList, " ẞ".toList],
      Text.trim Text.isBlank token ≠ token := by decide
  obtain ⟨names, hnames, hordered, -, hread, hback⟩ :=
    allow_of_methodNotAllowed reachable_sharpRouter hrun
  refine ⟨e, s, reachable_sharpRouter, hrun, hallowed, names, hnames, hordered, fun hall ↦ ?_⟩
  obtain ⟨-, token, htoken, -⟩ := (hread "SS").mp (hallowed ▸ List.mem_cons_self)
  exact hends token (sharpRouter_offers htoken) (hback.mp hall token htoken).ends

/-- Neither what is read back from the header nor the header itself need be made of the methods in
capital letters. -/
theorem not_forall_allow :
    (¬∀ (t s : Table) (rid : RouterId) (request : Request) (e : HttpError), t.Reachable →
      (Action.route rid request).run t = .error (.http .methodNotAllowed e) s →
      ∀ name, name ∈ e.allowed ↔
        ∃ token, t.Offers rid request token ∧ name = Text.upper token) ∧
    ¬∀ (t s : Table) (rid : RouterId) (request : Request) (e : HttpError), t.Reachable →
      (Action.route rid request).run t = .error (.http .methodNotAllowed e) s →
      ∃ names : List Text, e.headers = [("Allow".toList, Text.join ", " names)] ∧
        names.Pairwise (· < ·) ∧
        ∀ name, name ∈ names ↔
          ∃ token, t.Offers rid request token ∧ name = Text.upper token := by
  obtain ⟨e, s, hrun, hheaders, hallowed⟩ := sharpRouter_refuses
  have hcapitals : ∀ token ∈ ["get ".toList, " ẞ".toList],
      Text.upper token ≠ "SS".toList ∧ ∀ c ∈ Text.upper token, c ≠ 'S' := by decide
  constructor
  · intro h
    have hmem : "SS".toList ∈ e.allowed := hallowed ▸ List.mem_cons_self
    obtain ⟨token, htoken, hname⟩ := (h _ _ _ _ _ reachable_sharpRouter hrun _).mp hmem
    exact (hcapitals token (sharpRouter_offers htoken)).1 hname.symm
  · intro h
    obtain ⟨names, hnames, -, hlisted⟩ := h _ _ _ _ _ reachable_sharpRouter hrun
    have hplain : ∀ c ∈ Text.join ", " names, c ≠ 'S' := by
      refine Query.forall_mem_join (P := fun c ↦ c ≠ 'S') (by decide) fun name hname ↦ ?_
      obtain ⟨token, htoken, rfl⟩ := (hlisted name).mp hname
      exact (hcapitals token (sharpRouter_offers htoken)).2
    have hallow : " SS, GET ".toList = Text.join ", " names := by
      have hentry := (List.cons.inj (hheaders.symm.trans hnames)).1
      exact congrArg Prod.snd hentry
    exact hplain 'S' (hallow ▸ by decide) rfl

end UrlRouting

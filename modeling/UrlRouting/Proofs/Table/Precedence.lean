import UrlRouting.Proofs.Table.Reachable
import UrlRouting.Proofs.Table.Refusal

/-!
What a router answers, told from what its rules answer one by one. The first decision of the rules
counts, in the order of declaration, and after them of those that are valid on every domain. Where
there is none, the rules whose path matches have to list methods, all of them, for a refusal to be
about the method: `route_outcome`.
-/

namespace UrlRouting

open Http

variable {t : Table} {id : NodeId} {rid : RouterId} {request : Request} {url : Text}
  {ids : List NodeId} {captured : NodeId → Option Captures}

namespace Table

theorem firstOf_eq_findSome? {decide : NodeId → Except Fault (Option Dispatch)}
    {decided : NodeId → Option Dispatch} (h : ∀ id ∈ ids, decide id = .ok (decided id)) :
    firstOf decide ids = .ok ((ids.map decided).findSome? fun d ↦ d) := by
  induction ids with
  | nil => rfl
  | cons first rest ih =>
    have hrest := ih fun other hmem ↦ h other (List.mem_cons_of_mem _ hmem)
    rw [firstOf, h first List.mem_cons_self, List.map_cons, List.findSome?_cons]
    cases decided first with
    | some d => rfl
    | none => exact hrest

/-! ### Methods -/

/-- The pieces between the bars of the `method` option of a rule, in small letters. -/
def tokensAt (t : Table) (id : NodeId) : List Text :=
  (Text.splitAt '|' (Text.lower (Mapping.named (t.effectiveOptions id) "method").plain)).filter
    (!·.isEmpty)

def ListsMethods (t : Table) (id : NodeId) : Prop :=
  ∃ text, text ≠ [] ∧ Mapping.named (t.effectiveOptions id) "method" = .str text

theorem listedAt_of_listsMethods (h : t.ListsMethods id) :
    t.listedAt id = some (t.tokensAt id) := by
  obtain ⟨text, hne, htext⟩ := h
  rw [listedAt, tokensAt, htext]
  cases text with
  | nil => exact absurd rfl hne
  | cons c rest => rfl

theorem listedAt_of_not_listsMethods (h : ¬t.ListsMethods id) : t.listedAt id = none := by
  cases hlisted : t.listedAt id with
  | none => rfl
  | some listed =>
    rw [listedAt, Check.listedMethods?.eq_def] at hlisted
    split at hlisted
    next => cases hlisted
    next text hne htext => exact absurd ⟨text, hne, htext⟩ h
    next => cases hlisted

/-- Rules that capture something from a URL are asked for their methods, and all of them have to
list some. -/
theorem exists_allowedOf (h : ∀ id ∈ ids, t.capturesAt id url false = .ok (captured id)) :
    ∃ allowed, t.allowedOf url ids = .ok allowed ∧
      ((∀ id ∈ ids.filter fun id ↦ (captured id).isSome, t.ListsMethods id) →
        allowed = some ((ids.filter fun id ↦ (captured id).isSome).flatMap t.tokensAt)) ∧
      ((¬∀ id ∈ ids.filter fun id ↦ (captured id).isSome, t.ListsMethods id) →
        allowed = none) := by
  induction ids with
  | nil => exact ⟨some [], rfl, fun _ ↦ rfl, fun hnot ↦ absurd nofun hnot⟩
  | cons first rest ih =>
    obtain ⟨more, hmore, hlists, hnot⟩ := ih fun other hmem ↦ h other (List.mem_cons_of_mem _ hmem)
    have hfirst := h first List.mem_cons_self
    cases hc : captured first with
    | none =>
      rw [hc] at hfirst
      rw [allowedOf_cons_of_none hfirst, List.filter_cons_of_neg (by simp [hc])]
      exact ⟨more, hmore, hlists, hnot⟩
    | some captures =>
      rw [hc] at hfirst
      rw [allowedOf_cons_of_pathMatches ⟨captures, hfirst⟩,
        List.filter_cons_of_pos (by simp [hc]), List.forall_mem_cons, List.flatMap_cons]
      by_cases hl : t.ListsMethods first
      · rw [listedAt_of_listsMethods hl, hmore]
        refine ⟨more.map (t.tokensAt first ++ ·), rfl, fun hall ↦ ?_, fun hall ↦ ?_⟩
        · rw [hlists hall.2]
          rfl
        · rw [hnot fun hrest ↦ hall ⟨hl, hrest⟩]
          rfl
      · rw [listedAt_of_not_listsMethods hl]
        exact ⟨none, rfl, fun hall ↦ absurd hall.1 hl, fun _ ↦ rfl⟩

/-- The rules are for other methods: there are some, all of them list methods, and the method is
none of those. -/
structure OnlyForOthers (t : Table) (matching : List NodeId) (method : Text) : Prop where
  exists_matching : matching ≠ []
  lists : ∀ id ∈ matching, t.ListsMethods id
  nonempty : matching.flatMap t.tokensAt ≠ []
  not_listed : Text.lower method ∉ matching.flatMap t.tokensAt

/-- The methods that a refusal would name are wrong for the request if some rule that it would count
lists none, if there are no such methods, or if that of the request is one of them. -/
theorem refusal_of_onlyForOthers {matching : List NodeId} {allowed : Option (List Text)}
    (hlists : (∀ id ∈ matching, t.ListsMethods id) →
      allowed = some (matching.flatMap t.tokensAt))
    (hnot : (¬∀ id ∈ matching, t.ListsMethods id) → allowed = none) :
    (t.OnlyForOthers matching request.method → Fault.refusal request (allowed.getD []) =
      .http .methodNotAllowed (.methodNotAllowed (matching.flatMap t.tokensAt) [])) ∧
    (¬t.OnlyForOthers matching request.method → Fault.refusal request (allowed.getD []) =
      .http .notFound (.notFound
        ("No rule matches ".toList ++ request.method ++ ' ' :: Text.quoted request.path))) := by
  constructor
  · rintro ⟨-, hall, hne, hmem⟩
    rw [hlists hall]
    exact Fault.refusal_eq_methodNotAllowed.mpr ⟨hne, hmem, rfl⟩
  · intro hothers
    rw [Fault.refusal, if_pos]
    rw [Bool.or_eq_true, List.isEmpty_iff, List.contains_iff_mem]
    by_cases hall : ∀ id ∈ matching, t.ListsMethods id
    · rw [hlists hall, Option.getD_some]
      refine Classical.byContradiction fun hor ↦ ?_
      obtain ⟨hne, hmem⟩ := not_or.mp hor
      have hmatching : matching ≠ [] := by
        rintro rfl
        exact hne rfl
      exact hothers ⟨hmatching, hall, hne, hmem⟩
    · rw [hnot hall]
      exact .inl rfl

/-- What the rules of a router answer when they are asked one by one: what they decide, what those
that are valid on every domain decide there, and what their paths capture. No rule fails. -/
structure Asked (t : Table) (rid : RouterId) (request : Request) (url : Text)
    (decided anywhere : NodeId → Option Dispatch) (captured : NodeId → Option Captures) : Prop where
  decided : ∀ id ∈ t.routes rid,
    (Action.checkRule id request url false false).outcome t = .ok (decided id)
  anywhere : ∀ id ∈ (t.router rid).everywhere,
    (Action.checkRule id request url false true).outcome t = .ok (anywhere id)
  captured : ∀ id ∈ t.routes rid, (Action.matchPath id url false).outcome t = .ok (captured id)

/-- The first decision of the rules of a router in the order of declaration, and after them of those
that are valid on every domain. -/
def firstMade (t : Table) (rid : RouterId) (decided anywhere : NodeId → Option Dispatch) :
    Option Dispatch :=
  ((t.routes rid).map decided ++ (t.router rid).everywhere.map anywhere).findSome? fun d ↦ d

def matching (t : Table) (rid : RouterId) (captured : NodeId → Option Captures) : List NodeId :=
  (t.routes rid).filter fun id ↦ (captured id).isSome

variable {decided anywhere : NodeId → Option Dispatch}

theorem answering_of_asked (ht : t.Sound)
    (h : t.Asked rid request url decided anywhere captured) :
    ∃ allowed : Option (List Text),
      t.answering rid request url = (match t.firstMade rid decided anywhere with
        | some d => .ok d
        | none => .error (.refusal request (allowed.getD []))) ∧
      ((∀ id ∈ t.matching rid captured, t.ListsMethods id) →
        allowed = some ((t.matching rid captured).flatMap t.tokensAt)) ∧
      ((¬∀ id ∈ t.matching rid captured, t.ListsMethods id) → allowed = none) := by
  have hroutes : t.firstDecisionOf request url false (t.routes rid) =
      .ok (((t.routes rid).map decided).findSome? fun d ↦ d) := by
    refine firstOf_eq_findSome? fun id hid ↦ ?_
    rw [← (Action.checkRule_answers ht id _ _ _ _).outcome_eq, h.decided id hid]
  have heverywhere : t.firstAnywhereOf request url (t.router rid).everywhere =
      .ok (((t.router rid).everywhere.map anywhere).findSome? fun d ↦ d) := by
    refine firstOf_eq_findSome? fun id hid ↦ ?_
    have hd := h.anywhere id hid
    rw [(Action.checkRule_answers ht id _ _ _ _).outcome_eq] at hd
    rw [anywhereAt, if_pos (isRule_of_decisionAt hd), hd]
  obtain ⟨allowed, hallowed, hlists, hnot⟩ := exists_allowedOf fun id hid ↦ by
    rw [← (Action.matchPath_answers ht id _ _).outcome_eq]
    exact h.captured id hid
  refine ⟨allowed, ?_, hlists, hnot⟩
  rw [answering, hroutes, heverywhere, hallowed, firstMade, List.findSome?_append]
  cases ((t.routes rid).map decided).findSome? fun d ↦ d with
  | some d => rfl
  | none => cases ((t.router rid).everywhere.map anywhere).findSome? fun d ↦ d <;> rfl

end Table

/-- A compiled router, none of whose rules fails when it is asked, answers with the first decision
that is made. Where there is none, it refuses the request: for its method, and with all methods that
the rules whose path matches list, if these rules are for other methods, and otherwise since nothing
is found. -/
theorem route_outcome {decided anywhere : NodeId → Option Dispatch} (ht : t.Reachable)
    (hcompiled : (t.router rid).compiled = true)
    (h : t.Asked rid (t.completed rid request) (t.urlOf rid (t.completed rid request)) decided
      anywhere captured) :
    (∀ d, t.firstMade rid decided anywhere = some d →
      (Action.route rid request).outcome t = .ok d) ∧
    (t.firstMade rid decided anywhere = none →
      (t.OnlyForOthers (t.matching rid captured) request.method →
        (Action.route rid request).outcome t = .error (.http .methodNotAllowed
          (.methodNotAllowed ((t.matching rid captured).flatMap t.tokensAt) []))) ∧
      (¬t.OnlyForOthers (t.matching rid captured) request.method →
        (Action.route rid request).outcome t = .error (.http .notFound (.notFound
          ("No rule matches ".toList ++ request.method ++ ' ' :: Text.quoted request.path))))) := by
  rw [(Action.route_answers ht.sound rid request).outcome_eq]
  rw [Table.urlOf_completed] at h
  obtain ⟨allowed, hanswer, hlists, hnot⟩ := Table.answering_of_asked ht.sound h
  have hrouting : t.routing rid request =
      t.answering rid (t.completed rid request) (t.urlOf rid request) := by
    rw [Table.routing, Table.readying, if_pos hcompiled]
    rfl
  obtain ⟨root, hroot⟩ := t.completed_eq rid request
  rw [hanswer, hroot] at hrouting
  obtain ⟨hothers, hfound⟩ := Table.refusal_of_onlyForOthers hlists hnot
  refine ⟨fun d hd ↦ ?_, fun hnone ↦ ?_⟩
  · rw [hrouting, hd]
  · rw [hnone] at hrouting
    exact ⟨fun ho ↦ hrouting.trans (congrArg _ (hothers ho)),
      fun ho ↦ hrouting.trans (congrArg _ (hfound ho))⟩

/-- A router with a group inside a group and a rule that is valid on every domain. -/
def Table.shopRouter : Table := empty.afterAll
  [.addRouter [],
    .groupOn 0 { rule := "shop" } [{ rule := "item", target := "item/show", method := "get" }],
    .declareGroup 1 { rule := "cart" }
      [{ rule := "pay", target := "cart/pay", method := "post|put" }],
    .newRule (some 0) none
      { rule := "terms", target := "terms/show", options := [("domain", "b")] },
    .addEverywhere 0 5,
    .compileRouter 0]

theorem reachable_shopRouter : Table.shopRouter.Reachable :=
  ⟨_, by decide +kernel, rfl⟩

/-- What a rule decides, if it is asked and does not fail. -/
def Table.madeBy (t : Table) (request : Request) (url : Text) (anyDomain : Bool) (id : NodeId) :
    Option Dispatch :=
  ((Action.checkRule id request url false anyDomain).answer? t).join

def Table.capturedBy (t : Table) (url : Text) (id : NodeId) : Option Captures :=
  ((Action.matchPath id url false).answer? t).join

theorem Table.asked_of_answer? (hdecided : ∀ id ∈ t.routes rid,
      ((Action.checkRule id request url false false).answer? t).isSome = true)
    (hanywhere : ∀ id ∈ (t.router rid).everywhere,
      ((Action.checkRule id request url false true).answer? t).isSome = true)
    (hcaptured : ∀ id ∈ t.routes rid, ((Action.matchPath id url false).answer? t).isSome = true) :
    t.Asked rid request url (t.madeBy request url false) (t.madeBy request url true)
      (t.capturedBy url) where
  decided id hid := Action.outcome_join (hdecided id hid)
  anywhere id hid := Action.outcome_join (hanywhere id hid)
  captured id hid := Action.outcome_join (hcaptured id hid)

def Http.Request.toPay : Request := Table.shopRouter.completed 0 (.bare "GET" "/shop/cart/pay")

open Table in
/-- The path of the inner rule is asked for under a method that it does not list. -/
theorem route_outcome_shopRouter : ∃ decided anywhere captured, shopRouter.Reachable ∧
    (shopRouter.router 0).compiled = true ∧
    shopRouter.Asked 0 .toPay (shopRouter.urlOf 0 .toPay) decided anywhere captured ∧
    shopRouter.firstMade 0 decided anywhere = none ∧
    shopRouter.OnlyForOthers (shopRouter.matching 0 captured) "GET" ∧
    (Action.route 0 (.bare "GET" "/shop/cart/pay")).outcome shopRouter =
      .error (.http .methodNotAllowed (.methodNotAllowed ["post".toList, "put".toList] [])) := by
  have hcompiled : (shopRouter.router 0).compiled = true := by decide +kernel
  have hasked : shopRouter.Asked 0 .toPay (shopRouter.urlOf 0 .toPay) _ _ _ :=
    asked_of_answer? (by decide +kernel) (by decide +kernel) (by decide +kernel)
  have hnone : (shopRouter.firstMade 0 (shopRouter.madeBy .toPay (shopRouter.urlOf 0 .toPay) false)
      (shopRouter.madeBy .toPay (shopRouter.urlOf 0 .toPay) true)).isNone = true := by
    decide +kernel
  have hmatching : shopRouter.matching 0 (shopRouter.capturedBy (shopRouter.urlOf 0 .toPay)) =
      [4] := by decide +kernel
  have htokens : [4].flatMap shopRouter.tokensAt = ["post".toList, "put".toList] := by
    decide +kernel
  have hothers : shopRouter.OnlyForOthers
      (shopRouter.matching 0 (shopRouter.capturedBy (shopRouter.urlOf 0 .toPay))) "GET" := by
    rw [hmatching]
    exact
      { exists_matching := by decide
        lists := by
          intro id hid
          obtain rfl := List.mem_singleton.mp hid
          exact ⟨"post|put".toList, by decide, Value.text?_eq_some_iff.mp (by decide +kernel)⟩
        nonempty := by rw [htokens]; decide
        not_listed := by rw [htokens]; decide +kernel }
  rw [Option.isNone_iff_eq_none] at hnone
  have hrefused := ((route_outcome reachable_shopRouter hcompiled hasked).2 hnone).1 hothers
  rw [hmatching, htokens] at hrefused
  exact ⟨_, _, _, reachable_shopRouter, hcompiled, hasked, hnone, hothers, hrefused⟩

end UrlRouting

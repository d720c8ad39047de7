import UrlRouting.Proofs.CommandLine.Naming
import UrlRouting.Proofs.CommandLine.Repeated
import UrlRouting.Proofs.Table.Fitting
import UrlRouting.Proofs.Table.Malformed
import UrlRouting.Proofs.Table.Precedence
import UrlRouting.Proofs.Text.Delimit

/-!
What commands report. A command reports on the router that it names, if this can do what the command
asks for, and says so if it names none (`run_reports`). A router that cannot be compiled is not
reported on: its fault goes through the command.
-/

namespace UrlRouting.CommandLine

open Http

variable {t s : Table} {c : Catalogue} {id : RouterId} {text : Text} {m : MatchCommand}
  {args : List Text} {command : Command} {rs : List Row} {fault : Fault}

/-! ### Listings -/

/-- Compiling changes no row. -/
theorem rows_eq (h : t.Alike s) (id : RouterId) : rows s id = rows t id := by
  have hrow : ∀ (u : Table) (options : Mapping) (rule : NodeId),
      ((u.node rule).rule?.map fun r ↦ Row.ofRule r options) =
        ((u.node rule).rule?.map Rule.bare).map fun r ↦ Row.ofRule r options := by
    intro u options rule
    rw [Option.map_map]
    rfl
  rw [rows, rows, h.routes_eq]
  refine List.filterMap_congr fun rule _ ↦ ?_
  rw [hrow s, hrow t, h.rule, h.effectiveOptions]

/-- The lines for some rows are a table, or say that there are none. -/
inductive IsListing : List Row → List Text → Prop where
  | none : IsListing [] ["No rules declared."]
  | table {rows : List Row} (h : rows ≠ []) (widths : Nat × Nat × Nat) (dashes : Nat) :
      IsListing rows (Row.line widths Row.headings :: List.replicate dashes '-' ::
        rows.map (Row.line widths))

/-- Rows are listed if their names have lengths. -/
theorem exists_listing (h : ∀ row ∈ rs, ∃ length, row.nameLength = .ok length) :
    ∃ lines, listing rs = .ok lines ∧ IsListing rs lines := by
  have hlengths : ∃ lengths, rs.mapM Row.nameLength = .ok lengths := by
    induction rs with
    | nil => exact ⟨[], rfl⟩
    | cons row rest ih =>
      obtain ⟨⟨length, hlength⟩, hrest⟩ := List.forall_mem_cons.mp h
      obtain ⟨lengths, hlengths⟩ := ih hrest
      rw [List.mapM_cons, hlength, hlengths]
      exact ⟨_, rfl⟩
  obtain ⟨lengths, hlengths⟩ := hlengths
  cases rs with
  | nil => exact ⟨_, rfl, .none⟩
  | cons row rest =>
    rw [listing, hlengths]
    exact ⟨_, rfl, .table (List.cons_ne_nil row rest) _ _⟩

/-! ### Headers -/

theorem mapM_readHeader_cases (given : List Text) :
    (∃ headers : List (Text × Text), given = headers.map argument ∧
      ∀ header ∈ headers, ':' ∉ header.1) ∨
    ∃ bad ∈ given, ':' ∉ bad ∧ given.mapM readHeader = .error bad := by
  induction given with
  | nil => exact .inl ⟨[], rfl, nofun⟩
  | cons first rest ih =>
    by_cases hfirst : ':' ∈ first
    · obtain ⟨name, value, rfl, hname⟩ := List.eq_append_cons_of_mem hfirst
      rcases ih with ⟨headers, rfl, hnames⟩ | ⟨bad, hbad, hcolon, hread⟩
      · exact .inl ⟨(name, value) :: headers, rfl, List.forall_mem_cons.mpr ⟨hname, hnames⟩⟩
      · have hheader : readHeader (name ++ ':' :: value) =
            .ok (Headers.entry (stripped (name, value))) := @readHeader_argument (name, value) hname
        refine .inr ⟨bad, List.mem_cons_of_mem _ hbad, hcolon, ?_⟩
        rw [List.mapM_cons, hheader, hread]
        rfl
    · refine .inr ⟨first, List.mem_cons_self, hfirst, ?_⟩
      rw [List.mapM_cons, readHeader, Text.cut?_eq_none_iff.mpr hfirst]
      rfl

/-- The headers of a command can be read, unless one of them has no colon. -/
theorem readHeaders_cases (given : List Text) :
    (∃ headers : List (Text × Text), given = headers.map argument ∧
      ∀ header ∈ headers, ':' ∉ header.1) ∨
    ∃ bad ∈ given, ':' ∉ bad ∧ readHeaders given = .error bad := by
  refine (mapM_readHeader_cases given).imp_right ?_
  rintro ⟨bad, hbad, hcolon, hread⟩
  refine ⟨bad, hbad, hcolon, ?_⟩
  rw [readHeaders, hread]
  rfl

/-- Headers in Latin-1 can be written. -/
theorem isWritable_of_isLatin {headers : List (Text × Text)}
    (h : ∀ given ∈ headers.map argument, ∀ x ∈ given, Text.IsLatin x) :
    ∀ header ∈ Headers.latest (headers.map stripped), Headers.IsWritable header := by
  have hstripped : ∀ header ∈ headers.map stripped,
      (∀ x ∈ header.1, Text.IsLatin x) ∧ ∀ x ∈ header.2, Text.IsLatin x := by
    refine List.forall_mem_map.mpr fun header hheader ↦ ?_
    have hall := h _ (List.mem_map_of_mem hheader)
    exact ⟨fun x hx ↦ hall x (List.mem_append_left _ (Template.mem_of_mem_trim hx)), fun x hx ↦
      hall x (List.mem_append_right _ (List.mem_cons_of_mem _ (Template.mem_of_mem_trim hx)))⟩
  intro header hheader
  obtain ⟨name, hname, rfl⟩ := List.mem_map.mp hheader
  obtain ⟨value, hvalue⟩ := Headers.exists_lookup_reverse (List.mem_eraseDups.mp hname)
  obtain ⟨front, back, hsplit, -⟩ := List.lookup_eq_some_iff.mp hvalue
  have hlast : (name, value) ∈ headers.map stripped := by
    rw [← List.mem_reverse, hsplit]
    exact List.mem_append_right _ List.mem_cons_self
  rw [hvalue]
  obtain ⟨hname, hlatin⟩ := hstripped _ hlast
  exact ⟨Text.isLatin_of_mem_lower hname, hlatin⟩

/-- A command with headers in Latin-1 makes a request, unless one of them has no colon. -/
theorem MatchCommand.request_cases (hlatin : ∀ given ∈ m.headers, ∀ x ∈ given, Text.IsLatin x) :
    (∃ headers r, readHeaders m.headers = .ok headers ∧ m.request headers = .ok r) ∨
    ∃ bad ∈ m.headers, ':' ∉ bad ∧ readHeaders m.headers = .error bad := by
  refine (readHeaders_cases m.headers).imp_left ?_
  rintro ⟨headers, hm, hnames⟩
  obtain ⟨r, hrequest, -⟩ := m.exists_request (isWritable_of_isLatin (hm ▸ hlatin))
  exact ⟨_, r, hm ▸ readHeaders_arguments hnames, hrequest⟩

/-! ### Commands -/

/-- What is said of a header without a colon. -/
def Report.malformed (given : Text) : Report :=
  .error 2 ("malformed header ".toList ++ Text.quoted given ++ " (expected NAME:VALUE)".toList)

namespace Command

/-- The text that names the router of a command. -/
def router : Command → Text
  | .routes text => text
  | .match_ m => m.router

def headers : Command → List Text
  | .routes _ => []
  | .match_ m => m.headers

/-- What a command does with the router that it names. -/
def carryOut (id : RouterId) : Command → Action Report
  | .routes _ => do
    Action.compileRouter id
    return .ofOutput (← Action.ofExcept (listing (rows (← get) id)))
  | .match_ m =>
    match readHeaders m.headers with
    | .error given => return .malformed given
    | .ok headers => Action.ofExcept (m.request headers) >>= handed id

/-- A router can do what a command asks for: it can be compiled, and its rules can be listed or can
be asked about the request. -/
def IsServed (t : Table) (id : RouterId) : Command → Prop
  | .routes _ => t.compilingAll (t.subtree (t.router id).root) = .ok () ∧
      ∀ row ∈ rows t id, ∃ length, row.nameLength = .ok length
  | .match_ m => ∀ headers r, readHeaders m.headers = .ok headers → m.request headers = .ok r →
      t.Serves id r

end Command

theorem run_eq (hread : readCommand false args = .ok command) :
    run c args = Action.ofExcept (c.router command.router) >>= fun
      | .error said => return .error 1 said
      | .ok id => command.carryOut id := by
  rw [run, hread]
  cases command <;> rfl

/-- A command is carried out on the router that it names. -/
theorem outcome_of_names (hread : readCommand false args = .ok command)
    (hid : c.Names command.router id) :
    (run c args).outcome t = (command.carryOut id).outcome t := by
  rw [run_eq hread, Catalogue.router_eq_ok.mpr hid]
  rfl

/-- The rules of a router are listed once it has been compiled. -/
theorem carryOut_routes_answers (ht : t.Sound) : ((Command.routes text).carryOut id).Answers t
    (t.compilingAll (t.subtree (t.router id).root) >>= fun _ ↦
      listing (rows t id) >>= fun lines ↦ .ok (.ofOutput lines)) := by
  refine (Action.compileRouter_answers ht id).bind fun _ s _ hs ↦ .get_bind ?_
  rw [← rows_eq hs.alike id]
  exact (Action.Answers.ofExcept hs.sound _).bind fun lines u _ hu ↦ .pure hu.sound _

/-- Of the faults of routing, refusals are reported, and no others. -/
theorem outcome_carryOut_match (ht : t.Sound) {headers : Mapping} {r : Request}
    (hheaders : readHeaders m.headers = .ok headers) (hrequest : m.request headers = .ok r) :
    ((Command.match_ m).carryOut id).outcome t =
      match t.routing id r with
      | .ok d => .ok (.ofOutput (answer d))
      | .error (.http _ e) => .ok (.complaint 1 e.message)
      | .error fault => .error fault := by
  have hcarry : (Command.match_ m).carryOut id = handed id r := by
    rw [Command.carryOut, hheaders]
    dsimp only
    rw [hrequest]
    rfl
  rw [hcarry, ← (Action.route_answers ht id r).outcome_eq, Action.outcome, Action.outcome, handed,
    EStateM.run_bind]
  simp only [EStateM.run, routed]
  rcases Action.route id r t with ⟨d, s⟩ | ⟨fault, s⟩
  · rfl
  · cases fault <;> rfl

/-- What is reported of a router: its rules, its answer to a request, or what is wrong with the
headers. -/
inductive Reports (t : Table) (id : RouterId) : Command → Report → Prop where
  | rules {text : Text} {lines : List Text} (h : IsListing (rows t id) lines) :
      Reports t id (.routes text) (.ofOutput lines)
  | malformed {m : MatchCommand} {bad : Text} (hbad : bad ∈ m.headers) (hcolon : ':' ∉ bad) :
      Reports t id (.match_ m) (.malformed bad)
  | decided {m : MatchCommand} {headers : Mapping} {r : Request} {d : Dispatch}
      (hheaders : readHeaders m.headers = .ok headers) (hrequest : m.request headers = .ok r)
      (h : (Action.route id r).outcome t = .ok d) :
      Reports t id (.match_ m) (.ofOutput (answer d))
  | refused {m : MatchCommand} {headers : Mapping} {r : Request} {kind : HttpKind} {e : HttpError}
      (hheaders : readHeaders m.headers = .ok headers) (hrequest : m.request headers = .ok r)
      (h : (Action.route id r).outcome t = .error (.http kind e))
      (hstatus : e.status = 404 ∨ e.status = 405) :
      Reports t id (.match_ m) (.complaint 1 e.message)

/-- A command is carried out to its end on a router that can do what it asks for. -/
theorem exists_reports (ht : t.Sound)
    (hlatin : ∀ given ∈ command.headers, ∀ x ∈ given, Text.IsLatin x)
    (h : command.IsServed t id) :
    ∃ report, (command.carryOut id).outcome t = .ok report ∧ Reports t id command report := by
  cases command with
  | routes text =>
    obtain ⟨hcompiles, hnames⟩ := h
    obtain ⟨lines, hlines, hlisting⟩ := exists_listing hnames
    refine ⟨.ofOutput lines, ?_, .rules hlisting⟩
    rw [(carryOut_routes_answers ht).outcome_eq, hcompiles, hlines]
    rfl
  | match_ m =>
    rcases MatchCommand.request_cases hlatin with
      ⟨headers, r, hheaders, hrequest⟩ | ⟨bad, hbad, hcolon, hread⟩
    · have houtcome : ((Command.match_ m).carryOut id).outcome t = _ :=
        outcome_carryOut_match ht hheaders hrequest
      have hroute := (Action.route_answers ht id r).outcome_eq
      rcases (h headers r hheaders hrequest).routing_cases with ⟨d, hd⟩ | ⟨kind, e, he, hstatus⟩
      · rw [hd] at houtcome hroute
        exact ⟨_, houtcome, .decided hheaders hrequest hroute⟩
      · rw [he] at houtcome hroute
        exact ⟨_, houtcome, .refused hheaders hrequest hroute hstatus⟩
    · refine ⟨_, ?_, .malformed hbad hcolon⟩
      rw [Command.carryOut, hread]
      rfl

/-- What keeps a router from being compiled goes through the command. -/
theorem outcome_of_readying_error (ht : t.Sound)
    (hlatin : ∀ given ∈ command.headers, ∀ x ∈ given, Text.IsLatin x)
    (hcolons : ∀ given ∈ command.headers, ':' ∈ given) (h : t.readying id = .error fault) :
    (command.carryOut id).outcome t = .error fault := by
  cases command with
  | routes text =>
    have hcompiling : t.compilingAll (t.subtree (t.router id).root) = .error fault := by
      rw [Table.readying] at h
      split at h
      · cases h
      · exact h
    rw [(carryOut_routes_answers ht).outcome_eq, hcompiling]
    rfl
  | match_ m =>
    rcases MatchCommand.request_cases hlatin with
      ⟨headers, r, hheaders, hrequest⟩ | ⟨bad, hbad, hcolon, -⟩
    · have hrouting : t.routing id r = .error fault := by
        rw [Table.routing, h]
        rfl
      have hunrefused := t.unrefusing_readying id fault h
      rw [outcome_carryOut_match ht hheaders hrequest, hrouting]
      cases fault with
      | http kind e => cases hunrefused
      | _ => rfl
    · exact absurd (hcolons bad hbad) hcolon

/-- A command reports on the router that it names, if this can do what it asks for, and says so if
it names none. It does not report on a router that cannot be compiled, and not if it leaves out the
module: the fault goes through. -/
theorem run_reports (ht : t.Reachable) (hread : readCommand false args = .ok command)
    (hlatin : ∀ given ∈ command.headers, ∀ x ∈ given, Text.IsLatin x) :
    (∀ id, c.Names command.router id → command.IsServed t id →
      ∃ report, (run c args).outcome t = .ok report ∧ Reports t id command report) ∧
    ((∀ id, ¬c.Names command.router id) → (Catalogue.parts command.router).1 ≠ [] →
      ∃ said, (run c args).outcome t = .ok (.error 1 said)) ∧
    (∀ id fault, c.Names command.router id → (∀ given ∈ command.headers, ':' ∈ given) →
      t.readying id = .error fault → (run c args).outcome t = .error fault) ∧
    ((Catalogue.parts command.router).1 = [] →
      (run c args).outcome t = .error .wrongValue) := by
  refine ⟨fun id hid hserved ↦ ?_, fun hnone hmodule ↦ ?_, fun id fault hid hcolons hfault ↦ ?_,
    fun hmodule ↦ ?_⟩
  · rw [outcome_of_names hread hid]
    exact exists_reports ht.sound hlatin hserved
  · obtain ⟨answer, hanswer⟩ := c.exists_router hmodule
    cases answer with
    | ok id => exact absurd (Catalogue.router_eq_ok.mp hanswer) (hnone id)
    | error said =>
      refine ⟨said, ?_⟩
      rw [run_eq hread, hanswer]
      rfl
  · rw [outcome_of_names hread hid]
    exact outcome_of_readying_error ht.sound hlatin hcolons hfault
  · rw [run_eq hread, Catalogue.router_of_no_module hmodule]
    rfl

/-- A module with a factory that makes the first router of a table. -/
def madeRouter : Catalogue := [("urls", [("make", .factory (.ok (.router 0)))])]

theorem names_madeRouter : madeRouter.Names "urls:make" 0 := by
  rw [← Catalogue.router_eq_ok]
  rfl

/-- A router is asked for a path that it has for other methods only. -/
def payCommand : MatchCommand :=
  ⟨"urls:make", "GET", "/shop/cart/pay", "localhost", false, ["Accept: */*"]⟩

theorem run_reports_payCommand : ∃ args report,
    readCommand false args = .ok (.match_ payCommand) ∧
    (run madeRouter args).outcome Table.shopRouter = .ok report ∧
    Reports Table.shopRouter 0 (.match_ payCommand) report := by
  let args : List Text :=
    ["match", "urls:make", "GET", "/shop/cart/pay", "--header", "Accept: */*"]
  have hread : readCommand false args = .ok (.match_ payCommand) := by rfl
  have hlatin : ∀ given ∈ payCommand.headers, ∀ x ∈ given, Text.IsLatin x := by decide
  have hheaders : readHeaders payCommand.headers = .ok [(.str "Accept", .str "*/*")] := by rfl
  obtain ⟨r, hrequest, hserves⟩ : ∃ r, payCommand.request [(.str "Accept", .str "*/*")] = .ok r ∧
      Table.shopRouter.Serves 0 r := by decide +kernel
  have hserved : (Command.match_ payCommand).IsServed Table.shopRouter 0 := by
    intro headers r' hheaders' hrequest'
    cases hheaders.symm.trans hheaders'
    cases hrequest.symm.trans hrequest'
    exact hserves
  obtain ⟨report, hreport, hreports⟩ :=
    (run_reports reachable_shopRouter hread hlatin).1 0 names_madeRouter hserved
  exact ⟨args, report, hread, hreport, hreports⟩

/-- A rule whose expression is malformed keeps the rules of its router from being listed. -/
theorem not_forall_exists_report : ¬∀ (t : Table) (c : Catalogue) (text : Text) (id : RouterId),
    t.Reachable → c.Names text id →
    (∀ row ∈ rows t id, ∃ length, row.nameLength = .ok length) →
    ∃ report, (run c ["routes", text]).outcome t = .ok report := by
  intro h
  have hnamed : ∀ row ∈ rows Table.jammedRouter 0, ∃ length, row.nameLength = .ok length := by
    decide +kernel
  have hfails : ¬∃ report,
      (run madeRouter ["routes", "urls:make"]).outcome Table.jammedRouter = .ok report := by
    decide +kernel
  exact hfails (h _ _ _ _ reachable_jammedRouter names_madeRouter hnamed)

end UrlRouting.CommandLine

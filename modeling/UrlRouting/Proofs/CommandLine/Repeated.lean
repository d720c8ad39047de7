import Mathlib.Data.List.Basic
import UrlRouting.CommandLine.Command
import UrlRouting.Proofs.Http.Making
import UrlRouting.Proofs.Table.Answers
import UrlRouting.Proofs.Value.Entries

/-!
Headers that are given more than once on a command line. The request of a `match` command finds a
name under the first argument that spells it in any case, and there the value of the last argument
that spells it in the same way (`exists_handed`).
-/

namespace UrlRouting

open Http

variable {α : Type}

theorem find?_eraseDups [BEq α] [LawfulBEq α] (p : α → Bool) (l : List α) :
    l.eraseDups.find? p = l.find? p := by
  induction l using List.reverseRecOn with
  | nil => rfl
  | append_singleton l a ih =>
    rw [List.eraseDups_append, List.find?_append, List.find?_append, ih, List.removeAll]
    by_cases ha : a ∈ l
    · rw [List.filter_cons_of_neg (by simpa using ha), List.filter_nil, List.eraseDups_nil]
      cases hp : p a with
      | false => rw [List.find?_cons_of_neg (by simp [hp])]
      | true =>
        have hfound : (l.find? p).isSome = true := List.find?_isSome.mpr ⟨a, ha, hp⟩
        rw [Option.or_of_isSome hfound, Option.or_of_isSome hfound]
    · rw [List.filter_cons_of_pos (by simpa using ha)]
      rfl

namespace Http.Headers

variable {headers : List (Text × Text)} {name : Text}

/-- The first header with a name, in whatever case. -/
def first? (headers : List (Text × Text)) (name : Text) : Option (Text × Text) :=
  headers.find? fun header ↦ Text.lower header.1 == Text.lower name

theorem get?_ofPairs_eq_first? (headers : List (Text × Text)) (name : Text) :
    (ofPairs headers).get? name = (first? headers name).map Prod.snd := by
  rw [get?_ofPairs, first?]
  induction headers with
  | nil => rfl
  | cons header rest ih =>
    rw [List.map_cons, List.lookup_cons, List.find?_cons, ih, Bool.beq_comm]
    cases hname : Text.lower header.1 == Text.lower name <;>
      simp only [small, hname, Option.map_some]

theorem mem_of_first? {header : Text × Text} (h : first? headers name = some header) :
    header ∈ headers := List.mem_of_find?_eq_some h

/-- A header that is given later under the same spelling takes the place of the earlier one. -/
def latest (headers : List (Text × Text)) : List (Text × Text) :=
  (headers.map Prod.fst).eraseDups.map fun name ↦ (name, (headers.reverse.lookup name).getD [])

theorem names_latest (headers : List (Text × Text)) :
    (latest headers).map Prod.fst = (headers.map Prod.fst).eraseDups := by
  rw [latest, List.map_map]
  exact List.map_id _

/-- Every given name has a last value. -/
theorem exists_lookup_reverse (h : name ∈ headers.map Prod.fst) :
    ∃ value, headers.reverse.lookup name = some value := by
  rw [← Option.isSome_iff_exists, Option.isSome_iff_ne_none, ne_eq, List.lookup_eq_none_iff]
  intro hnone
  obtain ⟨header, hmem, rfl⟩ := List.mem_map.mp h
  exact absurd (hnone header (List.mem_reverse.mpr hmem)) (by simp)

theorem lookup_latest (headers : List (Text × Text)) (name : Text) :
    (latest headers).lookup name = headers.reverse.lookup name := by
  rw [latest]
  by_cases hname : name ∈ headers.map Prod.fst
  · obtain ⟨value, hvalue⟩ := exists_lookup_reverse hname
    rw [List.lookup_graph _ (List.mem_eraseDups.mpr hname), hvalue]
    rfl
  · have hnone : headers.reverse.lookup name = Option.none := by
      refine List.lookup_eq_none_iff.mpr fun header hmem ↦ bne_iff_ne.mpr ?_
      rintro rfl
      exact hname (List.mem_map_of_mem (List.mem_reverse.mp hmem))
    rw [hnone, List.lookup_eq_none_iff]
    refine List.forall_mem_map.mpr fun other hmem ↦ bne_iff_ne.mpr ?_
    rintro rfl
    exact hname (List.mem_eraseDups.mp hmem)

/-- Among the latest headers, a name in any case finds the first given spelling of it and the last
value of this spelling. -/
theorem get?_ofPairs_latest (headers : List (Text × Text)) (name : Text) :
    (ofPairs (latest headers)).get? name =
      (first? headers name).bind fun header ↦ headers.reverse.lookup header.1 := by
  have hnames : (first? headers name).map Prod.fst =
      (headers.map Prod.fst).eraseDups.find? fun other ↦ Text.lower other == Text.lower name := by
    rw [find?_eraseDups, List.find?_map]
    rfl
  rw [get?_ofPairs_eq_first?, first?, latest, List.find?_map]
  change Option.map _ (Option.map _ ((headers.map Prod.fst).eraseDups.find? fun other ↦
    Text.lower other == Text.lower name)) = _
  rw [← hnames]
  cases hfirst : first? headers name with
  | none => rfl
  | some header =>
    obtain ⟨value, hvalue⟩ := exists_lookup_reverse (List.mem_map_of_mem (mem_of_first? hfirst))
    rw [Option.bind_some, hvalue]
    exact congrArg (fun found ↦ some (Option.getD found [])) hvalue

/-- The first value of a name is found, if no spelling is given again with another value. -/
theorem get?_ofPairs_latest_of_forall (h : ∀ header ∈ headers, ∀ other ∈ headers,
    header.1 = other.1 → header.2 = other.2) (name : Text) :
    (ofPairs (latest headers)).get? name = (ofPairs headers).get? name := by
  rw [get?_ofPairs_latest, get?_ofPairs_eq_first?]
  cases hfirst : first? headers name with
  | none => rfl
  | some header =>
    have hmem := mem_of_first? hfirst
    obtain ⟨value, hvalue⟩ := exists_lookup_reverse (List.mem_map_of_mem hmem)
    obtain ⟨front, back, hsplit, -⟩ := List.lookup_eq_some_iff.mp hvalue
    have hother : (header.1, value) ∈ headers := by
      rw [← List.mem_reverse, hsplit]
      exact List.mem_append_right _ List.mem_cons_self
    rw [Option.bind_some, hvalue, Option.map_some, h header hmem _ hother rfl]

theorem get?_entries (headers : List (Text × Text)) (name : Text) :
    Entries.get? (headers.map entry) (.str name) = (headers.lookup name).map .str := by
  induction headers with
  | nil => rfl
  | cons header rest ih =>
    rw [List.map_cons, entry, Entries.get?, List.lookup_cons, ih]
    by_cases hname : header.1 = name
    · rw [if_pos (Value.same_str_iff.mpr (congrArg _ hname)), hname, beq_self_eq_true]
      rfl
    · rw [if_neg fun hsame ↦ hname (Value.str.inj (Value.same_str_iff.mp hsame)),
        beq_false_of_ne (Ne.symm hname)]

/-- A map keeps of each spelling the place of the first header and the value of the last. -/
theorem ofPairs_entries (headers : List (Text × Text)) :
    Entries.ofPairs (headers.map entry) = (latest headers).map entry := by
  have hpairs : headers.map entry =
      (headers.map fun header ↦ (header.1, Value.str header.2)).map
        fun pair ↦ (Value.str pair.1, pair.2) := by
    rw [List.map_map]
    rfl
  have hkeys : Entries.keys (Entries.ofPairs (headers.map entry)) =
      (headers.map Prod.fst).eraseDups.map .str := by
    rw [hpairs, Entries.keys_ofPairs, List.map_map]
    rfl
  have hnames : (headers.map Prod.fst).eraseDups.Nodup := by
    have hnodup := Entries.nodup_textKeys_ofPairs
      (headers.map fun header ↦ (header.1, Value.str header.2))
    have htexts : Entries.textKeys (Entries.ofPairs (headers.map entry)) =
        (Entries.keys (Entries.ofPairs (headers.map entry))).filterMap Value.text? := by
      rw [Entries.keys, List.filterMap_map]
      rfl
    rw [← hpairs, htexts, hkeys, List.filterMap_map] at hnodup
    exact (List.filterMap_some (l := (headers.map Prod.fst).eraseDups)) ▸ hnodup
  have hkeys' : Entries.keys ((latest headers).map entry) =
      (headers.map Prod.fst).eraseDups.map .str := by
    rw [← names_latest, List.map_map, Entries.keys, List.map_map]
    rfl
  refine Entries.eq_of_get?_eq hkeys hkeys' hnames fun t ↦ ?_
  rw [get?_entries, lookup_latest, hpairs, Entries.get?_ofPairs, ← List.map_reverse, lookup_map]

/-- A header can be written in Latin-1, its name in small letters. -/
structure IsWritable (header : Text × Text) : Prop where
  name : ∀ c ∈ Text.lower header.1, Text.IsLatin c
  value : ∀ c ∈ header.2, Text.IsLatin c

instance (header : Text × Text) : Decidable (IsWritable header) :=
  decidable_of_iff (_ ∧ _) ⟨fun ⟨name, value⟩ ↦ ⟨name, value⟩, fun ⟨name, value⟩ ↦ ⟨name, value⟩⟩

theorem latin_eq_ok {t u : Text} (h : latin t = .ok u) : u = t ∧ ∀ c ∈ t, Text.IsLatin c := by
  rw [latin] at h
  split at h
  next hall =>
    cases h
    exact ⟨rfl, fun c hc ↦ of_decide_eq_true (List.all_eq_true.mp hall c hc)⟩
  next => cases h

theorem ofEntry_eq_ok {found : Text × Text} {header : Text × Text} :
    ofEntry (entry header) = .ok found ↔ IsWritable header ∧ found = small header := by
  change (latin (Text.lower header.1) >>= fun name ↦ latin header.2 >>= fun value ↦
    .ok (name, value)) = _ ↔ _
  constructor
  · intro h
    obtain ⟨name, hname, h⟩ := bind_eq_ok_iff.mp h
    obtain ⟨value, hvalue, h⟩ := bind_eq_ok_iff.mp h
    obtain ⟨rfl, hwritten⟩ := latin_eq_ok hname
    obtain ⟨rfl, hwritten'⟩ := latin_eq_ok hvalue
    cases h
    exact ⟨⟨hwritten, hwritten'⟩, rfl⟩
  · rintro ⟨⟨hname, hvalue⟩, rfl⟩
    rw [latin_of_forall hname, latin_of_forall hvalue]
    rfl

/-- A map of headers makes headers exactly if each of them can be written. -/
theorem ofMapping_eq_ok {found : Headers} (headers : List (Text × Text)) :
    ofMapping (headers.map entry) = .ok found ↔
      (∀ header ∈ headers, IsWritable header) ∧ found = ofPairs (headers.map small) := by
  have hentries : ∀ pairs, (headers.map entry).mapM ofEntry = .ok pairs ↔
      (∀ header ∈ headers, IsWritable header) ∧ pairs = headers.map small := by
    induction headers with
    | nil => exact fun pairs ↦ ⟨fun h ↦ by cases h; exact ⟨nofun, rfl⟩, fun h ↦ h.2 ▸ rfl⟩
    | cons header rest ih =>
      intro pairs
      rw [List.map_cons, List.mapM_cons, List.forall_mem_cons, bind_eq_ok_iff]
      constructor
      · rintro ⟨first, hfirst, h⟩
        obtain ⟨others, hothers, h⟩ := bind_eq_ok_iff.mp h
        obtain ⟨hheader, rfl⟩ := ofEntry_eq_ok.mp hfirst
        obtain ⟨hrest, rfl⟩ := (ih others).mp hothers
        cases h
        exact ⟨⟨hheader, hrest⟩, rfl⟩
      · rintro ⟨⟨hheader, hrest⟩, rfl⟩
        refine ⟨_, ofEntry_eq_ok.mpr ⟨hheader, rfl⟩, ?_⟩
        rw [(ih _).mpr ⟨hrest, rfl⟩]
        rfl
  rw [ofMapping, bind_eq_ok_iff]
  constructor
  · rintro ⟨pairs, hpairs, h⟩
    obtain ⟨hall, rfl⟩ := (hentries pairs).mp hpairs
    cases h
    exact ⟨hall, rfl⟩
  · rintro ⟨hall, rfl⟩
    exact ⟨_, (hentries _).mpr ⟨hall, rfl⟩, rfl⟩

end Http.Headers

namespace CommandLine

/-! ### Commands -/

/-- A header as an argument of a command, its name before a colon. -/
def argument (header : Text × Text) : Text := header.1 ++ ':' :: header.2

/-- A header without the blanks around its name and those around its value. -/
def stripped (header : Text × Text) : Text × Text :=
  (Text.trim Text.isBlank header.1, Text.trim Text.isBlank header.2)

theorem readHeader_argument {header : Text × Text} (h : ':' ∉ header.1) :
    readHeader (argument header) = .ok (Headers.entry (stripped header)) := by
  rw [readHeader, argument, Text.cut?_append_cons h]
  rfl

theorem readHeaders_arguments {headers : List (Text × Text)}
    (h : ∀ header ∈ headers, ':' ∉ header.1) : readHeaders (headers.map argument) =
      .ok ((Headers.latest (headers.map stripped)).map Headers.entry) := by
  have hread : (headers.map argument).mapM readHeader =
      .ok ((headers.map stripped).map Headers.entry) := by
    induction headers with
    | nil => rfl
    | cons header rest ih =>
      obtain ⟨hheader, hrest⟩ := List.forall_mem_cons.mp h
      rw [List.map_cons, List.mapM_cons, readHeader_argument hheader, ih hrest]
      rfl
  rw [readHeaders, hread, ← Headers.ofPairs_entries]
  rfl

namespace MatchCommand

/-- The request of a command, its headers being read. -/
def request (m : MatchCommand) (headers : Mapping) : Except Fault Request :=
  let cut := (Text.cut? '?' m.path).getD (m.path, [])
  Request.create m.method cut.1 m.host (if m.https then "https" else "http") headers cut.2 [] none

theorem exists_request (m : MatchCommand) {headers : List (Text × Text)}
    (h : ∀ header ∈ headers, Headers.IsWritable header) :
    ∃ r, m.request (headers.map Headers.entry) = .ok r ∧
      r.headers = .ofPairs (headers.map Headers.small) := by
  have hheaders := (Headers.ofMapping_eq_ok headers).mpr ⟨h, rfl⟩
  simp only [request, Request.create, hheaders]
  exact ⟨_, rfl, rfl⟩

end MatchCommand

/-- What is reported of a request that is handed to a router. -/
def handed (id : RouterId) (request : Request) : Action Report := do
  match ← routed id request with
  | .ok d => return .ofOutput (answer d)
  | .error e => return .complaint 1 e.message

theorem runMatch_eq_handed {c : Catalogue} {m : MatchCommand} {id : RouterId} {headers : Mapping}
    {r : Request} (hrouter : c.router m.router = .ok (.ok id))
    (hheaders : readHeaders m.headers = .ok headers) (hrequest : m.request headers = .ok r) :
    runMatch c m = handed id r := by
  have hread : runMatch c m = Action.ofExcept (m.request headers) >>= handed id := by
    simp only [runMatch, hrouter, hheaders]
    rfl
  rw [hread, hrequest]
  rfl

/-- The request that a command hands to its router finds under a name the last value of the first
given spelling of it. This is the first value of the name, as it is for a list of headers, unless
the spelling is given again with another value. -/
theorem exists_handed {m : MatchCommand} {headers : List (Text × Text)}
    (hm : m.headers = headers.map argument) (hnames : ∀ header ∈ headers, ':' ∉ header.1)
    (hwritable : ∀ header ∈ Headers.latest (headers.map stripped), Headers.IsWritable header) :
    ∃ given r, readHeaders m.headers = .ok given ∧ m.request given = .ok r ∧
      (∀ c id, Catalogue.router c m.router = .ok (.ok id) → runMatch c m = handed id r) ∧
      (∀ name, r.headers.get? name = (Headers.first? (headers.map stripped) name).bind
        fun header ↦ (headers.map stripped).reverse.lookup header.1) ∧
      ((∀ header ∈ headers.map stripped, ∀ other ∈ headers.map stripped,
          header.1 = other.1 → header.2 = other.2) → ∀ name,
        r.headers.get? name = (Headers.first? (headers.map stripped) name).map Prod.snd ∧
        r.headers.get? name = (Headers.ofPairs (headers.map stripped)).get? name) := by
  obtain ⟨r, hrequest, hheaders⟩ := m.exists_request hwritable
  have hgiven : readHeaders m.headers = .ok _ := hm ▸ readHeaders_arguments hnames
  have hfound (name : Text) : r.headers.get? name =
      (Headers.ofPairs (Headers.latest (headers.map stripped))).get? name := by
    rw [hheaders, Headers.get?_ofPairs, Headers.get?_ofPairs, Headers.map_small_small]
  refine ⟨_, r, hgiven, hrequest, fun c id hrouter ↦ ?_, fun name ↦ ?_, fun hsame name ↦ ?_⟩
  · exact runMatch_eq_handed hrouter hgiven hrequest
  · rw [hfound, Headers.get?_ofPairs_latest]
  · rw [hfound, Headers.get?_ofPairs_latest_of_forall hsame, Headers.get?_ofPairs_eq_first?]
    exact ⟨rfl, rfl⟩

/-- The command for the root path of a router, with some headers. -/
def headedCommand (headers : List (Text × Text)) : MatchCommand :=
  ⟨"urls:r", "GET", "/", "localhost", false, headers.map argument⟩

/-- Headers whose names differ in case and blanks, and one that is given twice. -/
def mixedHeaders : List (Text × Text) :=
  [("X-Pjax", " a"), (" x-pjax", "b"), ("Accept", "json"), ("Accept ", "json ")]

theorem exists_handed_mixedHeaders :
    ∃ given r, readHeaders (headedCommand mixedHeaders).headers = .ok given ∧
      (headedCommand mixedHeaders).request given = .ok r ∧
      r.headers.get? "x-pjax" = some "a" ∧ r.headers.get? "accept" = some "json" := by
  have hnames : ∀ header ∈ mixedHeaders, ':' ∉ header.1 := by decide
  have hwritable : ∀ header ∈ Headers.latest (mixedHeaders.map stripped),
      Headers.IsWritable header := by decide +kernel
  obtain ⟨given, r, hgiven, hrequest, -, -, hfirst⟩ :=
    exists_handed (m := headedCommand mixedHeaders) rfl hnames hwritable
  have hsame := hfirst (by decide +kernel)
  exact ⟨given, r, hgiven, hrequest, (hsame "x-pjax").1.trans (by decide +kernel),
    (hsame "accept").1.trans (by decide +kernel)⟩

/-- A header that is given again with the same spelling is handed on with its last value. -/
theorem not_forall_first_value : ¬∀ (m : MatchCommand) (headers : List (Text × Text)) given r,
    m.headers = headers.map argument → (∀ header ∈ headers, ':' ∉ header.1) →
    readHeaders m.headers = .ok given → m.request given = .ok r → ∀ name,
      r.headers.get? name = (Headers.first? (headers.map stripped) name).map Prod.snd := by
  intro h
  let headers : List (Text × Text) := [("Accept", "json"), ("Accept", "html")]
  have hwritable : ∀ header ∈ Headers.latest (headers.map stripped), Headers.IsWritable header := by
    decide +kernel
  obtain ⟨r, hrequest, hheaders⟩ := (headedCommand headers).exists_request hwritable
  have hnames : ∀ header ∈ headers, ':' ∉ header.1 := by decide
  have hfirst := h (headedCommand headers) headers _ r rfl hnames (readHeaders_arguments hnames)
    hrequest "accept"
  rw [hheaders] at hfirst
  exact absurd hfirst (by decide +kernel)

end CommandLine

end UrlRouting

import UrlRouting.Http.Request
import UrlRouting.Proofs.Text.Settled

/-!
The two ways of making a request: from plain values, and from what a server interface tells, where
the host is one of the headers. The two requests answer every question of the checks alike, and have
the same path unless it is empty, which plain values alone turn into the root path
(`Request.exists_create_ofScope`).
-/

namespace UrlRouting

open Http

/-! ### Latin-1 -/

namespace Text

variable {c : Char} {t : Text}

def IsLatin (c : Char) : Prop := c.toNat ≤ 0xFF

instance (c : Char) : Decidable (IsLatin c) := inferInstanceAs (Decidable (_ ≤ _))

/-- The code of the small letter of a character of Latin-1. -/
def latinSmall (n : Nat) : Nat :=
  if 65 ≤ n ∧ n ≤ 90 ∨ 0xC0 ≤ n ∧ n ≤ 0xDE ∧ n ≠ 0xD7 then n + 32 else n

theorem lowerChar_of_isLatin (h : IsLatin c) : lowerChar c = Char.ofNat (latinSmall c.toNat) := by
  have hsmall : ∀ n < 256, lowerChar (Char.ofNat n) = Char.ofNat (latinSmall n) := by
    decide +kernel
  have hc := hsmall c.toNat (Nat.lt_succ_of_le h)
  rwa [Char.ofNat_toNat] at hc

/-- The small letter of a character of Latin-1 is in Latin-1. -/
theorem lowerForm_of_isLatin (h : IsLatin c) : c ≠ 'Σ' ∧ lowerForm c = [lowerChar c] ∧
    IsLatin (lowerChar c) := by
  have hother {x : Char} (hx : ¬IsLatin x) : c ≠ x := fun he ↦ hx (he ▸ h)
  have hcodes : ∀ n < 256, IsLatin (Char.ofNat (latinSmall n)) := by decide +kernel
  have hlatin := hcodes c.toNat (Nat.lt_succ_of_le h)
  rw [← lowerChar_of_isLatin h] at hlatin
  exact ⟨hother (by decide), if_neg (hother (by decide)), hlatin⟩

theorem lower_eq_map (h : ∀ c ∈ t, IsLatin c) : lower t = t.map lowerChar := by
  have hsigma : 'Σ' ∉ t := fun hmem ↦ (lowerForm_of_isLatin (h _ hmem)).1 rfl
  have hforms : t.map lowerForm = t.map fun c ↦ [lowerChar c] :=
    List.map_congr_left fun c hc ↦ (lowerForm_of_isLatin (h c hc)).2.1
  rw [lower_eq_flatMap hsigma, List.map_eq_flatMap, List.flatMap_def, hforms, List.flatMap_def]

theorem isLatin_of_mem_lower (h : ∀ c ∈ t, IsLatin c) : ∀ c ∈ lower t, IsLatin c := by
  rw [lower_eq_map h]
  exact List.forall_mem_map.mpr fun c hc ↦ (lowerForm_of_isLatin (h c hc)).2.2

end Text

namespace Http

/-! ### Headers -/

namespace Headers

variable {name host value : Text} {header : Text × Text} {headers front back : List (Text × Text)}

/-- Name and value can be written in Latin-1, and the header is not that of the host. -/
structure IsPlain (header : Text × Text) : Prop where
  name : ∀ c ∈ header.1, Text.IsLatin c
  value : ∀ c ∈ header.2, Text.IsLatin c
  other : Text.lower header.1 ≠ "host"

/-- A header as an entry of a map. -/
def entry (header : Text × Text) : Value × Value := (.str header.1, .str header.2)

/-- A header with its name in small letters. -/
def small (header : Text × Text) : Text × Text := (Text.lower header.1, header.2)

theorem latin_of_forall {t : Text} (h : ∀ c ∈ t, Text.IsLatin c) : latin t = .ok t :=
  if_pos (List.all_eq_true.mpr fun c hc ↦ decide_eq_true (h c hc))

theorem ofEntry_entry (h : IsPlain header) : ofEntry (entry header) = .ok (small header) := by
  have hname := latin_of_forall (Text.isLatin_of_mem_lower h.name)
  have hvalue : latin (Value.str header.2).plain = .ok header.2 := latin_of_forall h.value
  change (do return (← latin (Text.lower header.1), ← latin (Value.str header.2).plain)) = _
  rw [hname, hvalue]
  rfl

/-- The names of headers that have been put into small letters stay as they are. -/
theorem map_small_small (headers : List (Text × Text)) :
    (headers.map small).map small = headers.map small := by
  rw [List.map_map]
  exact List.map_congr_left fun header _ ↦ Prod.ext (Text.lower_lower header.1) rfl

theorem ofMapping_entries (h : ∀ header ∈ headers, IsPlain header) :
    ofMapping (headers.map entry) = .ok (ofPairs headers) := by
  have hentries : (headers.map entry).mapM ofEntry = .ok (headers.map small) := by
    induction headers with
    | nil => rfl
    | cons header rest ih =>
      obtain ⟨hheader, hrest⟩ := List.forall_mem_cons.mp h
      rw [List.map_cons, List.mapM_cons, ofEntry_entry hheader, ih hrest]
      rfl
  rw [ofMapping, hentries]
  exact congrArg (fun pairs ↦ Except.ok (Headers.mk (Fields.ofPairs pairs)))
    (map_small_small headers)

theorem get?_ofPairs (headers : List (Text × Text)) (name : Text) :
    (ofPairs headers).get? name = (headers.map small).lookup (Text.lower name) :=
  Fields.get?_ofPairs _ _

/-- Any other name is looked up as if the header were not there. -/
theorem get?_insert (h : Text.lower name ≠ Text.lower host) :
    (ofPairs (front ++ (host, value) :: back)).get? name = (ofPairs (front ++ back)).get? name := by
  rw [get?_ofPairs, get?_ofPairs, List.map_append, List.map_append, List.map_cons,
    List.lookup_append, List.lookup_append, List.lookup_cons]
  simp only [small, beq_false_of_ne h]

theorem get?_inserted (hname : Text.lower name = Text.lower host)
    (h : ∀ header ∈ front, Text.lower header.1 ≠ Text.lower host) :
    (ofPairs (front ++ (host, value) :: back)).get? name = some value := by
  have hfront : (front.map small).lookup (Text.lower host) = Option.none := by
    rw [List.lookup_eq_none_iff]
    exact List.forall_mem_map.mpr fun header hmem ↦ bne_iff_ne.mpr (Ne.symm (h header hmem))
  rw [get?_ofPairs, hname, List.map_append, List.map_cons, List.lookup_append, hfront,
    List.lookup_cons]
  simp only [small, beq_self_eq_true, Option.none_or]

end Headers

/-! ### Requests -/

namespace Request

variable {method path host scheme query : Text} {headers : List (Text × Text)} {scope : Scope}
  {r s : Request}

/-- A server interface tells of a request for a path on a host. One of its headers names the host,
and the others are the given ones, whatever the case of their names. -/
structure Scope.Tells (scope : Scope) (method path host scheme : Text)
    (headers : List (Text × Text)) (query : Text) : Prop where
  method : scope.method = some method
  path : scope.path = some path
  scheme : scope.scheme = scheme
  headers : ∃ front back name, scope.headers = front ++ (name, host) :: back ∧
    Text.lower name = "host" ∧ (front ++ back).map Headers.small = headers.map Headers.small
  query : scope.query = query

/-- The requests give the same answers, their paths and single headers apart. -/
structure Agrees (r s : Request) : Prop where
  method : r.method = s.method
  hostName : r.hostName = s.hostName
  subDomain : r.subDomain = s.subDomain
  isSecure : r.isSecure = s.isSecure
  isAjax : r.isAjax = s.isAjax
  isPjax : r.isPjax = s.isPjax
  isJson : r.isJson = s.isJson
  ext : r.ext = s.ext
  query : r.query = s.query
  pathParams : r.pathParams = s.pathParams
  rootDomain : r.rootDomain = s.rootDomain

/-- The sub-domain depends on the name of the host and the root domain only. -/
theorem subDomain_congr (hhost : r.hostName = s.hostName) (hroot : r.rootDomain = s.rootDomain) :
    r.subDomain = s.subDomain := by
  rw [subDomain, subDomain, Request.root?, Request.root?, hhost, hroot]

/-- Among the headers that a server interface tells, that of the host is found, and all others are
found as they are given. -/
theorem Scope.Tells.get? (h : scope.Tells method path host scheme headers query)
    (hheaders : ∀ header ∈ headers, Headers.IsPlain header) :
    (Headers.ofPairs scope.headers).get? "host" = some host ∧
    ∀ name, Text.lower name ≠ "host" →
      (Headers.ofPairs headers).get? name = (Headers.ofPairs scope.headers).get? name := by
  obtain ⟨front, back, name, hscope, hname, hothers⟩ := h.headers
  have hfront : ∀ header ∈ front, Text.lower header.1 ≠ Text.lower name := by
    intro header hmem
    have hsmall : Headers.small header ∈ headers.map Headers.small :=
      hothers ▸ List.mem_map_of_mem (List.mem_append_left back hmem)
    obtain ⟨given, hgiven, heq⟩ := List.mem_map.mp hsmall
    have hsame : Text.lower given.1 = Text.lower header.1 := congrArg Prod.fst heq
    exact hname ▸ hsame ▸ (hheaders given hgiven).other
  rw [hscope]
  constructor
  · exact Headers.get?_inserted (hname.symm ▸ (by decide)) hfront
  · intro other hother
    rw [Headers.get?_insert (hname.symm ▸ hother), Headers.get?_ofPairs, Headers.get?_ofPairs,
      hothers]

/-- Both ways of making a request make one, and the two agree; the paths are the same unless the
path is empty. -/
theorem exists_create_ofScope (h : scope.Tells method path host scheme headers query)
    (hmethod : Text.upper method = method)
    (hheaders : ∀ header ∈ headers, Headers.IsPlain header) (rootDomain : Option Text) :
    ∃ r s, create method path host scheme (headers.map Headers.entry) query [] rootDomain = .ok r ∧
      ofScope scope rootDomain = .ok s ∧ r.Agrees s ∧ s.path = path ∧
      r.path = if path.isEmpty then ['/'] else path := by
  obtain ⟨hhost, hothers⟩ := h.get? hheaders
  let r : Request := ⟨Text.upper method, if path.isEmpty then ['/'] else path, host, scheme,
    .ofPairs headers, .ofText query, [], rootDomain⟩
  let s : Request := ⟨method, path, host, scheme, .ofPairs scope.headers, .ofText query, [],
    rootDomain⟩
  have hcreate : create method path host scheme (headers.map Headers.entry) query [] rootDomain =
      .ok r := by
    rw [create, Headers.ofMapping_entries hheaders]
    rfl
  have hscope : ofScope scope rootDomain = .ok s := by
    rw [ofScope, hhost, h.method, h.path, h.scheme, h.query]
    rfl
  have hlowered (name : Text) (hname : Text.lower name ≠ "host") :
      r.headers.lowered name = s.headers.lowered name :=
    congrArg (fun found ↦ Text.lower (Option.getD found [])) (hothers name hname)
  -- Neither the empty path nor the root path has an extension.
  have hpath : r.ext = s.ext := by
    cases path <;> rfl
  have hcontent : r.isSecure = s.isSecure ∧ r.isAjax = s.isAjax ∧ r.isPjax = s.isPjax ∧
      r.isJson = s.isJson := by
    rw [isSecure, isSecure, isAjax, isAjax, isPjax, isPjax, isJson, isJson,
      hlowered _ (by decide), hlowered _ (by decide), hlowered _ (by decide)]
    refine ⟨rfl, rfl, ?_, rfl⟩
    exact congrArg Option.isSome (hothers "x-pjax" (by decide))
  obtain ⟨hsecure, hajax, hpjax, hjson⟩ := hcontent
  exact ⟨r, s, hcreate, hscope, ⟨hmethod, rfl, rfl, hsecure, hajax, hpjax, hjson, hpath, rfl, rfl,
    rfl⟩, rfl, rfl⟩

end Request

end Http

end UrlRouting

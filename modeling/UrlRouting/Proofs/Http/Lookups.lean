import UrlRouting.Proofs.CommandLine.Repeated
import UrlRouting.Proofs.Http.Written

/-!
Lookups of headers. Whether a name is there, its value and its value with a default all tell of the
first pair of octets whose name is the same in small letters, and a map of names and values in
Latin-1 makes the headers of its encoded entries (`Headers.answers_ofOctets`).
-/

namespace UrlRouting.Http

theorem Fields.nodup_names_ofPairs (pairs : List (Text × Text)) :
    ((ofPairs pairs).map Prod.fst).Nodup := by
  induction pairs with
  | nil => exact List.nodup_nil
  | cons pair rest ih =>
    rw [ofPairs, List.map_cons, List.nodup_cons]
    constructor
    · intro hmem
      obtain ⟨field, hfield, hname⟩ := List.mem_map.mp hmem
      exact bne_iff_ne.mp (List.mem_filter.mp hfield).2 hname
    · exact ih.sublist (List.filter_sublist.map Prod.fst)

namespace Headers

variable {t : Text} {headers : List (Text × Text)}

/-! ### Octets of Latin-1 -/

/-- The octets of a text in Latin-1. -/
def encoded (t : Text) : List UInt8 := t.map fun c ↦ UInt8.ofNat c.toNat

theorem decoded_encoded (h : ∀ c ∈ t, Text.IsLatin c) : decoded (encoded t) = t := by
  rw [decoded, encoded, List.map_map]
  refine (List.map_congr_left fun c hc ↦ ?_).trans (List.map_id t)
  have hsmall : c.toNat < UInt8.size := Nat.lt_succ_of_le (h c hc)
  change Char.ofNat (UInt8.ofNat c.toNat).toNat = c
  rw [UInt8.toNat_ofNat_of_lt' hsmall, Char.ofNat_toNat]

/-- The characters of name and value are in Latin-1. -/
structure IsWritten (header : Text × Text) : Prop where
  name : ∀ c ∈ header.1, Text.IsLatin c
  value : ∀ c ∈ header.2, Text.IsLatin c

instance (header : Text × Text) : Decidable (IsWritten header) :=
  decidable_of_iff (_ ∧ _) ⟨fun ⟨name, value⟩ ↦ ⟨name, value⟩, fun ⟨name, value⟩ ↦ ⟨name, value⟩⟩

/-- A header as a pair of octets. -/
def octets (header : Text × Text) : List UInt8 × List UInt8 := (encoded header.1, encoded header.2)

theorem ofOctets_map_octets (h : ∀ header ∈ headers, IsWritten header) :
    ofOctets (headers.map octets) = ofPairs headers := by
  rw [ofOctets, List.map_map]
  refine congrArg ofPairs ((List.map_congr_left fun header hmem ↦ ?_).trans (List.map_id headers))
  exact Prod.ext (decoded_encoded (h header hmem).name) (decoded_encoded (h header hmem).value)

theorem ofMapping_of_isWritten (h : ∀ header ∈ headers, IsWritten header) :
    ofMapping (headers.map entry) = .ok (ofPairs headers) := by
  have hsmall : ofPairs (headers.map small) = ofPairs headers :=
    congrArg (fun pairs ↦ Headers.mk (Fields.ofPairs pairs)) (map_small_small headers)
  refine (ofMapping_eq_ok headers).mpr ⟨fun header hmem ↦ ?_, hsmall.symm⟩
  exact ⟨Text.isLatin_of_mem_lower (h header hmem).name, (h header hmem).value⟩

/-! ### Lookups -/

/-- The lookups of the headers tell of the given pairs. -/
structure Answers (h : Headers) (given : List (Text × Text)) : Prop where
  contains : ∀ key, h.contains key = (first? given key).isSome
  item : ∀ key, h.item key =
    ((first? given key).map Prod.snd).elim (.error .missingKey) .ok
  getOr : ∀ key default, h.getOr key default = ((first? given key).map Prod.snd).or default
  names : h.names = (given.map fun header ↦ Text.lower header.1).eraseDups
  nodup : h.names.Nodup
  size : h.size = h.names.length

theorem answers_ofPairs (given : List (Text × Text)) : (ofPairs given).Answers given := by
  have hget (key : Text) : (ofPairs given).fields.get? (Text.lower key) =
      (first? given key).map Prod.snd := get?_ofPairs_eq_first? given key
  have hnames : (ofPairs given).names =
      (given.map fun header ↦ Text.lower header.1).eraseDups := by
    rw [names, ofPairs, Fields.names_ofPairs, List.map_map]
    rfl
  refine ⟨fun key ↦ ?_, fun key ↦ ?_, fun key default ↦ ?_, hnames,
    Fields.nodup_names_ofPairs _, ?_⟩
  · rw [contains, get?, hget, Option.isSome_map]
  · rw [item, hget]
    cases first? given key <;> rfl
  · rw [getOr, hget]
  · exact (List.length_map Prod.fst).symm

/-- The lookups of pairs of octets tell of the first pair with the name, in whatever case, and a map
in Latin-1 makes the same headers as its encoded entries. -/
theorem answers_ofOctets :
    (∀ raw : List (List UInt8 × List UInt8), (ofOctets raw).Answers
      (raw.map fun header ↦ (decoded header.1, decoded header.2))) ∧
    ∀ headers : List (Text × Text), (∀ header ∈ headers, IsWritten header) →
      ofMapping (headers.map entry) = .ok (ofOctets (headers.map octets)) :=
  ⟨fun _ ↦ answers_ofPairs _, fun _ h ↦ (ofOctets_map_octets h).symm ▸ ofMapping_of_isWritten h⟩

/-- A name that is given in two cases has the value of the first, also when it is looked up with a
letter from outside Latin-1 that has the same small form. -/
theorem answers_recased :
    let headers : List (Text × Text) := [("X-Key", "é"), ("x-KEY", "b"), ("Àb", "")]
    (∀ header ∈ headers, IsWritten header) ∧
      ofMapping (headers.map entry) = .ok (ofOctets (headers.map octets)) ∧
      (ofOctets (headers.map octets)).item "x-\u212Aey" = .ok "é" ∧
      (ofOctets (headers.map octets)).names = ["x-key", "àb"] := by
  intro headers
  have hwritten : ∀ header ∈ headers, IsWritten header := by decide
  have hgiven : (headers.map octets).map (fun header ↦ (decoded header.1, decoded header.2)) =
      headers := by decide
  have hanswers := answers_ofOctets.1 (headers.map octets)
  rw [hgiven] at hanswers
  refine ⟨hwritten, answers_ofOctets.2 headers hwritten, ?_, ?_⟩
  · have hfirst : first? headers "x-\u212Aey" = headers.head? := by decide
    rw [hanswers.item, hfirst]
    rfl
  · rw [hanswers.names]
    decide

end Headers

end UrlRouting.Http

import Mathlib.Data.List.Forall2
import UrlRouting.Http.Query
import UrlRouting.Proofs.Text.Escapes
import UrlRouting.Proofs.Text.Split

/-!
Query strings that write out pairs of names and values in escapes. Reading one back binds each name
to the first value that it is paired with, in the order in which the names come first
(`Query.binds_of_writes`).
-/

namespace UrlRouting.Http

open Text

/-! ### Fields -/

namespace Fields

theorem filter_ofPairs (pairs : List (Text × Text)) (name : Text) :
    (ofPairs pairs).filter (fun field ↦ field.1 != name) =
      ofPairs (pairs.filter fun field ↦ field.1 != name) := by
  induction pairs with
  | nil => rfl
  | cons pair rest ih =>
    rw [ofPairs]
    by_cases hname : pair.1 = name
    · rw [List.filter_cons_of_neg (by simp [hname]), List.filter_cons_of_neg (by simp [hname]),
        List.filter_filter, ← ih]
      simp only [hname, Bool.and_self]
    · rw [List.filter_cons_of_pos (by simp [hname]), List.filter_cons_of_pos (by simp [hname]),
        ofPairs, ← ih, List.filter_filter, List.filter_filter]
      simp only [Bool.and_comm]

/-- The names come in the order of their first occurrences. -/
theorem names_ofPairs (pairs : List (Text × Text)) :
    (ofPairs pairs).map Prod.fst = (pairs.map Prod.fst).eraseDups := by
  induction hlength : pairs.length using Nat.strongRecOn generalizing pairs with
  | ind length ih =>
    cases pairs with
    | nil => rfl
    | cons pair rest =>
      subst hlength
      have hshorter : (rest.filter fun field ↦ field.1 != pair.1).length < (pair :: rest).length :=
        Nat.lt_succ_of_le (List.length_filter_le _ _)
      rw [ofPairs, List.map_cons, List.map_cons, List.eraseDups_cons, filter_ofPairs,
        ih _ hshorter _ rfl, List.filter_map]
      rfl

end Fields

/-! ### Query strings -/

namespace Query

variable {t raw name : Text} {pair : Text × Text} {given : List (Text × Text)}

/-- Name and value of a pair are written in escapes, with an equals sign between them. -/
def WritesPair (pair : Text × Text) (t : Text) : Prop :=
  ∃ name value, Percent.IsEscaped pair.1 name ∧ Percent.IsEscaped pair.2 value ∧
    t = name ++ '=' :: value

/-- Pairs are written out, with an ampersand between neighbours. -/
def Writes (given : List (Text × Text)) (t : Text) : Prop :=
  ∃ pieces, List.Forall₂ WritesPair given pieces ∧ t = join "&" pieces

/-- Pairs written out with capital letters in all escapes. -/
def written (given : List (Text × Text)) : Text :=
  join "&" (given.map fun pair ↦ Percent.escaped pair.1 ++ '=' :: Percent.escaped pair.2)

theorem writes_written (given : List (Text × Text)) : Writes given (written given) := by
  refine ⟨_, ?_, rfl⟩
  rw [List.forall₂_map_right_iff, List.forall₂_same]
  intro pair _
  exact ⟨_, _, Percent.isEscaped_escaped _, Percent.isEscaped_escaped _, rfl⟩

/-- The query holds the names in the order in which they are given first, each with the first value
that it is paired with. -/
structure Binds (q : Query) (given : List (Text × Text)) : Prop where
  names : q.fields.map Prod.fst = (given.map Prod.fst).eraseDups
  get? : ∀ name, q.get? name = given.lookup name

theorem mem_of_isEscaped (h : Percent.IsEscaped name t) :
    ∀ c ∈ t, IsAscii c ∧ c ∉ ['+', '=', '&', '?'] := by
  intro c hc
  obtain ⟨hascii, rfl | hword⟩ := Percent.isAscii_of_escapes h c hc
  · exact ⟨hascii, by decide⟩
  · refine ⟨hascii, fun hmem ↦ ?_⟩
    have hmarks : ∀ c ∈ ['+', '=', '&', '?'], c.isAlphanum = false := by decide
    rw [hmarks c hmem] at hword
    cases hword

theorem decode_of_isEscaped (h : Percent.IsEscaped name t) : decode t = name := by
  have hmap : (t.map fun c ↦ if c = '+' then ' ' else c) = t.map id := by
    refine List.map_congr_left fun c hc ↦ if_neg ?_
    rintro rfl
    exact (mem_of_isEscaped h _ hc).2 (by decide)
  rw [decode, hmap, List.map_id, Percent.decode_of_isEscaped h]

/-- The text is a piece of a query string: not empty and free of marks that end one. -/
structure IsPiece (t : Text) : Prop where
  ne_nil : t ≠ []
  chars : ∀ c ∈ t, IsAscii c ∧ c ∉ ['&', '?']

theorem isPiece_of_writesPair (h : WritesPair pair t) : IsPiece t := by
  obtain ⟨name, value, hname, hvalue, rfl⟩ := h
  have hchars {t u : Text} (h : Percent.IsEscaped u t) : ∀ c ∈ t, IsAscii c ∧ c ∉ ['&', '?'] :=
    fun c hc ↦ ⟨(mem_of_isEscaped h c hc).1, fun hmem ↦ (mem_of_isEscaped h c hc).2
      (List.mem_cons_of_mem _ (List.mem_cons_of_mem _ hmem))⟩
  refine ⟨List.append_ne_nil_of_right_ne_nil _ (List.cons_ne_nil _ _), ?_⟩
  refine List.forall_mem_append.mpr ⟨hchars hname, ?_⟩
  exact List.forall_mem_cons.mpr ⟨by decide, hchars hvalue⟩

theorem readPair_of_writesPair (h : WritesPair pair t) : readPair t = pair := by
  obtain ⟨name, value, hname, hvalue, rfl⟩ := h
  have hequals : '=' ∉ name := fun hmem ↦ (mem_of_isEscaped hname _ hmem).2 (by decide)
  rw [readPair, cut?_append_cons hequals]
  exact Prod.ext (decode_of_isEscaped hname) (decode_of_isEscaped hvalue)

theorem forall_mem_join {P : Char → Prop} {mark : Text} {pieces : List Text}
    (hmark : ∀ c ∈ mark, P c) (h : ∀ piece ∈ pieces, ∀ c ∈ piece, P c) :
    ∀ c ∈ join mark pieces, P c := by
  induction pieces with
  | nil => exact fun c hc ↦ absurd hc List.not_mem_nil
  | cons piece rest ih =>
    obtain ⟨hpiece, hrest⟩ := List.forall_mem_cons.mp h
    cases rest with
    | nil => exact hpiece
    | cons next rest =>
      rw [join_cons (List.cons_ne_nil next rest)]
      exact List.forall_mem_append.mpr ⟨hpiece, List.forall_mem_append.mpr ⟨hmark, ih hrest⟩⟩

/-- The pieces are those that the pairs are read from. -/
theorem pairs_join {pieces : List Text} (h : ∀ piece ∈ pieces, IsPiece piece) :
    pairs (join "&" pieces) = pieces.map readPair := by
  cases pieces with
  | nil => rfl
  | cons first rest =>
    have hsplit : splitAt '&' (join "&" (first :: rest)) = first :: rest :=
      splitAt_join (List.cons_ne_nil first rest) fun piece hmem hamp ↦
        ((h piece hmem).chars _ hamp).2 (by decide)
    have hfilled : (first :: rest).filter (!·.isEmpty) = first :: rest := by
      refine List.filter_eq_self.mpr fun piece hmem ↦ ?_
      rw [Bool.not_eq_true', List.isEmpty_eq_false_iff]
      exact (h piece hmem).ne_nil
    rw [pairs, hsplit, hfilled]

theorem Writes.pairs (h : Writes given t) :
    Query.pairs t = given ∧ ∀ c ∈ t, IsAscii c ∧ c ∉ ['?'] := by
  obtain ⟨pieces, hpieces, rfl⟩ := h
  have hread : pieces.map readPair = given ∧ ∀ piece ∈ pieces, IsPiece piece := by
    induction hpieces with
    | nil => exact ⟨rfl, fun piece hmem ↦ absurd hmem List.not_mem_nil⟩
    | cons hpair _ ih =>
      rw [List.map_cons, readPair_of_writesPair hpair, ih.1]
      exact ⟨rfl, List.forall_mem_cons.mpr ⟨isPiece_of_writesPair hpair, ih.2⟩⟩
  refine ⟨(pairs_join hread.2).trans hread.1, forall_mem_join (by decide) fun piece hmem c hc ↦ ?_⟩
  obtain ⟨hascii, hmarks⟩ := (hread.2 piece hmem).chars c hc
  exact ⟨hascii, fun hmark ↦ hmarks (List.mem_cons_of_mem _ hmark)⟩

theorem binds_ofPairs (raw : Text) (given : List (Text × Text)) :
    Binds ⟨raw, Fields.ofPairs given⟩ given :=
  ⟨Fields.names_ofPairs given, Fields.get?_ofPairs given⟩

theorem ofOctets_octets (h : ∀ c ∈ t, IsAscii c) : ofOctets (Utf8.octets t) = ofText t :=
  congrArg ofText (Utf8.octets_of_isAscii h)

theorem Writes.withoutMark (h : Writes given t) : Query.withoutMark t = t := by
  cases t with
  | nil => rfl
  | cons c rest =>
    have hmark : c ≠ '?' := by
      rintro rfl
      exact (h.pairs.2 _ List.mem_cons_self).2 (by decide)
    simp [Query.withoutMark, hmark]

/-- A query string that writes out pairs gives the pairs back, as text or as octets, with or without
a question mark before it. -/
theorem binds_of_writes (h : Writes given t) (hraw : raw = t ∨ raw = '?' :: t) :
    (ofText raw).Binds given ∧ (ofOctets (Utf8.octets raw)).Binds given := by
  obtain ⟨hpairs, hchars⟩ := h.pairs
  have hascii : ∀ c ∈ t, IsAscii c := fun c hc ↦ (hchars c hc).1
  have hraw : (∀ c ∈ raw, IsAscii c) ∧ Query.withoutMark raw = t := by
    rcases hraw with rfl | rfl
    · exact ⟨hascii, h.withoutMark⟩
    · exact ⟨List.forall_mem_cons.mpr ⟨by decide, hascii⟩, rfl⟩
  have hbinds : (ofText raw).Binds given := by
    rw [ofText, hraw.2, hpairs]
    exact binds_ofPairs t given
  rw [ofOctets_octets hraw.1]
  exact ⟨hbinds, hbinds⟩

theorem binds_repeated :
    let given : List (Text × Text) := [("a&", "="), ("", ""), ("a&", "é")]
    let raw : Text := "?%61%26=%3D&=&%61%26=%C3%A9"
    Writes given raw.tail ∧ (ofText raw).Binds given ∧
      (ofOctets (Utf8.octets raw)).Binds given := by
  intro given raw
  have hwrites : Writes given raw.tail := by
    have hraw : raw.tail = written given := by decide +kernel
    exact hraw ▸ writes_written given
  exact ⟨hwrites, binds_of_writes hwrites (.inr rfl)⟩

end Query

end UrlRouting.Http

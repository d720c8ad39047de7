import UrlRouting.Proofs.Text.Split
import UrlRouting.Proofs.Value.Entries
import UrlRouting.Variables

/-!
Parameters written out in a URL. Names and values that follow each other behind the parts of a rule
are read back as they were written, pair by pair: `extra_joined`.
-/

namespace UrlRouting.Variables

variable {name value rest rule : Text} {d : Char}

/-! ### Reading pairs -/

theorem pairsAfter_append (front rest : Text) :
    pairsAfter front.length (front ++ rest) = pairsAfter 0 rest := by
  induction front with
  | nil => rfl
  | cons c front ih => exact ih

theorem isWord_slash : Text.isWord '/' = false := by decide

theorem takeWhile_word (hword : ∀ c ∈ name, Text.isWord c = true) (rest : Text) :
    (name ++ '/' :: rest).takeWhile Text.isWord = name ∧
      (name ++ '/' :: rest).dropWhile Text.isWord = '/' :: rest := by
  rw [List.takeWhile_append_of_pos hword, List.dropWhile_append_of_pos hword,
    List.takeWhile_cons_of_neg (by simp [isWord_slash]),
    List.dropWhile_cons_of_neg (by simp [isWord_slash]), List.append_nil]
  exact ⟨rfl, rfl⟩

theorem takeWhile_segment (hvalue : '/' ∉ value) (hrest : rest = [] ∨ rest.head? = some '/') :
    (value ++ rest).takeWhile (· != '/') = value := by
  have hall : ∀ c ∈ value, (c != '/') = true := fun c hc ↦
    bne_iff_ne.mpr fun he ↦ hvalue (he ▸ hc)
  rw [List.takeWhile_append_of_pos hall]
  cases rest with
  | nil => exact List.append_nil value
  | cons c rest =>
    obtain rfl := Option.some.inj (hrest.resolve_left (List.cons_ne_nil _ _))
    rw [List.takeWhile_cons_of_neg (by simp), List.append_nil]

/-- A name and a value that is not empty are read up to the next slash. -/
theorem pairAt?_written (hname : name ≠ []) (hword : ∀ c ∈ name, Text.isWord c = true)
    (hvalue : value ≠ []) (hslash : '/' ∉ value) (hrest : rest = [] ∨ rest.head? = some '/') :
    pairAt? (name ++ '/' :: (value ++ rest)) = some (name, value) := by
  obtain ⟨htake, hdrop⟩ := takeWhile_word hword (value ++ rest)
  have hsegment := takeWhile_segment hslash hrest
  cases name with
  | nil => exact absurd rfl hname
  | cons c name =>
    cases value with
    | nil => exact absurd rfl hvalue
    | cons x value =>
      rw [pairAt?, htake, hdrop]
      simp only [hsegment]

theorem pairsAfter_written (hname : name ≠ []) (hword : ∀ c ∈ name, Text.isWord c = true)
    (hvalue : value ≠ []) (hslash : '/' ∉ value) (hrest : rest = [] ∨ rest.head? = some '/') :
    pairsAfter 0 (name ++ '/' :: (value ++ rest)) = (name, value) :: pairsAfter 0 rest := by
  have hpair := pairAt?_written hname hword hvalue hslash hrest
  cases name with
  | nil => exact absurd rfl hname
  | cons c name =>
    have hlength : (c :: name).length + value.length = (name ++ '/' :: value).length := by
      simp only [List.length_cons, List.length_append]
      omega
    have hskip : name ++ '/' :: (value ++ rest) = (name ++ '/' :: value) ++ rest := by simp
    rw [List.cons_append] at hpair ⊢
    rw [pairsAfter, hpair]
    dsimp only
    rw [hlength, hskip, pairsAfter_append]

theorem pairsAfter_slash (rest : Text) : pairsAfter 0 ('/' :: rest) = pairsAfter 0 rest := by
  have hnone : pairAt? ('/' :: rest) = none := by
    rw [pairAt?, List.takeWhile_cons_of_neg (by simp [isWord_slash])]
  rw [pairsAfter, hnone]

/-! ### Writing pairs -/

/-- The name is a word, the value is not empty and has no slash, and neither holds the delimiter. -/
structure Writable (d : Char) (pair : Text × Text) : Prop where
  name_ne_nil : pair.1 ≠ []
  isWord : ∀ c ∈ pair.1, Text.isWord c = true
  not_mem_name : d ∉ pair.1
  value_ne_nil : pair.2 ≠ []
  slash_not_mem : '/' ∉ pair.2
  not_mem_value : d ∉ pair.2

/-- The names and values of some pairs in turn. -/
def inTurn (pairs : List (Text × Text)) : List Text := pairs.flatMap fun pair ↦ [pair.1, pair.2]

theorem not_mem_of_mem_inTurn {pairs : List (Text × Text)} {part : Text}
    (h : ∀ pair ∈ pairs, Writable d pair) (hpart : part ∈ inTurn pairs) : d ∉ part := by
  obtain ⟨pair, hmem, hpart⟩ := List.mem_flatMap.mp hpart
  rcases List.mem_cons.mp hpart with rfl | hpart
  · exact (h pair hmem).not_mem_name
  · obtain rfl := List.mem_singleton.mp hpart
    exact (h pair hmem).not_mem_value

/-- What is written behind a value is empty or starts with a slash, so that the value is read to its
end and reading goes on with the next name. -/
theorem pairsAfter_inTurn {pairs : List (Text × Text)} (h : ∀ pair ∈ pairs, Writable d pair) :
    pairsAfter 0 (Text.join "/" (inTurn pairs)) = pairs := by
  induction pairs with
  | nil => rfl
  | cons pair rest ih =>
    obtain ⟨name, value⟩ := pair
    have hpair := h _ List.mem_cons_self
    have hrest := ih fun other hmem ↦ h other (List.mem_cons_of_mem _ hmem)
    have hread {more : Text} (hmore : more = [] ∨ more.head? = some '/') :=
      pairsAfter_written hpair.name_ne_nil hpair.isWord hpair.value_ne_nil hpair.slash_not_mem hmore
    have hwritten : inTurn ((name, value) :: rest) = name :: value :: inTurn rest := rfl
    rw [hwritten, Text.join_cons (List.cons_ne_nil _ _)]
    by_cases hnil : inTurn rest = []
    · have hlast := hread (.inl rfl)
      rw [hnil] at hrest ⊢
      rw [List.append_nil] at hlast
      exact hlast.trans (congrArg ((name, value) :: ·) hrest)
    · rw [Text.join_cons hnil]
      exact (hread (.inr rfl)).trans
        (congrArg ((name, value) :: ·) ((pairsAfter_slash _).trans hrest))

theorem keys_ofPairText (t : Text) : Entries.keys (ofPairText t) =
    ((pairsAfter 0 t).map Prod.fst).eraseDups.map Value.str := by
  have hkeys := Entries.keys_ofPairs
    ((pairsAfter 0 t).map fun pair ↦ (pair.1, Value.str (stripTags pair.2)))
  rw [List.map_map, List.map_map] at hkeys
  exact hkeys

theorem named?_ofPairText (t name : Text) : (ofPairText t).named? name =
    ((pairsAfter 0 t).reverse.lookup name).map fun value ↦ .str (stripTags value) := by
  have hget := Entries.get?_ofPairs
    ((pairsAfter 0 t).map fun pair ↦ (pair.1, Value.str (stripTags pair.2))) name
  rw [List.map_map, ← List.map_reverse] at hget
  exact hget.trans (lookup_map (fun value ↦ Value.str (stripTags value)) _ name)

theorem unconsumed_joined {leading parts : List Text} (hcount : leading.length = rule.count '/' + 1)
    (hparts : ∀ part ∈ leading ++ parts, d ∉ part) :
    unconsumed rule (Text.join [d] (leading ++ parts)) [d] = parts := by
  have hne : leading ++ parts ≠ [] := by
    rintro h
    rw [(List.append_eq_nil_iff.mp h).1] at hcount
    cases hcount
  rw [unconsumed, Text.splitOn_singleton, Text.splitAt_join hne hparts, ← hcount, List.drop_left]

/-- Behind as many parts as a rule string has, names and values that are joined by the delimiter are
read as the map in which each name, in the order of first occurrence, is bound to the last value
that it is paired with, tags left out. -/
theorem extra_joined {leading : List Text} {pairs : List (Text × Text)}
    (hcount : leading.length = rule.count '/' + 1) (hleading : ∀ part ∈ leading, d ∉ part)
    (hpairs : ∀ pair ∈ pairs, Writable d pair) : ∃ params,
      extra rule (Text.join [d] (leading ++ inTurn pairs)) (.str [d]) = .ok params ∧
      Entries.keys params = (pairs.map Prod.fst).eraseDups.map Value.str ∧
      ∀ name, params.named? name =
        (pairs.reverse.lookup name).map fun value ↦ .str (stripTags value) := by
  have hparts : ∀ part ∈ leading ++ inTurn pairs, d ∉ part := by
    intro part hmem
    rcases List.mem_append.mp hmem with hmem | hmem
    · exact hleading part hmem
    · exact not_mem_of_mem_inTurn hpairs hmem
  have hread := pairsAfter_inTurn hpairs
  refine ⟨_, congrArg (fun parts ↦ Except.ok (ofPairText (Text.join "/" parts)))
    (unconsumed_joined hcount hparts), ?_, fun name ↦ ?_⟩
  · rw [keys_ofPairText, hread]
  · rw [named?_ofPairText, hread]

/-- A name that is given twice, and a tag that is not closed. -/
def pages : List (Text × Text) := [("page", "1"), ("sort", "up<b"), ("page", "2")]

theorem writable_pages : ∀ pair ∈ pages, Writable '-' pair := by
  intro pair hmem
  simp only [pages, List.mem_cons, List.not_mem_nil, or_false] at hmem
  rcases hmem with rfl | rfl | rfl
  all_goals exact ⟨by decide, by decide, by decide, by decide, by decide, by decide⟩

theorem extra_joined_pages :
    ["user".toList, "42".toList].length = "user/<id>".toList.count '/' + 1 ∧
    (∀ part ∈ ["user".toList, "42".toList], '-' ∉ part) ∧
    (∀ pair ∈ pages, Writable '-' pair) ∧
    Text.join "-" (["user".toList, "42".toList] ++ inTurn pages) =
      "user-42-page-1-sort-up<b-page-2".toList ∧
    ∃ params, extra "user/<id>" "user-42-page-1-sort-up<b-page-2" "-" = .ok params ∧
      Entries.keys params = [.str "page", .str "sort"] ∧
      params.named? "page" = some (.str "2") ∧ params.named? "sort" = some (.str "up") := by
  have hcount : ["user".toList, "42".toList].length = "user/<id>".toList.count '/' + 1 := by decide
  have hleading : ∀ part ∈ ["user".toList, "42".toList], '-' ∉ part := by decide
  obtain ⟨params, hextra, hkeys, hvalues⟩ := extra_joined hcount hleading writable_pages
  exact ⟨hcount, hleading, writable_pages, rfl, params, hextra, hkeys, hvalues _, hvalues _⟩

end UrlRouting.Variables

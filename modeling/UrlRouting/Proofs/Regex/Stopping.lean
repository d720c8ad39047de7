import UrlRouting.Proofs.Regex.Closing

/-!
Readers with more behind what they read. Where a parenthesis is closed or the anchor of the end
stands (`Stops`), each of them stops as it does at the end of the text.
-/

namespace UrlRouting.Regex.Token

variable {modes modes' inner : Modes} {outer outer' : List Modes} {t u rest : Text} {c z : Char}
  {token : Token} {tokens : List Token} {item : SetItem} {items items' : List SetItem}
  {value code missing fuel fuel' : Nat} {name : Text} {asciiOnly : Bool}
  {bounds : Option Nat × Option Nat} {parenthesis : Parenthesis}

/-- Nothing that is being read goes on with the text. -/
def Stops (u : Text) : Prop := ∀ c, u.head? = some c → c = ')' ∨ c = '$'

theorem Stops.nil : Stops [] := nofun

theorem Stops.forall (hu : Stops u) {p : Char → Prop} (hp : p ')' ∧ p '$') :
    ∀ c, u.head? = some c → p c := by
  intro c hc
  rcases hu c hc with rfl | rfl
  · exact hp.1
  · exact hp.2

theorem Stops.head_append_ne (hu : Stops u) {x : Char} (hx : ')' ≠ x ∧ '$' ≠ x)
    (h : t.head? ≠ some x) : (t ++ u).head? ≠ some x := by
  cases t with
  | nil => exact fun he ↦ hu.forall (p := (· ≠ x)) hx x he rfl
  | cons c t => exact h

theorem dropThrough_terminator (hz : z ≠ '\\') (t : Text) :
    dropThrough z (z :: t) = .ok (some t) := by
  rw [dropThrough, if_pos rfl]
  · exact fun he ↦ absurd he hz
  · exact fun _ _ he ↦ absurd he hz

/-- A choice by a condition gives what one of its branches gives. -/
theorem ite_eq_ok {α : Type} {p : Prop} [Decidable p] {x y x' y' : Except Defect α} {a a' : α}
    (h : (if p then x else y) = .ok a) (hx : p → x = .ok a → x' = .ok a')
    (hy : ¬p → y = .ok a → y' = .ok a') : (if p then x' else y') = .ok a' := by
  split at h
  next hp => exact (if_pos hp).trans (hx hp h)
  next hp => exact (if_neg hp).trans (hy hp h)

theorem of_error_eq_ok {α : Type} {q : Prop} {defect : Defect} {a : α}
    (h : (.error defect : Except Defect α) = .ok a) : q := by
  cases h

/-- What has been read keeps the rest of the text. -/
theorem ok_append {α : Type} {x y : α}
    (h : (.ok (x, t) : Except Defect (α × Text)) = .ok (y, rest)) :
    (.ok (x, t ++ u) : Except Defect (α × Text)) = .ok (y, rest ++ u) := by
  cases h
  rfl

/-- Goes on behind a member of a set, which may be the first one of a range. -/
def readBehind (asciiOnly : Bool) (fuel : Nat) (items : List SetItem) (item : SetItem) :
    Text → Except Defect (List SetItem × Text)
  | '-' :: ']' :: rest => .ok ((.single '-'.toNat :: item :: items).reverse, rest)
  | '-' :: rest => do
    let (other, rest) ← readMember asciiOnly rest
    readMembers asciiOnly fuel ((← range item other) :: items) rest
  | rest => readMembers asciiOnly fuel (item :: items) rest

section Readers

variable (hu : Stops u)

include hu

theorem readOctal_append (value missing : Nat) (t : Text) : readOctal value missing (t ++ u) =
    ((readOctal value missing t).1, (readOctal value missing t).2 ++ u) := by
  induction missing generalizing value t with
  | zero => rfl
  | succ missing ih =>
    cases t with
    | nil =>
      have hhead := hu.forall (p := fun c ↦ octalValue? c = none) (by decide)
      cases u with
      | nil => rfl
      | cons c u =>
        rw [List.nil_append, readOctal, hhead c rfl]
        rfl
    | cons c t =>
      rw [List.cons_append, readOctal, readOctal]
      cases octalValue? c with
      | none => rfl
      | some d => exact ih _ t

omit hu in
theorem readHex_append (h : readHex value missing t = .ok (code, rest)) :
    readHex value missing (t ++ u) = .ok (code, rest ++ u) := by
  induction missing generalizing value t with
  | zero => exact ok_append h
  | succ missing ih =>
    cases t with
    | nil => cases h
    | cons c t =>
      rw [readHex] at h
      rw [List.cons_append, readHex]
      split at h
      next d hd => exact ih h
      next => cases h

omit hu in
theorem readCode_append (h : readCode c t = .ok (code, rest)) :
    readCode c (t ++ u) = .ok (code, rest ++ u) := by
  rw [readCode] at h ⊢
  cases hcontrol : control? c with
  | some found =>
    rw [hcontrol] at h
    cases h
    rfl
  | none =>
    rw [hcontrol] at h
    refine ite_eq_ok h (fun _ ↦ readHex_append) fun _ h ↦ ite_eq_ok h (fun _ ↦ readHex_append)
      fun _ h ↦ ite_eq_ok h (fun _ h ↦ ?_)
        fun _ h ↦ ite_eq_ok h (fun _ ↦ of_error_eq_ok) fun _ ↦ ok_append
    obtain ⟨⟨found, after⟩, hread, h⟩ := bind_eq_ok h
    rw [readHex_append hread]
    exact ite_eq_ok h (fun _ ↦ ok_append) fun _ ↦ of_error_eq_ok

/-! ### Sets -/

omit hu in
theorem readMember_cons (hc : c ≠ '\\') (asciiOnly : Bool) (t : Text) :
    readMember asciiOnly (c :: t) = .ok (.single c.toNat, t) := by
  rw [readMember.eq_def]
  split
  next he => cases he
  next he => exact absurd (List.cons.inj he).1 hc
  next he => exact absurd (List.cons.inj he).1 hc
  next he =>
    cases he
    rfl

omit hu in
theorem readMember_escape (asciiOnly : Bool) (c : Char) (t : Text) :
    readMember asciiOnly ('\\' :: c :: t) =
      match category? asciiOnly c, octalValue? c with
      | some item, _ => .ok (item, t)
      | none, some d =>
        if (readOctal d 2 t).1 ≤ 0o377 then .ok (.single (readOctal d 2 t).1, (readOctal d 2 t).2)
        else .error .malformed
      | none, none =>
        if c = 'b' then .ok (.single 8, t)
        else if c.isDigit then .error .malformed
        else (readCode c t).map fun (code, rest) ↦ (.single code, rest) := rfl

theorem readMember_append (h : readMember asciiOnly t = .ok (item, rest)) :
    readMember asciiOnly (t ++ u) = .ok (item, rest ++ u) := by
  cases t with
  | nil => cases h
  | cons c t =>
    by_cases hc : c = '\\'
    · subst hc
      cases t with
      | nil => cases h
      | cons c t =>
        rw [readMember_escape] at h
        rw [List.cons_append, List.cons_append, readMember_escape]
        cases hcategory : category? asciiOnly c with
        | some found =>
          rw [hcategory] at h
          exact ok_append h
        | none =>
          rw [hcategory] at h
          cases hoctal : octalValue? c with
          | some d =>
            rw [hoctal] at h
            dsimp only at h ⊢
            rw [readOctal_append hu]
            exact ite_eq_ok h (fun _ ↦ ok_append) fun _ ↦ of_error_eq_ok
          | none =>
            rw [hoctal] at h
            refine ite_eq_ok h (fun _ ↦ ok_append) fun _ h ↦
              ite_eq_ok h (fun _ ↦ of_error_eq_ok) fun _ h ↦ ?_
            obtain ⟨⟨code, after⟩, hread, hp⟩ := map_eq_ok h
            cases hp
            rw [readCode_append hread]
            rfl
    · rw [readMember_cons hc] at h
      cases h
      exact readMember_cons hc asciiOnly _

omit hu in
theorem readMembers_nil (asciiOnly : Bool) (fuel : Nat) (items : List SetItem) :
    readMembers asciiOnly fuel items [] = .error .malformed := by
  cases fuel with
  | zero => rfl
  | succ fuel => cases items <;> rfl

omit hu in
theorem readMembers_succ (hopen : t.head? = some ']' → items = []) (asciiOnly : Bool)
    (fuel : Nat) : readMembers asciiOnly (fuel + 1) items t =
      (readMember asciiOnly t).bind fun (item, rest) ↦
        readBehind asciiOnly fuel items item rest := by
  rw [readMembers.eq_def]
  dsimp only
  split
  next => cases hopen rfl
  next => cases readMember asciiOnly t <;> rfl

omit hu in
theorem readBehind_of_ne (hc : c ≠ '-') (asciiOnly : Bool) (fuel : Nat) (items : List SetItem)
    (item : SetItem) (t : Text) : readBehind asciiOnly fuel items item (c :: t) =
      readMembers asciiOnly fuel (item :: items) (c :: t) := by
  rw [readBehind.eq_def]
  split
  next he => exact absurd (List.cons.inj he).1 hc
  next he => exact absurd (List.cons.inj he).1 hc
  next => rfl

omit hu in
theorem readBehind_dash (hc : c ≠ ']') (asciiOnly : Bool) (fuel : Nat) (items : List SetItem)
    (item : SetItem) (t : Text) : readBehind asciiOnly fuel items item ('-' :: c :: t) =
      (readMember asciiOnly (c :: t)).bind fun (other, rest) ↦
        (range item other).bind fun ranged ↦ readMembers asciiOnly fuel (ranged :: items) rest := by
  rw [readBehind.eq_def]
  split
  next he => exact absurd (List.cons.inj (List.cons.inj he).2).1 hc
  next he =>
    cases he
    rfl
  next hno => exact absurd rfl (hno _)

theorem readBehind_append (h : readBehind asciiOnly fuel items item t = .ok (items', rest))
    (hbehind : ∀ {items t}, readMembers asciiOnly fuel items t = .ok (items', rest) →
      readMembers asciiOnly fuel' items (t ++ u) = .ok (items', rest ++ u)) :
    readBehind asciiOnly fuel' items item (t ++ u) = .ok (items', rest ++ u) := by
  cases t with
  | nil =>
    rw [readBehind, readMembers_nil] at h
    · cases h
    all_goals exact nofun
  | cons c t =>
    by_cases hc : c = '-'
    · subst hc
      cases t with
      | nil => cases h
      | cons d t =>
        by_cases hd : d = ']'
        · subst hd
          exact ok_append h
        · rw [readBehind_dash hd] at h
          rw [List.cons_append, List.cons_append, readBehind_dash hd]
          obtain ⟨⟨other, last⟩, hother, h⟩ := bind_eq_ok h
          obtain ⟨ranged, hrange, h⟩ := bind_eq_ok h
          rw [← List.cons_append, readMember_append hu hother]
          dsimp only [Except.bind]
          rw [hrange]
          exact hbehind h
    · rw [readBehind_of_ne hc] at h
      rw [List.cons_append, readBehind_of_ne hc]
      exact hbehind h

theorem readMembers_append (h : readMembers asciiOnly fuel items t = .ok (items', rest))
    (hfuel : fuel ≤ fuel') :
    readMembers asciiOnly fuel' items (t ++ u) = .ok (items', rest ++ u) := by
  induction fuel generalizing items t fuel' with
  | zero => cases h
  | succ fuel ih =>
    obtain ⟨fuel', rfl⟩ : ∃ less, fuel' = less + 1 := ⟨fuel' - 1, by omega⟩
    cases t with
    | nil =>
      rw [readMembers_nil] at h
      cases h
    | cons c t =>
      by_cases hopen : c = ']' → items = []
      · have hhead (t : Text) : (c :: t).head? = some ']' → items = [] :=
          fun he ↦ hopen (Option.some.inj he)
        rw [readMembers_succ (hhead t)] at h
        rw [List.cons_append, readMembers_succ (hhead _)]
        obtain ⟨⟨item, after⟩, hfirst, h⟩ := bind_eq_ok h
        rw [← List.cons_append, readMember_append hu hfirst]
        exact readBehind_append hu h fun h ↦ ih h (Nat.le_of_succ_le_succ hfuel)
      · obtain ⟨rfl, hitems⟩ := Classical.not_imp.mp hopen
        obtain ⟨first, others, rfl⟩ := List.exists_cons_of_ne_nil hitems
        exact ok_append h

omit hu in
theorem readSet_of_ne (hc : c ≠ '^') (modes : Modes) (t : Text) : readSet modes (c :: t) =
    (readMembers modes.asciiOnly (t.length + 2) [] (c :: t)).map fun (items, rest) ↦
      (.char ⟨items, false, modes.folding⟩, rest) := by
  rw [readSet.eq_def]
  split
  next negated after hafter =>
    split at hafter
    next he => exact absurd (List.cons.inj he).1 hc
    next =>
      cases hafter
      rfl

omit hu in
theorem readSet_caret (modes : Modes) (t : Text) : readSet modes ('^' :: t) =
    (readMembers modes.asciiOnly (t.length + 1) [] t).map fun (items, rest) ↦
      (.char ⟨items, true, modes.folding⟩, rest) := rfl

theorem readSet_append (h : readSet modes t = .ok (token, rest)) :
    readSet modes (t ++ u) = .ok (token, rest ++ u) := by
  have hlength (t : Text) : t.length ≤ (t ++ u).length := by
    rw [List.length_append]
    exact Nat.le_add_right _ _
  cases t with
  | nil => cases h
  | cons c t =>
    rw [List.cons_append]
    by_cases hc : c = '^'
    · rw [hc, readSet_caret] at h ⊢
      obtain ⟨⟨items, after⟩, hread, hp⟩ := map_eq_ok h
      cases hp
      rw [readMembers_append hu hread (Nat.add_le_add_right (hlength t) 1)]
      rfl
    · rw [readSet_of_ne hc] at h ⊢
      obtain ⟨⟨items, after⟩, hread, hp⟩ := map_eq_ok h
      cases hp
      rw [← List.cons_append, readMembers_append hu hread (Nat.add_le_add_right (hlength t) 2)]
      rfl

/-! ### Escapes and counts -/

theorem head?_bind_octalValue? (t : Text) :
    (t ++ u).head?.bind octalValue? = t.head?.bind octalValue? := by
  cases t with
  | nil =>
    cases u with
    | nil => rfl
    | cons c u => exact hu.forall (p := fun c ↦ octalValue? c = none) (by decide) c rfl
  | cons c t => rfl

omit hu in
/-- A back reference has one digit or two; three octal digits are a code. -/
theorem readEscape_digits (hdigit : c.isDigit = true) (hc : c ≠ '0') (modes : Modes) (t : Text) :
    readEscape modes c t = match t with
      | d :: t =>
        if d.isDigit then
          match octalValue? c, octalValue? d, t.head?.bind octalValue? with
          | some x, some y, some z =>
            if 64 * x + 8 * y + z ≤ 0o377 then .ok (literal modes (64 * x + 8 * y + z), t.tail)
            else .error .malformed
          | _, _, _ =>
            .ok (.recall (.number (Decimal.ofDigits [c.toNat - '0'.toNat, d.toNat - '0'.toNat]))
              modes.folding, t)
        else .ok (.recall (.number (c.toNat - '0'.toNat)) modes.folding, d :: t)
      | [] => .ok (.recall (.number (c.toNat - '0'.toNat)) modes.folding, []) := by
  have hne {x : Char} (hx : x.isDigit = false) : c ≠ x := by
    rintro rfl
    rw [hdigit] at hx
    cases hx
  have hcategory : category? modes.asciiOnly c = none := by
    rw [category?.eq_def]
    split <;> first | rfl | exact absurd hdigit (by decide)
  rw [readEscape.eq_def, hcategory]
  dsimp only
  rw [if_neg (hne (by decide)), if_neg (hne (by decide)), if_neg (hne (by decide)),
    if_neg (hne (by decide)), if_neg hc]
  refine (if_pos hdigit).trans ?_
  cases t <;> rfl

theorem readEscape_digits_append (hdigit : c.isDigit = true) (hc : c ≠ '0')
    (h : readEscape modes c t = .ok (token, rest)) :
    readEscape modes c (t ++ u) = .ok (token, rest ++ u) := by
  rw [readEscape_digits hdigit hc] at h ⊢
  cases t with
  | nil =>
    cases h
    cases u with
    | nil => rfl
    | cons d u =>
      have hd : d.isDigit = false := hu.forall (p := fun d ↦ d.isDigit = false) (by decide) d rfl
      exact if_neg (by simp [hd])
  | cons d t =>
    rw [List.cons_append]
    dsimp only at h ⊢
    rw [head?_bind_octalValue? hu]
    split at h
    next hd =>
      rw [if_pos hd]
      split at h
      next hz =>
        have hne : t ≠ [] := by
          rintro rfl
          cases hz
        split at h
        next hcode =>
          cases h
          rw [if_pos hcode, List.tail_append_of_ne_nil hne]
        next => cases h
      next =>
        cases h
        rfl
    next hd =>
      cases h
      exact if_neg hd

theorem readEscape_append (h : readEscape modes c t = .ok (token, rest)) :
    readEscape modes c (t ++ u) = .ok (token, rest ++ u) := by
  by_cases hdigits : c.isDigit = true ∧ c ≠ '0'
  · exact readEscape_digits_append hu hdigits.1 hdigits.2 h
  rw [readEscape.eq_def] at h ⊢
  dsimp only at h ⊢
  cases hcategory : category? modes.asciiOnly c with
  | some item =>
    rw [hcategory] at h
    cases h
    rfl
  | none =>
    rw [hcategory] at h
    rw [readOctal_append hu]
    refine ite_eq_ok h (fun _ ↦ ok_append) fun _ h ↦ ite_eq_ok h (fun _ ↦ ok_append)
      fun _ h ↦ ite_eq_ok h (fun _ ↦ ok_append) fun _ h ↦ ite_eq_ok h (fun _ ↦ ok_append)
        fun _ h ↦ ite_eq_ok h (fun _ ↦ ok_append) fun hc h ↦ ?_
    refine ite_eq_ok h (fun hdigit ↦ absurd ⟨hdigit, hc⟩ hdigits) fun _ h ↦ ?_
    obtain ⟨⟨code, after⟩, hread, hp⟩ := map_eq_ok h
    cases hp
    rw [readCode_append hread]
    rfl

theorem readAppetite_append (t : Text) :
    readAppetite (t ++ u) = ((readAppetite t).1, (readAppetite t).2 ++ u) := by
  cases t with
  | nil =>
    have hunmarked : Reads.unmarked u :=
      ⟨fun h ↦ absurd (hu _ h) (by decide), fun h ↦ absurd (hu _ h) (by decide)⟩
    exact Reads.readAppetite_of_unmarked hunmarked
  | cons c t =>
    by_cases hlazy : c = '?'
    · rw [hlazy]
      rfl
    by_cases hpossessive : c = '+'
    · rw [hpossessive]
      rfl
    have hunmarked (t : Text) : Reads.unmarked (c :: t) :=
      ⟨fun h ↦ hlazy (Option.some.inj h), fun h ↦ hpossessive (Option.some.inj h)⟩
    rw [List.cons_append, Reads.readAppetite_of_unmarked (hunmarked _),
      Reads.readAppetite_of_unmarked (hunmarked _), List.cons_append]

theorem span_append {p : Char → Bool} (hp : p ')' = false ∧ p '$' = false) (t : Text) :
    (t ++ u).takeWhile p = t.takeWhile p ∧ (t ++ u).dropWhile p = t.dropWhile p ++ u := by
  induction t with
  | nil =>
    cases u with
    | nil => exact ⟨rfl, rfl⟩
    | cons c u =>
      have hc : p c = false := hu.forall (p := fun c ↦ p c = false) hp c rfl
      exact ⟨List.takeWhile_cons_of_neg (by simp [hc]), List.dropWhile_cons_of_neg (by simp [hc])⟩
  | cons c t ih =>
    rw [List.cons_append, List.takeWhile_cons, List.takeWhile_cons, List.dropWhile_cons,
      List.dropWhile_cons, ih.1, ih.2]
    split <;> exact ⟨rfl, rfl⟩

omit hu in
theorem readBounds?_of_ne (h : t.head? ≠ some '\x7d') : readBounds? t =
    match t.dropWhile Char.isDigit with
    | '\x7d' :: rest =>
      some ((countOf? (t.takeWhile Char.isDigit), countOf? (t.takeWhile Char.isDigit)), rest)
    | ',' :: rest =>
      match rest.dropWhile Char.isDigit with
      | '\x7d' :: after => some ((countOf? (t.takeWhile Char.isDigit),
          countOf? (rest.takeWhile Char.isDigit)), after)
      | _ => none
    | _ => none := by
  rw [readBounds?.eq_def]
  split
  next => exact absurd rfl h
  next => rfl

theorem readBounds?_append (t : Text) : readBounds? (t ++ u) =
    (readBounds? t).map fun (bounds, rest) ↦ (bounds, rest ++ u) := by
  by_cases hbrace : t.head? = some '\x7d'
  · obtain ⟨t, rfl⟩ := List.head?_eq_some_iff.mp hbrace
    rfl
  have hbrace' : (t ++ u).head? ≠ some '\x7d' := hu.head_append_ne (by decide) hbrace
  rw [readBounds?_of_ne hbrace', readBounds?_of_ne hbrace, (span_append hu (by decide) t).1,
    (span_append hu (by decide) t).2]
  rcases t.dropWhile Char.isDigit with _ | ⟨c, more⟩
  · rcases u with _ | ⟨c, u⟩
    · rfl
    · rcases hu c rfl with rfl | rfl <;> rfl
  by_cases hclosed : c = '\x7d'
  · rw [hclosed]
    rfl
  by_cases hcomma : c = ','
  · rw [hcomma]
    change (match (more ++ u).dropWhile Char.isDigit with
        | '\x7d' :: after => some ((countOf? (t.takeWhile Char.isDigit),
            countOf? ((more ++ u).takeWhile Char.isDigit)), after)
        | _ => none) =
      Option.map _ (match more.dropWhile Char.isDigit with
        | '\x7d' :: after => some ((countOf? (t.takeWhile Char.isDigit),
            countOf? (more.takeWhile Char.isDigit)), after)
        | _ => none)
    rw [(span_append hu (by decide) more).1, (span_append hu (by decide) more).2]
    rcases more.dropWhile Char.isDigit with _ | ⟨x, after⟩
    · rcases u with _ | ⟨x, u⟩
      · rfl
      · rcases hu x rfl with rfl | rfl <;> rfl
    by_cases hx : x = '\x7d'
    · rw [hx]
      rfl
    · simp [hx]
  · simp [hclosed, hcomma]

theorem counted_append (h : counted bounds t = .ok (token, rest)) :
    counted bounds (t ++ u) = .ok (token, rest ++ u) := by
  rw [counted] at h ⊢
  rw [readAppetite_append hu]
  refine ite_eq_ok h (fun _ ↦ of_error_eq_ok) fun _ h ↦ ?_
  split at h
  next most =>
    exact ite_eq_ok h (fun _ ↦ of_error_eq_ok) fun _ h ↦
      ite_eq_ok h (fun _ ↦ of_error_eq_ok) fun _ ↦ ok_append
  next => exact ok_append h

/-! ### Groups -/

omit hu in
theorem cut?_append (h : Text.cut? z t = some (name, rest)) :
    Text.cut? z (t ++ u) = some (name, rest ++ u) := by
  rw [Text.eq_append_of_cut? h, List.append_assoc, List.cons_append,
    Text.cut?_append_cons (Text.not_mem_of_cut? h)]

omit hu in
theorem readName_append (h : readName z t = .ok (name, rest)) :
    readName z (t ++ u) = .ok (name, rest ++ u) := by
  rw [readName] at h ⊢
  split at h
  next hcut =>
    rw [cut?_append hcut]
    dsimp only
    split at h
    next hname =>
      cases h
      exact if_pos hname
    next => cases h
  next => cases h

omit hu in
theorem readModes_colon (hdrop : (t.dropWhile fun c ↦ "aimsux".toList.contains c) = ':' :: rest)
    (modes : Modes) : readModes modes t =
      if (t.takeWhile fun c ↦ "aimsux".toList.contains c).isEmpty then .error .malformed
      else (switchOn modes (t.takeWhile fun c ↦ "aimsux".toList.contains c)).map
        fun modes ↦ (modes, rest) := by
  rw [readModes, hdrop]
  rfl

omit hu in
theorem readModes_minus {off : Text}
    (hdrop : (t.dropWhile fun c ↦ "aimsux".toList.contains c) = '-' :: off)
    (hoff : (off.dropWhile fun c ↦ "imsx".toList.contains c) = ':' :: rest) (modes : Modes) :
    readModes modes t =
      if (off.takeWhile fun c ↦ "imsx".toList.contains c).isEmpty ||
          (off.takeWhile fun c ↦ "imsx".toList.contains c).any
            ((t.takeWhile fun c ↦ "aimsux".toList.contains c).contains ·) then .error .malformed
      else (switchOn modes (t.takeWhile fun c ↦ "aimsux".toList.contains c)).map
        fun modes ↦ (switchOff modes (off.takeWhile fun c ↦ "imsx".toList.contains c), rest) := by
  rw [readModes, hdrop]
  simp only [hoff]

theorem readModes_append (h : readModes modes t = .ok (inner, rest)) :
    readModes modes (t ++ u) = .ok (inner, rest ++ u) := by
  obtain ⟨htake, hdrop⟩ := span_append hu (p := fun c ↦ "aimsux".toList.contains c) (by decide) t
  rw [readModes] at h
  split at h
  next after hafter =>
    rw [hafter, List.cons_append] at hdrop
    rw [readModes_colon hdrop, htake]
    refine ite_eq_ok h (fun _ ↦ of_error_eq_ok) fun _ h ↦ ?_
    obtain ⟨switched, hswitch, hp⟩ := map_eq_ok h
    cases hp
    rw [hswitch]
    rfl
  next off hoff =>
    rw [hoff, List.cons_append] at hdrop
    split at h
    next last hlast =>
      obtain ⟨htake', hdrop'⟩ :=
        span_append hu (p := fun c ↦ "imsx".toList.contains c) (by decide) off
      rw [hlast, List.cons_append] at hdrop'
      rw [readModes_minus hdrop hdrop', htake, htake']
      refine ite_eq_ok h (fun _ ↦ of_error_eq_ok) fun _ h ↦ ?_
      obtain ⟨switched, hswitch, hp⟩ := map_eq_ok h
      cases hp
      rw [hswitch]
      rfl
    next => cases h
  next => cases h

omit hu in
theorem dropThrough_append (h : dropThrough z t = .ok (some rest)) :
    dropThrough z (t ++ u) = .ok (some (rest ++ u)) := by
  induction t using dropThrough.induct z with
  | case1 => cases h
  | case2 => cases h
  | case3 c t ih => exact ih h
  | case4 t hlast hescaped =>
    have hz : z ≠ '\\' := by
      rintro rfl
      cases t with
      | nil => exact hlast rfl rfl
      | cons c t => exact hescaped c t rfl rfl
    rw [dropThrough_terminator hz] at h
    cases h
    exact dropThrough_terminator hz _
  | case5 c t hlast hescaped hc ih =>
    have hslash : c ≠ '\\' := by
      rintro rfl
      cases t with
      | nil => exact hlast rfl rfl
      | cons c t => exact hescaped c t rfl rfl
    rw [dropThrough_cons hslash hc] at h
    rw [List.cons_append, dropThrough_cons hslash hc]
    exact ih h

theorem Opened.append (h : Opened modes t parenthesis rest) :
    Opened modes (t ++ u) parenthesis (rest ++ u) := by
  cases h with
  | marked mark hmark =>
    rw [List.cons_append, List.append_assoc]
    exact .marked modes mark hmark _
  | named h =>
    rw [List.append_assoc]
    exact .named modes (readName_append h)
  | recalled h =>
    rw [List.append_assoc]
    exact .recalled modes (readName_append h)
  | remark h =>
    rw [List.append_assoc]
    exact .remark modes (dropThrough_append h)
  | choice hcut h =>
    rw [List.append_assoc]
    exact .choice modes (cut?_append hcut) h
  | moded hcolon h =>
    exact .moded (hu.head_append_ne (by decide) hcolon) (readModes_append hu h)
  | plain h => exact .plain modes (hu.head_append_ne (by decide) h)

theorem readParenthesis_append (h : readParenthesis modes t = .ok (parenthesis, rest)) :
    readParenthesis modes (t ++ u) = .ok (parenthesis, rest ++ u) :=
  ((opened_of_readParenthesis h).append hu).readParenthesis_eq

/-! ### Steps -/

theorem readFlat_append (h : readFlat modes c t = .ok (token, rest)) :
    readFlat modes c (t ++ u) = .ok (token, rest ++ u) := by
  rw [readFlat.eq_def] at h
  split at h
  next =>
    split at h
    next => cases h
    next => exact readEscape_append hu h
  next => exact readSet_append hu h
  iterate 4
    next => exact ok_append h
  iterate 3
    next =>
      cases h
      rw [readFlat, readAppetite_append hu]
  next =>
    rw [readFlat_brace, readBounds?_append hu]
    split at h
    next hbounds =>
      rw [hbounds]
      exact counted_append hu h
    next hbounds =>
      rw [hbounds]
      exact ok_append h
  next =>
    rw [readFlat]
    · exact ok_append h
    all_goals assumption

/-- The reader takes the same step where more follows and more is open. -/
theorem Steps.append (h : Steps modes outer t tokens modes' outer' rest) (base : List Modes) :
    Steps modes (outer ++ base) (t ++ u) tokens modes' (outer' ++ base) (rest ++ u) := by
  cases h with
  | spacing _ hspaced hc => exact .spacing _ hspaced hc _
  | comment _ hspaced h => exact .comment _ hspaced (dropThrough_append h)
  | flat _ hspaced hc h => exact .flat _ hspaced hc (readFlat_append hu h)
  | enter _ h => exact .enter _ (readParenthesis_append hu h)
  | complete _ h => exact .complete _ (readParenthesis_append hu h)
  | remark _ h => exact .remark _ (readParenthesis_append hu h)
  | leave => exact .leave _ _ _ _

end Readers

end UrlRouting.Regex.Token

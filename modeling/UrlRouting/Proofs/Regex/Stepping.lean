import UrlRouting.Regex.Token

/-!
The steps of the reader of the notation. A parenthesis is followed by one of a few openings
(`Opened`); a step reads a token or passes over a part of the text that is none (`Steps`); and what
is read successfully is read by such steps up to the end of the text, or up to a comment that hides
all the rest (`Yields`).
-/

namespace UrlRouting.Regex.Token

variable {modes modes' : Modes} {outer outer' : List Modes} {c : Char} {t rest : Text}
  {token : Token} {tokens front : List Token} {parenthesis : Parenthesis} {fuel : Nat}

theorem map_eq_ok {α β ε : Type} {x : Except ε α} {f : α → β} {b : β} (h : x.map f = .ok b) :
    ∃ a, x = .ok a ∧ f a = b := by
  cases x with
  | error e => cases h
  | ok a =>
    cases h
    exact ⟨a, rfl, rfl⟩

theorem bind_eq_ok {α β ε : Type} {x : Except ε α} {f : α → Except ε β} {b : β}
    (h : x.bind f = .ok b) : ∃ a, x = .ok a ∧ f a = .ok b := by
  cases x with
  | error e => cases h
  | ok a => exact ⟨a, rfl, h⟩

/-! ### Tokens that are no parentheses -/

/-- The token neither opens nor closes a parenthesis. -/
def isFlat : Token → Bool
  | .enter _ | .leave => false
  | _ => true

/-- Reads a token whose first character is no parenthesis. -/
def readFlat (modes : Modes) (c : Char) (t : Text) : Except Defect (Token × Text) :=
  match c with
  | '\\' =>
    match t with
    | [] => .error .malformed
    | d :: rest => readEscape modes d rest
  | '[' => readSet modes t
  | '.' => .ok (.char ⟨if modes.dotAll then [] else [.single '\n'.toNat], true, .exact⟩, t)
  | '^' => .ok (.anchor (if modes.lines then .lineStart else .textStart), t)
  | '$' => .ok (.anchor (if modes.lines then .lineEnd else .closingEnd), t)
  | '|' => .ok (.bar, t)
  | '*' => .ok (.count 0 none (readAppetite t).1, (readAppetite t).2)
  | '+' => .ok (.count 1 none (readAppetite t).1, (readAppetite t).2)
  | '?' => .ok (.count 0 (some 1) (readAppetite t).1, (readAppetite t).2)
  | '\x7b' =>
    match readBounds? t with
    | some (bounds, after) => counted bounds after
    | none => .ok (literal modes '\x7b'.toNat, t)
  | c => .ok (literal modes c.toNat, t)

theorem isFlat_readEscape (h : readEscape modes c t = .ok (token, rest)) :
    token.isFlat = true := by
  rw [readEscape.eq_def] at h
  dsimp only at h
  repeat' split at h
  all_goals first
    | cases h
      rfl
    | cases h
    | obtain ⟨_, -, hp⟩ := map_eq_ok h
      cases hp
      rfl

theorem isFlat_readSet (h : readSet modes t = .ok (token, rest)) : token.isFlat = true := by
  rw [readSet.eq_def] at h
  obtain ⟨_, -, hp⟩ := map_eq_ok h
  cases hp
  rfl

theorem isFlat_counted {bounds : Option Nat × Option Nat}
    (h : counted bounds t = .ok (token, rest)) : token.isFlat = true := by
  rw [counted] at h
  repeat' split at h
  all_goals first
    | cases h
      rfl
    | cases h

theorem readFlat_brace (modes : Modes) (t : Text) :
    readFlat modes '\x7b' t = match readBounds? t with
      | some (bounds, after) => counted bounds after
      | none => .ok (literal modes '\x7b'.toNat, t) := rfl

theorem isFlat_readFlat (h : readFlat modes c t = .ok (token, rest)) : token.isFlat = true := by
  rw [readFlat.eq_def] at h
  repeat' split at h
  all_goals first
    | exact isFlat_readEscape h
    | exact isFlat_readSet h
    | exact isFlat_counted h
    | cases h
      rfl
    | cases h

/-! ### Parentheses -/

/-- What stands behind a parenthesis and a question mark where nothing else is to be read. -/
def markings : List (Text × Opening) :=
  [(":", .plain), ("=", .ahead false), ("!", .ahead true), ("<=", .behind false),
    ("<!", .behind true), (">", .atomic)]

/-- What a parenthesis opens, and the text behind the opening. -/
inductive Opened : Modes → Text → Parenthesis → Text → Prop
  | marked (modes : Modes) (mark : Text) {opening : Opening} (hmark : (mark, opening) ∈ markings)
      (rest : Text) : Opened modes ('?' :: (mark ++ rest)) (.group opening modes) rest
  | named (modes : Modes) {t name rest : Text} (h : readName '>' t = .ok (name, rest)) :
      Opened modes ("?P<".toList ++ t) (.group (.capture (some name)) modes) rest
  | recalled (modes : Modes) {t name rest : Text} (h : readName ')' t = .ok (name, rest)) :
      Opened modes ("?P=".toList ++ t) (.complete (.recall (.name name) modes.folding)) rest
  | remark (modes : Modes) {t rest : Text} (h : dropThrough ')' t = .ok (some rest)) :
      Opened modes ("?#".toList ++ t) .comment rest
  | choice (modes : Modes) {t name rest : Text} {ref : GroupRef}
      (hcut : Text.cut? ')' t = some (name, rest)) (h : condition name = .ok ref) :
      Opened modes ("?(".toList ++ t) (.group (.choice ref) modes) rest
  | moded {modes inner : Modes} {t rest : Text} (hcolon : t.head? ≠ some ':')
      (h : readModes modes t = .ok (inner, rest)) :
      Opened modes ('?' :: t) (.group .plain inner) rest
  | plain (modes : Modes) {t : Text} (h : t.head? ≠ some '?') :
      Opened modes t (.group (.capture none) modes) t

/-- Modes begin with one of their letters, a minus sign or the colon. -/
theorem exists_of_readModes (h : readModes modes t = .ok (modes', rest)) :
    ∃ c more, t = c :: more ∧ (c ∈ "aimsux-".toList ∨ c = ':') := by
  cases t with
  | nil => cases h
  | cons c t =>
    refine ⟨c, t, rfl, ?_⟩
    by_cases hc : "aimsux".toList.contains c = true
    · rw [List.contains_iff_mem] at hc
      exact .inl ((by decide : ∀ x ∈ "aimsux".toList, x ∈ "aimsux-".toList) c hc)
    · rw [readModes, List.dropWhile_cons_of_neg hc] at h
      split at h
      next he => exact .inr (List.cons.inj he).1
      next he =>
        rw [(List.cons.inj he).1]
        exact .inl (by decide)
      next => cases h

theorem readParenthesis_named (modes : Modes) (t : Text) :
    readParenthesis modes ("?P<".toList ++ t) =
      (readName '>' t).map fun (name, rest) ↦ (.group (.capture (some name)) modes, rest) := rfl

theorem readParenthesis_recalled (modes : Modes) (t : Text) :
    readParenthesis modes ("?P=".toList ++ t) =
      (readName ')' t).map fun (name, rest) ↦
        (.complete (.recall (.name name) modes.folding), rest) := rfl

theorem readParenthesis_remark (modes : Modes) (t : Text) :
    readParenthesis modes ("?#".toList ++ t) = match dropThrough ')' t with
      | .ok (some rest) => .ok (.comment, rest)
      | _ => .error .malformed := rfl

theorem readParenthesis_choice (modes : Modes) (t : Text) :
    readParenthesis modes ("?(".toList ++ t) = match Text.cut? ')' t with
      | some (name, rest) =>
        (condition name).map fun condition ↦ (.group (.choice condition) modes, rest)
      | none => .error .malformed := rfl

theorem readParenthesis_modes (hc : c ∈ "aimsux-".toList) (modes : Modes) (t : Text) :
    readParenthesis modes ('?' :: c :: t) =
      (readModes modes (c :: t)).map fun (modes, rest) ↦ (.group .plain modes, rest) := by
  have hne {x : Char} {rest : Text} (hx : x ∉ "aimsux-".toList) :
      '?' :: c :: t ≠ '?' :: x :: rest :=
    fun he ↦ hx ((List.cons.inj (List.cons.inj he).2).1 ▸ hc)
  rw [readParenthesis.eq_def]
  split
  all_goals first
    | next he => exact absurd he (hne (by decide))
    | next he => cases he; rfl
    | next hno => exact absurd rfl (hno _)

theorem readParenthesis_of_ne (h : t.head? ≠ some '?') (modes : Modes) :
    readParenthesis modes t = .ok (.group (.capture none) modes, t) := by
  rw [readParenthesis.eq_def]
  split
  all_goals first
    | rfl
    | exact absurd rfl h

theorem opened_of_readParenthesis (h : readParenthesis modes t = .ok (parenthesis, rest)) :
    Opened modes t parenthesis rest := by
  rw [readParenthesis.eq_def] at h
  split at h
  next =>
    obtain ⟨⟨name, after⟩, hread, hp⟩ := map_eq_ok h
    cases hp
    exact .named modes hread
  next =>
    obtain ⟨⟨name, after⟩, hread, hp⟩ := map_eq_ok h
    cases hp
    exact .recalled modes hread
  next =>
    cases h
    exact .marked modes ":" (by decide) _
  next =>
    split at h
    next after hread =>
      cases h
      exact .remark modes hread
    next => cases h
  next =>
    cases h
    exact .marked modes "=" (by decide) _
  next =>
    cases h
    exact .marked modes "!" (by decide) _
  next =>
    cases h
    exact .marked modes "<=" (by decide) _
  next =>
    cases h
    exact .marked modes "<!" (by decide) _
  next =>
    split at h
    next name after hcut =>
      obtain ⟨ref, hcondition, hp⟩ := map_eq_ok h
      cases hp
      exact .choice modes hcut hcondition
    next => cases h
  next =>
    cases h
    exact .marked modes ">" (by decide) _
  next after _ _ hcolon _ _ _ _ _ _ _ =>
    obtain ⟨⟨inner, last⟩, hread, hp⟩ := map_eq_ok h
    cases hp
    refine .moded (fun he ↦ ?_) hread
    obtain ⟨more, rfl⟩ := List.head?_eq_some_iff.mp he
    exact hcolon more rfl
  next hne =>
    cases h
    refine .plain modes fun he ↦ ?_
    obtain ⟨more, rfl⟩ := List.head?_eq_some_iff.mp he
    exact hne more rfl

theorem Opened.readParenthesis_eq (h : Opened modes t parenthesis rest) :
    readParenthesis modes t = .ok (parenthesis, rest) := by
  cases h with
  | marked mark hmark =>
    simp only [markings, List.mem_cons, List.not_mem_nil, or_false, Prod.mk.injEq] at hmark
    rcases hmark with ⟨rfl, rfl⟩ | ⟨rfl, rfl⟩ | ⟨rfl, rfl⟩ | ⟨rfl, rfl⟩ | ⟨rfl, rfl⟩ | ⟨rfl, rfl⟩
    all_goals rfl
  | named h =>
    rw [readParenthesis_named, h]
    rfl
  | recalled h =>
    rw [readParenthesis_recalled, h]
    rfl
  | remark h => rw [readParenthesis_remark, h]
  | choice hcut h =>
    rw [readParenthesis_choice, hcut]
    dsimp only
    rw [h]
    rfl
  | moded hcolon h =>
    obtain ⟨c, more, rfl, hc | rfl⟩ := exists_of_readModes h
    · rw [readParenthesis_modes hc, h]
      rfl
    · exact absurd rfl hcolon
  | plain h => exact readParenthesis_of_ne h modes

theorem isFlat_complete (h : readParenthesis modes t = .ok (.complete token, rest)) :
    token.isFlat = true := by
  cases opened_of_readParenthesis h
  rfl

/-! ### Steps -/

/-- One step of the reader: the modes and the open parentheses before it, the text, what is read,
and the modes, the open parentheses and the text after it. -/
inductive Steps : Modes → List Modes → Text → List Token → Modes → List Modes → Text → Prop
  | spacing {modes : Modes} (outer : List Modes) {c : Char} (hspaced : modes.spaced = true)
      (hc : isSpacing c = true) (t : Text) : Steps modes outer (c :: t) [] modes outer t
  | comment {modes : Modes} (outer : List Modes) {t rest : Text} (hspaced : modes.spaced = true)
      (h : dropThrough '\n' t = .ok (some rest)) : Steps modes outer ('#' :: t) [] modes outer rest
  | flat {modes : Modes} (outer : List Modes) {c : Char} {t rest : Text} {token : Token}
      (hspaced : modes.spaced = true → isSpacing c = false ∧ c ≠ '#') (hc : c ≠ '(' ∧ c ≠ ')')
      (h : readFlat modes c t = .ok (token, rest)) :
      Steps modes outer (c :: t) [token] modes outer rest
  | enter {modes inner : Modes} (outer : List Modes) {t rest : Text} {opening : Opening}
      (h : readParenthesis modes t = .ok (.group opening inner, rest)) :
      Steps modes outer ('(' :: t) [.enter opening] inner (modes :: outer) rest
  | complete {modes : Modes} (outer : List Modes) {t rest : Text} {token : Token}
      (h : readParenthesis modes t = .ok (.complete token, rest)) :
      Steps modes outer ('(' :: t) [token] modes outer rest
  | remark {modes : Modes} (outer : List Modes) {t rest : Text}
      (h : readParenthesis modes t = .ok (.comment, rest)) :
      Steps modes outer ('(' :: t) [] modes outer rest
  | leave (inner modes : Modes) (outer : List Modes) (t : Text) :
      Steps inner (modes :: outer) (')' :: t) [.leave] modes outer t

theorem scanFrom_nil (fuel : Nat) (modes : Modes) (outer : List Modes) :
    scanFrom fuel modes outer [] = .ok [] := by
  cases fuel <;> rfl

theorem scanFrom_spacing (hspaced : modes.spaced = true) (hc : isSpacing c = true) (fuel : Nat)
    (outer : List Modes) (t : Text) :
    scanFrom (fuel + 1) modes outer (c :: t) = scanFrom fuel modes outer t := by
  rw [scanFrom.eq_def]
  dsimp only
  rw [hspaced, hc]
  rfl

theorem scanFrom_comment (hspaced : modes.spaced = true) (fuel : Nat) (outer : List Modes)
    (t : Text) : scanFrom (fuel + 1) modes outer ('#' :: t) =
      (dropThrough '\n' t).bind fun after ↦ scanFrom fuel modes outer (after.getD []) := by
  rw [scanFrom.eq_def]
  dsimp only
  rw [hspaced]
  cases dropThrough '\n' t <;> rfl

theorem scanFrom_flat (hspaced : modes.spaced = true → isSpacing c = false ∧ c ≠ '#')
    (hc : c ≠ '(' ∧ c ≠ ')') (fuel : Nat) (outer : List Modes) (t : Text) :
    scanFrom (fuel + 1) modes outer (c :: t) =
      match readFlat modes c t with
      | .ok (token, rest) => followedBy token (scanFrom fuel modes outer rest)
      | .error defect => .error defect := by
  have hspacing : ¬(modes.spaced && isSpacing c) = true := by
    intro h
    rw [Bool.and_eq_true] at h
    rw [(hspaced h.1).1] at h
    cases h.2
  have hcomment : ¬(modes.spaced && c == '#') = true := by
    intro h
    rw [Bool.and_eq_true, beq_iff_eq] at h
    exact (hspaced h.1).2 h.2
  rw [scanFrom.eq_def]
  dsimp only
  rw [if_neg hspacing, if_neg hcomment]
  split
  next => cases t <;> rfl
  iterate 8
    next => rfl
  next =>
    rw [readFlat_brace]
    cases readBounds? t <;> rfl
  next => exact absurd rfl hc.1
  next => exact absurd rfl hc.2
  next =>
    rw [readFlat]
    all_goals assumption

theorem scanFrom_parenthesis (fuel : Nat) (modes : Modes) (outer : List Modes) (t : Text) :
    scanFrom (fuel + 1) modes outer ('(' :: t) =
      match readParenthesis modes t with
      | .ok (.group opening inner, rest) =>
        followedBy (.enter opening) (scanFrom fuel inner (modes :: outer) rest)
      | .ok (.complete token, rest) => followedBy token (scanFrom fuel modes outer rest)
      | .ok (.comment, rest) => scanFrom fuel modes outer rest
      | .error defect => .error defect := by
  obtain ⟨ignoreCase, asciiOnly, lines, dotAll, spaced⟩ := modes
  cases spaced <;> rfl

theorem scanFrom_leave (fuel : Nat) (inner modes : Modes) (outer : List Modes) (t : Text) :
    scanFrom (fuel + 1) inner (modes :: outer) (')' :: t) =
      followedBy .leave (scanFrom fuel modes outer t) := by
  obtain ⟨ignoreCase, asciiOnly, lines, dotAll, spaced⟩ := inner
  cases spaced <;> rfl

theorem scanFrom_stray (fuel : Nat) (modes : Modes) (t : Text) :
    scanFrom (fuel + 1) modes [] (')' :: t) = .error .malformed := by
  obtain ⟨ignoreCase, asciiOnly, lines, dotAll, spaced⟩ := modes
  cases spaced <;> rfl

theorem Steps.scanFrom_succ (h : Steps modes outer t front modes' outer' rest) (fuel : Nat) :
    scanFrom (fuel + 1) modes outer t = (scanFrom fuel modes' outer' rest).map (front ++ ·) := by
  have hsilent (result : Except Defect (List Token)) : result = result.map ([] ++ ·) :=
    congrFun Except.map_id.symm result
  cases h with
  | spacing _ hspaced hc => rw [scanFrom_spacing hspaced hc, ← hsilent]
  | comment _ hspaced h =>
    rw [scanFrom_comment hspaced, h, ← hsilent]
    rfl
  | flat _ hspaced hc h =>
    rw [scanFrom_flat hspaced hc, h]
    rfl
  | enter _ h =>
    rw [scanFrom_parenthesis, h]
    rfl
  | complete _ h =>
    rw [scanFrom_parenthesis, h]
    rfl
  | remark _ h => rw [scanFrom_parenthesis, h, ← hsilent]
  | leave =>
    rw [scanFrom_leave]
    rfl

/-! ### To the end -/

/-- What is read by steps to the end of a text, or to a comment that hides all the rest. -/
inductive Yields : Modes → List Modes → Text → List Token → Prop
  | nil (modes : Modes) (outer : List Modes) : Yields modes outer [] []
  | hidden {modes : Modes} (outer : List Modes) {t : Text} (hspaced : modes.spaced = true)
      (h : dropThrough '\n' t = .ok none) : Yields modes outer ('#' :: t) []
  | step {modes modes' : Modes} {outer outer' : List Modes} {c : Char} {t rest : Text}
      {front more : List Token} (h : Steps modes outer (c :: t) front modes' outer' rest)
      (hmore : Yields modes' outer' rest more) : Yields modes outer (c :: t) (front ++ more)

/-- A step of the reader, unless it is a comment that hides all the rest. -/
theorem exists_steps (h : scanFrom (fuel + 1) modes outer (c :: t) = .ok tokens) :
    (∃ front modes' outer' rest more, tokens = front ++ more ∧
      Steps modes outer (c :: t) front modes' outer' rest ∧
      scanFrom fuel modes' outer' rest = .ok more) ∨
    modes.spaced = true ∧ c = '#' ∧ dropThrough '\n' t = .ok none ∧ tokens = [] := by
  have onto {front : List Token} {modes' : Modes} {outer' : List Modes} {rest : Text}
      (hstep : Steps modes outer (c :: t) front modes' outer' rest) :
      ∃ front modes' outer' rest more, tokens = front ++ more ∧
        Steps modes outer (c :: t) front modes' outer' rest ∧
        scanFrom fuel modes' outer' rest = .ok more := by
    rw [hstep.scanFrom_succ] at h
    obtain ⟨more, hmore, rfl⟩ := map_eq_ok h
    exact ⟨front, modes', outer', rest, more, rfl, hstep, hmore⟩
  by_cases hspacing : modes.spaced = true ∧ isSpacing c = true
  · exact .inl (onto (.spacing outer hspacing.1 hspacing.2 t))
  by_cases hcomment : modes.spaced = true ∧ c = '#'
  · obtain ⟨hspaced, rfl⟩ := hcomment
    rw [scanFrom_comment hspaced] at h
    obtain ⟨after, hdrop, h⟩ := bind_eq_ok h
    cases after with
    | some after => exact .inl (onto (.comment outer hspaced hdrop))
    | none =>
      rw [Option.getD_none, scanFrom_nil] at h
      exact .inr ⟨hspaced, rfl, hdrop, (Except.ok.inj h).symm⟩
  refine .inl ?_
  by_cases hopen : c = '('
  · subst hopen
    cases hread : readParenthesis modes t with
    | error defect =>
      rw [scanFrom_parenthesis, hread] at h
      cases h
    | ok result =>
      obtain ⟨⟨opening, inner⟩ | token | _, rest⟩ := result
      · exact onto (.enter outer hread)
      · exact onto (.complete outer hread)
      · exact onto (.remark outer hread)
  by_cases hclosed : c = ')'
  · subst hclosed
    cases outer with
    | nil =>
      rw [scanFrom_stray] at h
      cases h
    | cons modes' outer => exact onto (.leave modes modes' outer t)
  have hplain (hspaced : modes.spaced = true) : isSpacing c = false ∧ c ≠ '#' :=
    ⟨Bool.eq_false_iff.mpr fun hc ↦ hspacing ⟨hspaced, hc⟩, fun hc ↦ hcomment ⟨hspaced, hc⟩⟩
  rw [scanFrom_flat hplain ⟨hopen, hclosed⟩] at h
  cases hread : readFlat modes c t with
  | error defect =>
    rw [hread] at h
    cases h
  | ok result => exact onto (.flat outer hplain ⟨hopen, hclosed⟩ hread)

theorem yields_of_scanFrom (h : scanFrom fuel modes outer t = .ok tokens) :
    Yields modes outer t tokens := by
  induction fuel generalizing modes outer t tokens with
  | zero =>
    cases t with
    | nil =>
      cases h
      exact .nil modes outer
    | cons c t => cases h
  | succ fuel ih =>
    cases t with
    | nil =>
      cases h
      exact .nil modes outer
    | cons c t =>
      rcases exists_steps h with ⟨_, _, _, _, _, rfl, hstep, hmore⟩ | ⟨hspaced, rfl, hdrop, rfl⟩
      · exact .step hstep (ih hmore)
      · exact .hidden outer hspaced hdrop

end UrlRouting.Regex.Token

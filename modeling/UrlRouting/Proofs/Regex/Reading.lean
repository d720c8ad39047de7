import UrlRouting.Proofs.Regex.Stepping
import UrlRouting.Proofs.Text.Split

/-!
Reading an expression piece by piece. A text is read as some tokens if the reader passes over it
with these tokens whatever follows it (`Reads`), so that expressions that are put together from
texts are read by putting together the tokens.
-/

namespace UrlRouting.Regex

/-- The modes that an expression begins with. -/
def Modes.initial (ignoreCase : Bool) : Modes := ⟨ignoreCase, false, false, false, false⟩

namespace Token

variable {modes : Modes} {outer outer' outer'' : List Modes} {front front' t : Text}
  {tokens tokens' : List Token} {follow follow' : Text → Prop} {c : Char} {ignoreCase : Bool}

/-- The text is read as the tokens, from some open parentheses to others, where an acceptable text
follows. The modes are the same before and after. -/
def Reads (modes : Modes) (outer : List Modes) (front : Text) (tokens : List Token)
    (outer' : List Modes) (follow : Text → Prop) : Prop :=
  ∀ fuel t, follow t → front.length + t.length ≤ fuel → ∃ fuel', t.length ≤ fuel' ∧
    scanFrom fuel modes outer (front ++ t) = (scanFrom fuel' modes outer' t).map (tokens ++ ·)

/-- The text is no part of an expression. -/
def Rejects (modes : Modes) (outer : List Modes) (front : Text) : Prop :=
  ∀ fuel t, front.length + t.length ≤ fuel →
    scanFrom fuel modes outer (front ++ t) = .error .malformed

/-- The characters that do not stand for themselves in an expression. -/
def marks : Text := "\\[.^$|*+?\x7b()"

def isVerbatim (c : Char) : Bool := !marks.contains c

theorem isVerbatim_of_forall {p : Char → Prop} (hmarks : ∀ c ∈ marks, ¬p c) (hc : p c) :
    isVerbatim c = true := by
  rw [isVerbatim, Bool.not_eq_true', Bool.eq_false_iff, Ne, List.contains_iff_mem]
  exact fun hmem ↦ hmarks c hmem hc

theorem ne_of_isVerbatim {x : Char} (h : isVerbatim c = true) (hx : isVerbatim x = false) :
    c ≠ x := by
  rintro rfl
  rw [hx] at h
  cases h

theorem isAlphanum_eq_false (hc : Text.isAlphanumeric c = false) : c.isAlphanum = false := by
  rw [Text.isAlphanumeric, Text.hasProperty] at hc
  split at hc
  next => exact hc
  next hlarge =>
    simp only [UInt32.lt_iff_toNat_lt, UInt32.reduceToNat, Nat.not_lt] at hlarge
    have hval : c.val.toNat = c.toNat := rfl
    delta Char.isAlphanum Char.isAlpha Char.isUpper Char.isLower Char.isDigit
    simp [UInt32.le_iff_toNat_le]
    omega

theorem isDigit_eq_false (hc : Text.isAlphanumeric c = false) : c.isDigit = false := by
  have h := isAlphanum_eq_false hc
  rw [Char.isAlphanum, Bool.or_eq_false_iff] at h
  exact h.2

theorem isAsciiLetter_eq_false (hc : Text.isAlphanumeric c = false) :
    Text.isAsciiLetter c = false := by
  have h := isAlphanum_eq_false hc
  rw [Char.isAlphanum, Bool.or_eq_false_iff] at h
  exact h.1

namespace Reads

theorem nil (modes : Modes) (outer : List Modes) (follow : Text → Prop) :
    Reads modes outer [] [] outer follow := by
  intro fuel t _ hfuel
  refine ⟨fuel, by simpa using hfuel, ?_⟩
  rw [List.nil_append]
  cases scanFrom fuel modes outer t <;> rfl

theorem mono (h : Reads modes outer front tokens outer' follow) (hf : ∀ t, follow' t → follow t) :
    Reads modes outer front tokens outer' follow' := fun fuel t ht ↦ h fuel t (hf t ht)

theorem append (h : Reads modes outer front tokens outer' follow)
    (h' : Reads modes outer' front' tokens' outer'' follow')
    (hf : ∀ t, follow' t → follow (front' ++ t)) :
    Reads modes outer (front ++ front') (tokens ++ tokens') outer'' follow' := by
  intro fuel t ht hfuel
  rw [List.length_append] at hfuel
  obtain ⟨fuel₁, hfuel₁, hscan⟩ := h fuel (front' ++ t) (hf t ht) (by
    rw [List.length_append]
    omega)
  rw [List.length_append] at hfuel₁
  obtain ⟨fuel₂, hfuel₂, hscan'⟩ := h' fuel₁ t ht hfuel₁
  refine ⟨fuel₂, hfuel₂, ?_⟩
  rw [List.append_assoc, hscan, hscan']
  cases scanFrom fuel₂ modes outer'' t with
  | error defect => rfl
  | ok more =>
    change Except.ok (tokens ++ (tokens' ++ more)) = Except.ok (tokens ++ tokens' ++ more)
    rw [List.append_assoc]

/-- One step of the reader. -/
theorem step (hne : front ≠ [])
    (h : ∀ t, follow t → Steps modes outer (front ++ t) tokens modes outer' t) :
    Reads modes outer front tokens outer' follow := by
  intro fuel t ht hfuel
  have hpos := List.length_pos_iff.mpr hne
  obtain ⟨less, rfl⟩ : ∃ less, fuel = less + 1 := ⟨fuel - 1, by omega⟩
  exact ⟨less, by omega, (h t ht).scanFrom_succ less⟩

theorem readFlat_of_isVerbatim (hc : isVerbatim c = true) (modes : Modes) (t : Text) :
    readFlat modes c t = .ok (.literal modes c.toNat, t) := by
  rw [readFlat.eq_def]
  split
  all_goals first
    | rfl
    | exact absurd hc (by decide)

/-- Where the spaced mode is on, spaces and the beginning of a comment do not stand for
themselves. -/
theorem literal (modes : Modes) (outer : List Modes) (hc : isVerbatim c = true)
    (hspaced : modes.spaced = true → isSpacing c = false ∧ c ≠ '#') (follow : Text → Prop) :
    Reads modes outer [c] [.literal modes c.toNat] outer follow :=
  step (List.cons_ne_nil _ _) fun t _ ↦ .flat outer hspaced
    ⟨ne_of_isVerbatim hc (by decide), ne_of_isVerbatim hc (by decide)⟩
    (readFlat_of_isVerbatim hc modes t)

/-- A backslash makes a character that is no letter and no digit stand for itself. -/
theorem escaped (modes : Modes) (outer : List Modes) (hc : Text.isAlphanumeric c = false)
    (follow : Text → Prop) :
    Reads modes outer ['\\', c] [.literal modes c.toNat] outer follow := by
  have hne {x : Char} (hx : Text.isAlphanumeric x = true) : c ≠ x := by
    rintro rfl
    rw [hc] at hx
    cases hx
  have hcategory : category? modes.asciiOnly c = none := by
    rw [category?.eq_def]
    split <;> first | rfl | exact absurd hc (by decide)
  have hcontrol : control? c = none := by
    rw [control?.eq_def]
    split <;> first | rfl | exact absurd hc (by decide)
  have hread (t : Text) : readEscape modes c t = .ok (.literal modes c.toNat, t) := by
    rw [readEscape.eq_def]
    dsimp only
    rw [hcategory]
    dsimp only
    rw [if_neg (hne (by decide)), if_neg (hne (by decide)), if_neg (hne (by decide)),
      if_neg (hne (by decide)), if_neg (hne (by decide)), isDigit_eq_false hc,
      if_neg (by decide), readCode, hcontrol]
    dsimp only
    rw [if_neg (hne (by decide)), if_neg (hne (by decide)), if_neg (hne (by decide)),
      isAsciiLetter_eq_false hc, if_neg (by decide)]
    rfl
  exact step (List.cons_ne_nil _ _) fun t _ ↦ .flat outer (fun _ ↦ by decide) (by decide) (hread t)

theorem group (ignoreCase : Bool) (outer : List Modes) :
    Reads (.initial ignoreCase) outer ['('] [.enter (.capture none)]
      (.initial ignoreCase :: outer) fun t ↦ t.head? ≠ some '?' :=
  step (List.cons_ne_nil _ _) fun _ ht ↦ .enter outer (readParenthesis_of_ne ht _)

theorem namedGroup (ignoreCase : Bool) (outer : List Modes) {name : Text}
    (hcut : '>' ∉ name) (hname : Text.isIdentifier name = true) (follow : Text → Prop) :
    Reads (.initial ignoreCase) outer ("(?P<".toList ++ name ++ ['>'])
      [.enter (.capture (some name))] (.initial ignoreCase :: outer) follow := by
  refine step (by simp) fun t _ ↦ ?_
  have hread : readParenthesis (.initial ignoreCase) ('?' :: 'P' :: '<' :: (name ++ '>' :: t)) =
      .ok (.group (.capture (some name)) (.initial ignoreCase), t) := by
    rw [readParenthesis, readName, Text.cut?_append_cons hcut]
    dsimp only
    rw [if_pos hname]
    rfl
  have htext : "(?P<".toList ++ name ++ ['>'] ++ t =
      '(' :: '?' :: 'P' :: '<' :: (name ++ '>' :: t) := by simp
  rw [htext]
  exact .enter outer hread

theorem leave (ignoreCase : Bool) (outer : List Modes) (follow : Text → Prop) :
    Reads (.initial ignoreCase) (.initial ignoreCase :: outer) [')'] [.leave] outer follow :=
  step (List.cons_ne_nil _ _) fun t _ ↦ .leave _ _ outer t

/-- A repetition is greedy unless a mark follows it. -/
def unmarked (t : Text) : Prop := t.head? ≠ some '?' ∧ t.head? ≠ some '+'

theorem readAppetite_of_unmarked (h : unmarked t) : readAppetite t = (.greedy, t) := by
  rw [readAppetite.eq_def]
  split
  · exact absurd rfl h.1
  · exact absurd rfl h.2
  · rfl

theorem repeated (ignoreCase : Bool) (outer : List Modes) :
    Reads (.initial ignoreCase) outer ['+'] [.count 1 none .greedy] outer unmarked := by
  refine step (List.cons_ne_nil _ _) fun t ht ↦ ?_
  rw [List.singleton_append]
  exact .flat outer (fun _ ↦ by decide) (by decide) (by rw [readFlat, readAppetite_of_unmarked ht])

theorem optional (modes : Modes) (outer : List Modes) :
    Reads modes outer ['?'] [.count 0 (some 1) .greedy] outer unmarked := by
  refine step (List.cons_ne_nil _ _) fun t ht ↦ ?_
  rw [List.singleton_append]
  exact .flat outer (fun _ ↦ by decide) (by decide) (by rw [readFlat, readAppetite_of_unmarked ht])

theorem textStart (ignoreCase : Bool) (outer : List Modes) (follow : Text → Prop) :
    Reads (.initial ignoreCase) outer ['^'] [.anchor .textStart] outer follow :=
  step (List.cons_ne_nil _ _) fun _ _ ↦ .flat outer (fun _ ↦ by decide) (by decide) rfl

theorem anchorEnd (modes : Modes) (outer : List Modes) (follow : Text → Prop) :
    Reads modes outer ['$'] [.anchor (if modes.lines then .lineEnd else .closingEnd)] outer
      follow :=
  step (List.cons_ne_nil _ _) fun _ _ ↦ .flat outer (fun _ ↦ by decide) (by decide) rfl

theorem rejects (h : Reads modes outer front tokens outer' follow)
    (h' : Rejects modes outer' front') (hf : ∀ t, follow (front' ++ t)) :
    Rejects modes outer (front ++ front') := by
  intro fuel t hfuel
  rw [List.length_append] at hfuel
  obtain ⟨fuel', hfuel', hscan⟩ := h fuel (front' ++ t) (hf t) (by
    rw [List.length_append]
    omega)
  rw [List.length_append] at hfuel'
  rw [List.append_assoc, hscan, h' fuel' t hfuel']
  rfl

theorem scanFrom_eq {fuel : Nat} (h : Reads modes outer t tokens outer' follow) (hf : follow [])
    (hfuel : t.length ≤ fuel) : scanFrom fuel modes outer t = .ok tokens := by
  obtain ⟨fuel', -, hscan⟩ := h fuel [] hf hfuel
  rw [List.append_nil, scanFrom_nil] at hscan
  exact hscan.trans (congrArg Except.ok (List.append_nil _))

theorem scan (h : Reads (.initial ignoreCase) [] t tokens [] follow) (hf : follow []) :
    scan ignoreCase t = .ok tokens := h.scanFrom_eq hf Nat.le.refl

end Reads

namespace Rejects

theorem append (h : Rejects modes outer front) (front' : Text) :
    Rejects modes outer (front ++ front') := by
  intro fuel t hfuel
  rw [List.append_assoc]
  refine h fuel (front' ++ t) ?_
  rw [List.length_append] at hfuel ⊢
  omega

theorem namedGroup (ignoreCase : Bool) (outer : List Modes) {name : Text}
    (hcut : '>' ∉ name) (hname : Text.isIdentifier name = false) :
    Rejects (.initial ignoreCase) outer ("(?P<".toList ++ name ++ ['>']) := by
  intro fuel t hfuel
  obtain ⟨less, rfl⟩ : ∃ less, fuel = less + 1 := by
    refine ⟨fuel - 1, ?_⟩
    simp only [List.length_append, List.length_singleton] at hfuel
    omega
  have hread : readParenthesis (.initial ignoreCase) ('?' :: 'P' :: '<' :: (name ++ '>' :: t)) =
      .error .malformed := by
    rw [readParenthesis, readName, Text.cut?_append_cons hcut]
    dsimp only
    rw [if_neg (by simp [hname])]
    rfl
  have htext : "(?P<".toList ++ name ++ ['>'] ++ t =
      '(' :: '?' :: 'P' :: '<' :: (name ++ '>' :: t) := by simp
  rw [htext, scanFrom_parenthesis, hread]

theorem scan (h : Rejects (.initial ignoreCase) [] t) :
    Token.scan ignoreCase t = .error .malformed := by
  have hscan := h t.length [] Nat.le.refl
  rw [List.append_nil] at hscan
  exact hscan

end Rejects

end Token

end UrlRouting.Regex

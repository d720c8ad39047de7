import UrlRouting.Proofs.Dispatch.Outline

/-!
Filling placeholders with harmless texts: texts that are not empty and hold none of the characters
that targets are taken apart at. A path stays one with such a filling, and its separators stand as
before (`IsPath.fill`); an at sign stays whatever is filled in (`at_mem_fill`), and a double colon
where no name of a variable can be read after it (`colons_fill`).
-/

namespace UrlRouting

namespace Text

variable {old new t u heads : Text} {c : Char}

/-! ### Double colons -/

theorem colons_cons :
    [':', ':'] <:+: c :: t ↔ c = ':' ∧ t.head? = some ':' ∨ [':', ':'] <:+: t := by
  rw [List.infix_cons_iff, List.cons_prefix_cons]
  cases t with
  | nil => simp
  | cons d rest => simp [List.cons_prefix_cons, eq_comm]

theorem colons_append (h : ':' ∉ u) (t : Text) : [':', ':'] <:+: u ++ t ↔ [':', ':'] <:+: t := by
  induction u with
  | nil => exact Iff.rfl
  | cons c rest ih =>
    simp only [List.mem_cons, not_or] at h
    rw [List.cons_append, colons_cons, ih h.2]
    exact or_iff_right fun hc ↦ h.1 hc.1.symm

/-- Replacing a text by one without colons brings no colons together. -/
theorem colons_of_replace (hold : old ≠ []) (hnew : new ≠ []) (hn : ':' ∉ new) (t : Text)
    (h : [':', ':'] <:+: replace old new t) : [':', ':'] <:+: t := by
  refine (replace_induction (motive := fun t t' ↦ ([':', ':'] <:+: t' → [':', ':'] <:+: t) ∧
    (t'.head? = some ':' → t.head? = some ':')) hold ⟨id, id⟩ ?_ ?_ t).1 h
  · rintro t ⟨ih, -⟩
    refine ⟨fun h ↦ ?_, fun h ↦ ?_⟩
    · exact (ih ((colons_append hn _).mp h)).trans (List.suffix_append _ _).isInfix
    · cases new with
      | nil => exact absurd rfl hnew
      | cons d rest =>
        rw [List.cons_append, List.head?_cons, Option.some.injEq] at h
        exact absurd (h ▸ List.mem_cons_self) hn
  · rintro c t - ⟨ih, ihead⟩
    refine ⟨fun h ↦ ?_, id⟩
    rw [colons_cons] at h ⊢
    exact h.imp (And.imp_right ihead) ih

/-- A double colon stays unless its second colon is the beginning of an occurrence. -/
theorem replace_colons {first : Char} {rest : Text} (hrest : rest ≠ []) (hr : ':' ∉ rest) (t : Text)
    (hspare : first = ':' → ¬(':' :: first :: rest) <:+: t) (h : [':', ':'] <:+: t) :
    [':', ':'] <:+: replace (first :: rest) new t := by
  refine replace_induction (motive := fun t t' ↦ (first = ':' → ¬(':' :: first :: rest) <:+: t) →
    [':', ':'] <:+: t → [':', ':'] <:+: t') (List.cons_ne_nil _ _) (fun _ h ↦ h) ?_ ?_ t hspare h
  · intro t ih hspare h
    have htail : [':', ':'] <:+: t := by
      rw [List.cons_append, colons_cons] at h
      refine (colons_append hr t).mp (h.resolve_left ?_)
      rintro ⟨-, hhead⟩
      cases rest with
      | nil => exact hrest rfl
      | cons d rest =>
        rw [List.cons_append, List.head?_cons, Option.some.injEq] at hhead
        exact hr (hhead ▸ List.mem_cons_self)
    have hkeep := ih (fun hc hin ↦ hspare hc (hin.trans (List.suffix_append _ _).isInfix)) htail
    exact hkeep.trans (List.suffix_append _ _).isInfix
  · intro c t _ ih hspare h
    rw [colons_cons] at h ⊢
    refine h.imp ?_ (ih fun hc hin ↦ hspare hc (hin.trans (List.suffix_cons _ _).isInfix))
    rintro ⟨rfl, hhead⟩
    obtain ⟨back, rfl⟩ := List.head?_eq_some_iff.mp hhead
    have hnot : ¬first :: rest <+: ':' :: back := by
      intro hp
      have hfirst : first = ':' := (List.cons_prefix_cons.mp hp).1
      exact hspare hfirst (List.cons_prefix_cons.mpr ⟨rfl, hp⟩).isInfix
    exact ⟨rfl, by rw [replace_cons hnot]; rfl⟩

end Text

namespace Target

open Text

def marks : List Char := ['@', ':', '/', '|']

/-- Text that cannot be mistaken for a part of the form of a target. -/
structure Harmless (t : Text) : Prop where
  ne_nil : t ≠ []
  not_mem : ∀ c ∈ marks, c ∉ t

theorem harmless_iff {t : Text} :
    Harmless t ↔ t ≠ [] ∧ (marks.all fun c ↦ !t.contains c) = true := by
  simp only [List.all_eq_true, Bool.not_eq_true', List.contains_eq_mem, decide_eq_false_iff_not]
  exact ⟨fun h ↦ ⟨h.ne_nil, h.not_mem⟩, fun h ↦ ⟨h.1, h.2⟩⟩

instance (t : Text) : Decidable (Harmless t) := decidable_of_iff _ harmless_iff.symm

theorem not_mem_of_isIdentifier {t : Text} {c : Char} (h : isIdentifier t = true)
    (hc : isNameStart c = false ∧ isNameContinue c = false) : c ∉ t := by
  cases t with
  | nil => exact List.not_mem_nil
  | cons d rest =>
    rw [isIdentifier, Bool.and_eq_true, List.all_eq_true] at h
    intro hmem
    rcases List.mem_cons.mp hmem with rfl | hmem
    · exact Bool.false_ne_true (hc.1.symm.trans h.1)
    · exact Bool.false_ne_true (hc.2.symm.trans (h.2 c hmem))

theorem harmless_of_isIdentifier {t : Text} (h : isIdentifier t = true) : Harmless t := by
  have hmarks : (marks.all fun c ↦ !isNameStart c && !isNameContinue c) = true := by decide
  refine ⟨?_, fun c hc ↦ not_mem_of_isIdentifier h ?_⟩
  · rintro rfl
    cases h
  · simpa only [Bool.and_eq_true, Bool.not_eq_true'] using List.all_eq_true.mp hmarks c hc

variable {t name value front new : Text} {o : List Bool} {groups : Mapping}
  {p : Text → Text → Text → Prop}

theorem Harmless.isBar_eq_false (h : Harmless t) : ∀ c ∈ t, isBar c = false := by
  intro c hc
  rw [isBar, Bool.or_eq_false_iff, beq_eq_false_iff_ne, beq_eq_false_iff_ne]
  exact ⟨fun he ↦ h.not_mem '/' (by decide) (he ▸ hc),
    fun he ↦ h.not_mem '|' (by decide) (he ▸ hc)⟩

/-! ### One variable -/

/-- The target with the value of a variable in place of its placeholders in brackets. -/
def fillBrackets (t name value : Text) : Text :=
  replace ('\x7b' :: name ++ ['\x7d']) value (replace ('<' :: name ++ ['>']) value t)

/-- What holds of a target still holds when the value of a variable is filled in, if it holds after
each of the three replacements. -/
theorem fillOne_induction {motive : Text → Prop} (ht : motive t)
    (brackets : ∀ (first last : Char) (u : Text), first ∉ marks → last ∉ marks → motive u →
      motive (replace (first :: (name ++ [last])) value u))
    (colon : motive (fillBrackets t name value) →
      motive (replace (':' :: name) value (fillBrackets t name value))) :
    motive (fillOne t name value) :=
  colon (brackets _ _ _ (by decide) (by decide) (brackets _ _ _ (by decide) (by decide) ht))

theorem at_mem_fillOne (hname : Harmless name) (h : '@' ∈ t) : '@' ∈ fillOne t name value := by
  have hat : '@' ∉ name := hname.not_mem '@' (by decide)
  refine fillOne_induction h (fun first last u hfirst hlast hu ↦ ?_) fun hu ↦ ?_
  · refine mem_replace (List.cons_ne_nil _ _) (fun hmem ↦ ?_) hu
    rw [List.mem_cons, List.mem_append, List.mem_singleton] at hmem
    rcases hmem with rfl | hmem | rfl
    · exact hfirst (by decide)
    · exact hat hmem
    · exact hlast (by decide)
  · refine mem_replace (List.cons_ne_nil _ _) (fun hmem ↦ ?_) hu
    exact hat ((List.mem_cons.mp hmem).resolve_left (by decide))

/-- No placeholder begins with the second colon of a double colon. -/
def SparesColons (t name value : Text) : Prop :=
  ¬(':' :: ':' :: name) <:+: fillBrackets t name value

instance (t name value : Text) : Decidable (SparesColons t name value) :=
  decidable_of_iff (¬occursIn (':' :: ':' :: name) (fillBrackets t name value) = true)
    (not_congr occursIn_iff)

theorem colons_fillOne (hname : Harmless name) (hspare : SparesColons t name value)
    (h : [':', ':'] <:+: t) : [':', ':'] <:+: fillOne t name value := by
  have hcolon : ':' ∉ name := hname.not_mem ':' (by decide)
  refine fillOne_induction h (fun first last u hfirst hlast hu ↦ ?_) fun hu ↦ ?_
  · refine replace_colons (by simp) ?_ u (fun he ↦ absurd (by decide) (he ▸ hfirst)) hu
    rw [List.mem_append, List.mem_singleton]
    rintro (hmem | rfl)
    · exact hcolon hmem
    · exact hlast (by decide)
  · exact replace_colons hname.ne_nil hcolon _ (fun _ ↦ hspare) hu

/-- The target names no method, and its separators stand as in an outline. -/
structure IsPath (o : List Bool) (t : Text) : Prop where
  not_mem : '@' ∉ t
  not_colons : ¬[':', ':'] <:+: t
  outline_eq : outline isBar t = o

theorem IsPath.replace (hfront : front ≠ []) (hbar : ∀ c ∈ front, isBar c = false)
    (hnew : Harmless new) (h : IsPath o t) : IsPath o (replace front new t) where
  not_mem hmem := h.not_mem (mem_of_mem_replace hfront (hnew.not_mem '@' (by decide)) hmem)
  not_colons hin :=
    h.not_colons (colons_of_replace hfront hnew.ne_nil (hnew.not_mem ':' (by decide)) t hin)
  outline_eq :=
    (outline_replace hfront hbar hnew.ne_nil hnew.isBar_eq_false t).trans h.outline_eq

/-- The value is harmless, or there is nothing to put it in place of. -/
def FillsText (t name value : Text) : Prop := Harmless value ∨ fillOne t name value = t

instance (t name value : Text) : Decidable (FillsText t name value) :=
  inferInstanceAs (Decidable (_ ∨ _))

theorem IsPath.fillOne (hname : Harmless name) (hfills : FillsText t name value)
    (h : IsPath o t) : IsPath o (fillOne t name value) := by
  rcases hfills with hvalue | heq
  · refine fillOne_induction h (fun first last u hfirst hlast hu ↦ ?_) fun hu ↦ ?_
    · refine hu.replace (List.cons_ne_nil _ _) (fun c hc ↦ ?_) hvalue
      have hmark : ∀ c, c ∉ marks → isBar c = false := by
        intro c hc
        rw [marks] at hc
        simp only [List.mem_cons, not_or] at hc
        simp [isBar, hc]
      rw [List.mem_cons, List.mem_append, List.mem_singleton] at hc
      rcases hc with rfl | hc | rfl
      · exact hmark _ hfirst
      · exact hname.isBar_eq_false c hc
      · exact hmark _ hlast
    · refine hu.replace (List.cons_ne_nil _ _) (fun c hc ↦ ?_) hvalue
      rcases List.mem_cons.mp hc with rfl | hc
      · decide
      · exact hname.isBar_eq_false c hc
  · rwa [heq]

/-! ### All variables -/

/-- Something holds of every value when its turn comes to be put into the target. -/
def EachFilling (p : Text → Text → Text → Prop) : Mapping → Text → Prop
  | [], _ => True
  | (name, value) :: rest, t =>
    if value.isNull then EachFilling p rest t
    else p t name.plain value.plain ∧ EachFilling p rest (fillOne t name.plain value.plain)

instance decidableEachFilling [∀ t name value, Decidable (p t name value)] :
    ∀ groups t, Decidable (EachFilling p groups t)
  | [], _ => inferInstanceAs (Decidable True)
  | (name, value) :: rest, t =>
    have := decidableEachFilling rest t
    have := decidableEachFilling rest (fillOne t name.plain value.plain)
    inferInstanceAs (Decidable (if value.isNull then EachFilling p rest t
      else p t name.plain value.plain ∧ EachFilling p rest (fillOne t name.plain value.plain)))

theorem fill_cons (name value : Value) (rest : Mapping) (t : Text) :
    fill ((name, value) :: rest) t =
      if value.isNull then fill rest t else fill rest (fillOne t name.plain value.plain) := by
  rw [fill, List.foldl_cons]
  split <;> rfl

theorem eachFilling_of_forall (h : ∀ t name value, p t name value) (groups : Mapping) (t : Text) :
    EachFilling p groups t := by
  induction groups generalizing t with
  | nil => trivial
  | cons entry rest ih =>
    rw [EachFilling]
    split
    · exact ih t
    · exact ⟨h _ _ _, ih _⟩

theorem fill_induction {motive : Text → Prop} (hnames : ∀ entry ∈ groups, Harmless entry.1.plain)
    (step : ∀ t name value, Harmless name → p t name value → motive t →
      motive (fillOne t name value))
    (h : EachFilling p groups t) (ht : motive t) : motive (fill groups t) := by
  induction groups generalizing t with
  | nil => exact ht
  | cons entry rest ih =>
    obtain ⟨name, value⟩ := entry
    have hrest := fun entry hmem ↦ hnames entry (List.mem_cons_of_mem _ hmem)
    rw [EachFilling] at h
    rw [fill_cons]
    split at h
    next hnull =>
      rw [if_pos hnull]
      exact ih hrest h ht
    next hnull =>
      rw [if_neg hnull]
      exact ih hrest h.2 (step _ _ _ (hnames _ List.mem_cons_self) h.1 ht)

theorem at_mem_fill (hnames : ∀ entry ∈ groups, Harmless entry.1.plain) (h : '@' ∈ t) :
    '@' ∈ fill groups t :=
  fill_induction (p := fun _ _ _ ↦ True) hnames (fun _ _ _ hname _ ↦ at_mem_fillOne hname)
    (eachFilling_of_forall (fun _ _ _ ↦ trivial) _ _) h

theorem colons_fill (hnames : ∀ entry ∈ groups, Harmless entry.1.plain)
    (hspare : EachFilling SparesColons groups t) (h : [':', ':'] <:+: t) :
    [':', ':'] <:+: fill groups t :=
  fill_induction hnames (fun _ _ _ ↦ colons_fillOne) hspare h

theorem IsPath.fill (hnames : ∀ entry ∈ groups, Harmless entry.1.plain)
    (hfills : EachFilling FillsText groups t) (h : IsPath o t) : IsPath o (fill groups t) :=
  fill_induction hnames (fun _ _ _ hname hp ↦ IsPath.fillOne hname hp) hfills h

end Target

end UrlRouting

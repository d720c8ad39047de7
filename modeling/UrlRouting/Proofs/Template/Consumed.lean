import UrlRouting.Proofs.Template.Assignment
import UrlRouting.Proofs.Template.Normalizing
import UrlRouting.Proofs.Text.Delimit
import UrlRouting.Proofs.Text.Pieces

/-!
What the parts of a path consume of a URL: a delimiter for each of their delimiters and for each of
their variables that has a value, no other one (`Consumes.count_add_missing`).
-/

namespace UrlRouting.Template

open Template.Part

variable {d : Char} {values : Text → Option Text} {parts : List Part} {t : Text}

/-! ### What a path consumes -/

/-- The text is what parts stand for when variables have values, where the letters of literals may
be spelled in another way. -/
inductive Consumes (d : Char) (values : Text → Option Text) : List Part → Text → Prop
  | nil : Consumes d values [] []
  | delimiter {parts : List Part} {t : Text} (h : Consumes d values parts t) :
      Consumes d values (literal d :: parts) (d :: t)
  | letter {c : Char} {w : Text} {parts : List Part} {t : Text} (hc : c ≠ d) (hw : d ∉ w)
      (h : Consumes d values parts t) : Consumes d values (literal c :: parts) (w ++ t)
  | value {lead : Option Char} {name v : Text} {optional : Bool} {parts : List Part} {t : Text}
      (hv : values name = some v) (h : Consumes d values parts t) :
      Consumes d values (slot lead name optional :: parts) (lead.toList ++ (v ++ t))
  | absent {lead : Option Char} {name : Text} {optional : Bool} {parts : List Part} {t : Text}
      (hv : values name = none) (h : Consumes d values parts t) :
      Consumes d values (slot lead name optional :: parts) t

theorem fill_settle (values : Text → Option Text) (p : Char → Bool) (parts : List Part) :
    fill values (settle p parts) = fill values parts := by
  induction parts with
  | nil => rfl
  | cons part rest ih =>
    cases part with
    | literal c => exact congrArg (c :: ·) ih
    | slot lead name optional => rw [settle, fill_slot, fill_slot, ih]

theorem consumes_fill (d : Char) (values : Text → Option Text) (parts : List Part) :
    Consumes d values parts (fill values parts) := by
  induction parts with
  | nil => exact .nil
  | cons part rest ih =>
    cases part with
    | literal c =>
      by_cases hc : c = d
      · subst hc
        exact .delimiter ih
      · exact .letter hc (by simpa using Ne.symm hc) ih
    | slot lead name optional =>
      rw [fill_slot]
      cases hv : values name with
      | none => exact .absent hv ih
      | some v =>
        rw [Option.elim_some, List.append_assoc]
        exact .value hv ih

/-- The number of variables without a value that a delimiter goes with. -/
def missing (d : Char) (values : Text → Option Text) (parts : List Part) : Nat :=
  parts.countP fun
    | literal _ => false
    | slot lead name _ => lead == some d && (values name).isNone

section Missing

variable {lead : Option Char} {name v : Text} {optional : Bool}

theorem missing_literal (c : Char) (parts : List Part) :
    missing d values (literal c :: parts) = missing d values parts :=
  List.countP_cons_of_neg Bool.false_ne_true

theorem missing_value (hv : values name = some v) (parts : List Part) :
    missing d values (slot lead name optional :: parts) = missing d values parts :=
  List.countP_cons_of_neg (by simp [hv])

theorem missing_absent (hv : values name = none) (parts : List Part) :
    missing d values (slot lead name optional :: parts) =
      lead.toList.count d + missing d values parts := by
  rw [missing, List.countP_cons, Nat.add_comm]
  cases lead with
  | none => simp [missing]
  | some c => simp [missing, hv, List.count_singleton]

theorem count_text_slot (hd : Config.isDelimiter d = true)
    (h : (slot lead name optional).isPlain (isSeparator [d]) = true) :
    (slot lead name optional).text.count d = lead.toList.count d := by
  have hcanonical : d ∉ Shorthand.canonical name optional := by
    intro hmem
    rcases Shorthand.mem_canonical hmem with hmem | hmem
    · have hword := (isPlain_slot.mp h).2.2 d hmem
      rw [isWord_of_isDelimiter hd] at hword
      cases hword
    · have hseparator := isSeparator_mark hd hmem
      simp [isSeparator] at hseparator
  rw [text, List.count_append, List.count_eq_zero_of_not_mem hcanonical, Nat.add_zero]

end Missing

/-- Where no value holds the delimiter, the delimiters of a path that are not consumed are those of
the missing variables. -/
theorem Consumes.count_add_missing (hd : Config.isDelimiter d = true)
    (hplain : ∀ part ∈ parts, part.isPlain (isSeparator [d]) = true)
    (hvalues : ∀ name v, values name = some v → d ∉ v) (h : Consumes d values parts t) :
    t.count d + missing d values parts = (written parts).count d := by
  induction h with
  | nil => rfl
  | delimiter h ih =>
    have hrest := ih (List.forall_mem_cons.mp hplain).2
    rw [missing_literal, written_cons, text, List.singleton_append, List.count_cons_self,
      List.count_cons_self]
    omega
  | letter hc hw h ih =>
    have hrest := ih (List.forall_mem_cons.mp hplain).2
    rw [missing_literal, written_cons, text, List.singleton_append, List.count_append,
      List.count_eq_zero_of_not_mem hw, List.count_cons_of_ne hc]
    omega
  | value hv h ih =>
    obtain ⟨hpart, hplain⟩ := List.forall_mem_cons.mp hplain
    have hrest := ih hplain
    rw [missing_value hv, written_cons, List.count_append, List.count_append, List.count_append,
      List.count_eq_zero_of_not_mem (hvalues _ _ hv), count_text_slot hd hpart]
    omega
  | absent hv h ih =>
    obtain ⟨hpart, hplain⟩ := List.forall_mem_cons.mp hplain
    have hrest := ih hplain
    rw [missing_absent hv, written_cons, List.count_append, count_text_slot hd hpart]
    omega

/-! ### Letters only -/

theorem eq_map_literal (h : names parts = []) : parts = (written parts).map literal := by
  induction parts with
  | nil => rfl
  | cons part rest ih =>
    cases part with
    | literal c => exact congrArg (literal c :: ·) (ih h)
    | slot lead name optional => cases h

/-- Letters stand for letters. -/
theorem Consumes.word {x u : Text} (hx : d ∉ x) (ht : d ∉ t) (hletters : x = [] → t = [])
    (h : Consumes d values parts u) : Consumes d values (x.map literal ++ parts) (t ++ u) := by
  induction x generalizing t with
  | nil =>
    rw [hletters rfl]
    exact h
  | cons c x ih =>
    rw [List.mem_cons, not_or] at hx
    exact .letter (Ne.symm hx.1) ht (ih hx.2 List.not_mem_nil fun _ ↦ rfl)

/-- A text of which the small form begins with that of another text has what the other text stands
for at its beginning. -/
theorem exists_consumes (values : Text → Option Text) {x y u w more : Text}
    (hx : Text.Spells d (x ++ d :: more) y) (hu : Text.Spells d (u ++ [d]) w) (hfront : y <+: w) :
    ∃ t rest, u = t ++ rest ∧ (rest = [] ∨ rest.head? = some d) ∧
      Consumes d values (x.map literal) t := by
  refine Text.splitAt_induction (motive := fun x ↦ ∀ y u w,
    Text.Spells d (x ++ d :: more) y → Text.Spells d (u ++ [d]) w → y <+: w →
    ∃ t rest, u = t ++ rest ∧ (rest = [] ∨ rest.head? = some d) ∧
      Consumes d values (x.map literal) t) d ?_ ?_ x y u w hx hu hfront
  · intro x hd y u w hx hu hfront
    obtain ⟨t, y', ht, hletters, -, hrest⟩ := hx.exists_common_cut hu hfront hd
    have hword : Consumes d values (x.map literal) t := by
      have h := Consumes.word hd ht hletters (.nil : Consumes d values [] [])
      rwa [List.append_nil, List.append_nil] at h
    rcases hrest with ⟨rfl, -⟩ | ⟨rest, -, rfl, -⟩
    · exact ⟨u, [], (List.append_nil u).symm, .inl rfl, hword⟩
    · exact ⟨t, d :: rest, rfl, .inr rfl, hword⟩
  · intro x x' hd ih y u w hx hu hfront
    rw [List.append_assoc, List.cons_append] at hx
    obtain ⟨t, y', ht, hletters, hx', hrest⟩ := hx.exists_common_cut hu hfront hd
    rcases hrest with ⟨-, hnil⟩ | ⟨rest, w', rfl, hrest, hfront'⟩
    · exact absurd (hx'.eq_nil hnil) (by simp)
    · obtain ⟨t', rest', rfl, hend, hconsumes⟩ := ih y' rest w' hx' hrest hfront'
      refine ⟨t ++ d :: t', rest', by simp, hend, ?_⟩
      rw [List.map_append, List.map_cons]
      exact .word hd ht hletters (.delimiter hconsumes)

/-! ### Slashes at the end -/

/-- The number of slashes at the end of a text. -/
def closing (t : Text) : Nat := t.length - (Text.trimRight (· == '/') t).length

theorem count_slash (t : Text) :
    t.count '/' = (Text.trimRight (· == '/') t).count '/' + closing t := by
  obtain ⟨ends, ht, hends⟩ := exists_trimRight_append (· == '/') t
  have hcount : ends.count '/' = ends.length :=
    List.count_eq_length.mpr fun c hc ↦ (beq_iff_eq.mp (hends c hc)).symm
  have hlength := congrArg List.length ht
  have hslashes := congrArg (List.count '/') ht
  rw [List.length_append] at hlength
  rw [List.count_append, hcount] at hslashes
  rw [closing]
  omega

theorem trimRight_delimited (hrule : ∃ x ∈ t, x ≠ '/') (hspare : d ≠ '/' → d ∉ t) :
    Text.trimRight (· == d) (d :: t.map (delimit d)) =
      d :: (Text.trimRight (· == '/') t).map (delimit d) := by
  induction t using List.reverseRecOn with
  | nil =>
    obtain ⟨x, hx, -⟩ := hrule
    cases hx
  | append_singleton t c ih =>
    rw [List.map_append, List.map_singleton, ← List.cons_append]
    by_cases hc : c = '/'
    · subst hc
      have hrest : ∃ x ∈ t, x ≠ '/' := by simpa using hrule
      rw [delimit_slash, trimRight_append_of_pos (p := (· == d)) (beq_self_eq_true d),
        trimRight_append_of_pos (p := (· == '/')) (beq_self_eq_true '/'),
        ih hrest fun hd hmem ↦ hspare hd (List.mem_append_left _ hmem)]
    · have hne : c ≠ d := by
        rintro rfl
        exact hspare hc (List.mem_append_right _ (List.mem_singleton_self _))
      rw [delimit_of_ne hc, trimRight_append_cons (p := (· == d)) (beq_eq_false_iff_ne.mpr hne),
        trimRight_append_cons (p := (· == '/')) (beq_eq_false_iff_ne.mpr hc), List.map_append,
        List.map_singleton, delimit_of_ne hc, List.cons_append]

theorem count_delimited (hspare : d ≠ '/' → d ∉ t) :
    (t.map (delimit d)).count d = t.count '/' := by
  rw [List.count, List.countP_map, List.count]
  refine List.countP_congr fun c hc ↦ ?_
  simp only [Function.comp_apply, beq_iff_eq]
  rw [delimit]
  split
  next hslash => exact iff_of_true rfl hslash
  next hslash =>
    refine iff_of_false (fun he ↦ ?_) hslash
    subst he
    exact hspare hslash hc

end UrlRouting.Template

import Mathlib.Data.List.Infix
import Mathlib.Data.List.Nodup
import UrlRouting.Proofs.Dispatch.Placeholders

/-!
Filling placeholders one after the other and all at once. The two agree as long as every placeholder
is, when its turn comes, where it is in the declared target (`foldl_replace_render`).
-/

namespace UrlRouting.Target

open Text

variable {t u v w p p' left : Text} {c : Char} {ps : List Piece} {filled : List (Text × Text)}
  {groups : Mapping}

/-- The placeholders of the variables that have a value, each with that value, in the order in
which they are filled. -/
def fillings (groups : Mapping) : List (Text × Text) :=
  (groups.filter fun entry ↦ !entry.2.isNull).flatMap fun entry ↦
    (placeholders entry.1.plain).map fun w ↦ (w, entry.2.plain)

def fillSlot (filled : List (Text × Text)) : Piece → Text
  | .char c => [c]
  | .slot w => (filled.lookup w).getD w

/-- The text with the value of a variable in place of each of its placeholders. -/
def fillAtOnce (groups : Mapping) (t : Text) : Text :=
  (pieces t).flatMap (fillSlot (fillings groups))

theorem fill_eq_foldl (groups : Mapping) (t : Text) :
    fill groups t = (fillings groups).foldl (fun t e ↦ replace e.1 e.2 t) t := by
  induction groups generalizing t with
  | nil => rfl
  | cons entry rest ih =>
    obtain ⟨name, value⟩ := entry
    rw [fill_cons, fillings]
    cases hnull : value.isNull with
    | true =>
      rw [if_pos rfl, List.filter_cons_of_neg (by simp [hnull]), ih, fillings]
    | false =>
      rw [if_neg Bool.false_ne_true, List.filter_cons_of_pos (by simp [hnull]), ih,
        List.flatMap_cons, List.foldl_append]
      rfl

/-! ### Replacing one placeholder -/

/-- The placeholder occurs in the pieces only as one of them or at the beginning of a longer one. -/
def Clear (p : Text) : List Piece → Prop
  | [] => True
  | x :: rest => (p <+: x.text ++ render rest → ∃ w, x = .slot w ∧ p <+: w) ∧ Clear p rest

/-- No placeholder `p` among the pieces stands directly behind the beginning of a placeholder `p'`;
`left` is the text in front of the pieces. -/
def Apart (p p' : Text) : Text → List Piece → Prop
  | _, [] => True
  | left, x :: rest => (x = .slot p → ∀ q ∈ p'.inits, q ≠ [] → q <:+ left → q = p') ∧
    Apart p p' (left ++ x.text) rest

/-- An occurrence of the placeholder begins in the text; it may reach beyond the end. -/
def BeginsIn (p v : Text) : Prop := ∃ s ∈ v.tails, s ≠ [] ∧ (s <+: p ∨ p <+: s)

def putIn (p v : Text) : Piece → List Piece
  | .char c => [.char c]
  | .slot w => if w = p then v.map .char else [.slot w]

def put (p v : Text) (ps : List Piece) : List Piece := ps.flatMap (putIn p v)

theorem render_cons (x : Piece) (ps : List Piece) : render (x :: ps) = x.text ++ render ps :=
  List.flatMap_cons

theorem render_chars_append (v : Text) (ps : List Piece) :
    render (v.map .char ++ ps) = v ++ render ps := by
  induction v with
  | nil => rfl
  | cons c rest ih => exact congrArg (c :: ·) ih

theorem put_slot (p v : Text) (rest : List Piece) :
    put p v (.slot p :: rest) = v.map .char ++ put p v rest := by
  rw [put, List.flatMap_cons, putIn, if_pos rfl, put]

theorem put_cons {x : Piece} (hx : x ≠ .slot p) (v : Text) (rest : List Piece) :
    put p v (x :: rest) = x :: put p v rest := by
  rw [put, List.flatMap_cons, put]
  cases x with
  | char c => rfl
  | slot w =>
    rw [putIn, if_neg fun hw ↦ hx (congrArg _ hw)]
    rfl

theorem mem_of_slot_mem_put (h : .slot w ∈ put p v ps) : .slot w ∈ ps ∧ w ≠ p := by
  obtain ⟨x, hx, hw⟩ := List.mem_flatMap.mp h
  cases x with
  | char c =>
    cases List.mem_singleton.mp hw
  | slot u =>
    rw [putIn] at hw
    split at hw
    next =>
      obtain ⟨c, -, hc⟩ := List.mem_map.mp hw
      cases hc
    next hu =>
      cases List.mem_singleton.mp hw
      exact ⟨hx, hu⟩

theorem replace_render (hp : IsPlaceholder p)
    (hslots : ∀ w, .slot w ∈ ps → IsPlaceholder w ∧ (p <+: w → p = w)) (h : Clear p ps)
    (v : Text) : replace p v (render ps) = render (put p v ps) := by
  induction ps with
  | nil => rfl
  | cons x rest ih =>
    obtain ⟨hclear, hrest⟩ := h
    have ih := ih (fun w hw ↦ hslots w (List.mem_cons_of_mem _ hw)) hrest
    by_cases hx : x = .slot p
    · rw [hx, put_slot, render_chars_append, render_cons, Piece.text, replace_append hp.ne_nil, ih]
    rw [put_cons hx, render_cons, render_cons, ← ih]
    have hnot : ¬p <+: x.text ++ render rest := by
      intro hbegins
      obtain ⟨w, rfl, hw⟩ := hclear hbegins
      exact hx (congrArg _ ((hslots w List.mem_cons_self).2 hw).symm)
    cases x with
    | char c => exact replace_cons hnot v
    | slot w =>
      obtain ⟨first, back, rfl, -, hback⟩ := (hslots w List.mem_cons_self).1.eq_cons
      obtain ⟨mark, tail, rfl, hmark, -⟩ := hp.eq_cons
      rw [Piece.text, List.cons_append] at hnot ⊢
      rw [replace_cons hnot, replace_through, List.cons_append]
      intro d hd hhead
      cases hhead
      exact hback _ hd hmark

/-! ### What replacing one placeholder does to another one -/

/-- Put in place of a placeholder, a value completes no other placeholder that begins before it. -/
theorem prefix_of_prefix_put (hu : u ≠ []) (hleft : u <:+ left) (hapart : Apart p p' left ps)
    (h : p' <+: u ++ render (put p v ps)) : p' <+: u ++ render ps := by
  -- along the pieces up to the first that is replaced: `u` grows by those that are passed
  induction ps generalizing u left with
  | nil => exact h
  | cons x rest ih =>
    by_cases hx : x = .slot p
    · rw [hx, put_slot, render_chars_append] at h
      rcases List.prefix_or_prefix_of_prefix h (List.prefix_append _ _) with hp | hp
      · exact hp.trans (List.prefix_append _ _)
      · rw [hapart.1 hx u (List.mem_inits _ _ |>.mpr hp) hu hleft]
        exact List.prefix_append _ _
    · rw [put_cons hx, render_cons, ← List.append_assoc] at h
      rw [render_cons, ← List.append_assoc]
      refine ih (by simp [hu]) ?_ hapart.2 h
      obtain ⟨front, rfl⟩ := hleft
      exact ⟨front, (List.append_assoc _ _ _).symm⟩

theorem clear_chars_append (hv : ∀ s ∈ v.tails, s ≠ [] → ¬p <+: s ++ render ps)
    (h : Clear p ps) : Clear p (v.map .char ++ ps) := by
  induction v with
  | nil => exact h
  | cons c rest ih =>
    rw [List.map_cons, List.cons_append]
    refine ⟨fun hp ↦ ?_, ih fun s hs ↦ hv s (List.mem_cons_of_mem _ hs)⟩
    rw [render_chars_append] at hp
    exact absurd hp (hv _ List.mem_cons_self (List.cons_ne_nil _ _))

theorem Clear.put (hslots : ∀ w, .slot w ∈ ps → w ≠ [])
    (hvalue : .slot p ∈ ps → ¬BeginsIn p' v) (hapart : Apart p p' left ps) (h : Clear p' ps) :
    Clear p' (put p v ps) := by
  induction ps generalizing left with
  | nil => trivial
  | cons x rest ih =>
    have ih := ih (fun w hw ↦ hslots w (List.mem_cons_of_mem _ hw))
      (fun hp ↦ hvalue (List.mem_cons_of_mem _ hp)) hapart.2 h.2
    by_cases hx : x = .slot p
    · have hnot : ¬BeginsIn p' v := hvalue (hx ▸ List.mem_cons_self)
      rw [hx, put_slot]
      refine clear_chars_append (fun s hs hne hp ↦ hnot ⟨s, hs, hne, ?_⟩) ih
      exact (List.prefix_or_prefix_of_prefix hp (List.prefix_append _ _)).symm
    · rw [put_cons hx]
      refine ⟨fun hp ↦ h.1 (prefix_of_prefix_put ?_ (List.suffix_append left _) hapart.2 hp), ih⟩
      cases x with
      | char c => exact List.cons_ne_nil _ _
      | slot w => exact hslots w List.mem_cons_self

theorem apart_chars_append (h : Apart p p' (left ++ v) ps) :
    Apart p p' left (v.map .char ++ ps) := by
  induction v generalizing left with
  | nil => rwa [List.append_nil] at h
  | cons c rest ih =>
    rw [List.map_cons, List.cons_append]
    refine ⟨nofun, ih ?_⟩
    rwa [List.append_assoc]

theorem suffix_append_cases (h : w <:+ u ++ v) :
    w <:+ v ∨ ∃ front, front ≠ [] ∧ front <:+ u ∧ w = front ++ v := by
  obtain ⟨back, hback⟩ := h
  rcases List.append_eq_append_iff.mp hback with ⟨front, hu, hw⟩ | ⟨front, -, hv⟩
  · cases front with
    | nil => exact .inl (hw ▸ List.suffix_refl v)
    | cons c rest => exact .inr ⟨c :: rest, List.cons_ne_nil _ _, ⟨back, hu.symm⟩, hw⟩
  · exact .inl ⟨front, hv.symm⟩

theorem proper_front (h : u ++ v <+: p) (hne : u ++ v ≠ p) : u <+: p ∧ u ≠ p := by
  have hu : u <+: p := (List.prefix_append _ _).trans h
  refine ⟨hu, ?_⟩
  rintro rfl
  exact hne (h.eq_of_length_le (by simp))

/-- A value that holds no beginning of a placeholder leaves the beginnings in front of the other
pieces as they are. Here `left` is the text in front before, and `front` after the value is put
in. -/
theorem Apart.put {p₁ p₂ front : Text} (hvalue : .slot p ∈ ps → ¬BeginsIn p₂ v)
    (hfront : ∀ q, q <+: p₂ → q ≠ [] → q ≠ p₂ → q <:+ front → q <:+ left)
    (hp : Apart p p₂ left ps) (h : Apart p₁ p₂ left ps) : Apart p₁ p₂ front (put p v ps) := by
  induction ps generalizing left front with
  | nil => trivial
  | cons x rest ih =>
    have hrest := fun hp ↦ hvalue (List.mem_cons_of_mem x hp)
    by_cases hx : x = .slot p
    · rw [hx, put_slot]
      refine apart_chars_append (ih hrest ?_ hp.2 h.2)
      intro q hq hne hproper hsuffix
      -- the beginning stands within the value, or it has begun before a piece that is replaced
      rcases suffix_append_cases hsuffix with hv | ⟨q', hne', hq', rfl⟩
      · exact absurd ⟨q, (List.mem_tails _ _).mpr hv, hne, .inl hq⟩
          (hvalue (hx ▸ List.mem_cons_self))
      · obtain ⟨hbegins, hwhole⟩ := proper_front hq hproper
        exact absurd (hp.1 hx q' ((List.mem_inits _ _).mpr hbegins) hne'
          (hfront q' hbegins hne' hwhole hq')) hwhole
    · rw [put_cons hx]
      refine ⟨fun hslot q hq hne hsuffix ↦ ?_, ih hrest ?_ hp.2 h.2⟩
      · by_contra hproper
        have hleft := hfront q ((List.mem_inits _ _).mp hq) hne hproper hsuffix
        exact hproper (h.1 hslot q hq hne hleft)
      · intro q hq hne hproper hsuffix
        rcases suffix_append_cases hsuffix with hx | ⟨q', hne', hq', rfl⟩
        · exact hx.trans (List.suffix_append _ _)
        · obtain ⟨hbegins, hwhole⟩ := proper_front hq hproper
          obtain ⟨back, rfl⟩ := hfront q' hbegins hne' hwhole hq'
          exact ⟨back, (List.append_assoc _ _ _).symm⟩

/-! ### Replacing all placeholders -/

def slots (ps : List Piece) : List Text :=
  ps.filterMap fun
    | .char _ => none
    | .slot w => some w

theorem mem_slots : w ∈ slots ps ↔ .slot w ∈ ps := by
  rw [slots, List.mem_filterMap]
  constructor
  · rintro ⟨x, hx, hw⟩
    cases x with
    | char c => cases hw
    | slot u =>
      cases hw
      exact hx
  · intro h
    exact ⟨_, h, rfl⟩

/-- Filling the placeholder of `e` leaves that of `e'`, which is filled later, as it is among the
pieces: none begins in a value that is put in, none that has begun before is completed by it, and
the placeholder of `e` is not the beginning of the other one. -/
structure Spares (ps : List Piece) (e e' : Text × Text) : Prop where
  value : e.1 ∈ slots ps → ¬BeginsIn e'.1 e.2
  apart : Apart e.1 e'.1 [] ps
  shorter : e'.1 ∈ slots ps → e.1 <+: e'.1 → e.1 = e'.1

/-- Each placeholder is spared by those that are filled before, and one that is not filled at all
does not begin with one that is. -/
structure Undisturbed (filled : List (Text × Text)) (ps : List Piece) : Prop where
  spares : filled.Pairwise (Spares ps)
  bound : ∀ w ∈ slots ps, ∀ e ∈ filled, e.1 <+: w → w ∈ filled.map Prod.fst

theorem mem_slots_of_put (h : w ∈ slots (put p v ps)) : w ∈ slots ps :=
  mem_slots.mpr (mem_of_slot_mem_put (mem_slots.mp h)).1

theorem Spares.put {e e' : Text × Text} (hfilled : Spares ps (p, v) e') (h : Spares ps e e') :
    Spares (put p v ps) e e' where
  value hslot := h.value (mem_slots_of_put hslot)
  apart := Apart.put (fun hp ↦ hfilled.value (mem_slots.mpr hp)) (fun _ _ _ _ hq ↦ hq)
    hfilled.apart h.apart
  shorter hslot := h.shorter (mem_slots_of_put hslot)

theorem Undisturbed.put (h : Undisturbed ((p, v) :: filled) ps) :
    Undisturbed filled (put p v ps) := by
  obtain ⟨hfirst, hrest⟩ := List.pairwise_cons.mp h.spares
  refine ⟨hrest.imp_of_mem fun {e e'} he he' hspares ↦ ?_, fun w hw e he hbegins ↦ ?_⟩
  · exact (hfirst e' he').put hspares
  · obtain ⟨hslot, hne⟩ := mem_of_slot_mem_put (mem_slots.mp hw)
    have hbound := h.bound w (mem_slots.mpr hslot) e (List.mem_cons_of_mem _ he) hbegins
    exact (List.mem_cons.mp hbound).resolve_left hne

theorem fillSlot_put (p v : Text) (filled : List (Text × Text)) (ps : List Piece) :
    (put p v ps).flatMap (fillSlot filled) = ps.flatMap (fillSlot ((p, v) :: filled)) := by
  induction ps with
  | nil => rfl
  | cons x rest ih =>
    by_cases hx : x = .slot p
    · have hchars : (v.map Piece.char).flatMap (fillSlot filled) = v := by
        rw [List.flatMap_map]
        exact List.flatMap_singleton' v
      rw [hx, put_slot, List.flatMap_append, ih, hchars, List.flatMap_cons, fillSlot,
        List.lookup_cons_self]
      rfl
    · rw [put_cons hx, List.flatMap_cons, List.flatMap_cons, ih]
      congr 1
      cases x with
      | char c => rfl
      | slot w =>
        have hw : (w == p) = false := beq_eq_false_iff_ne.mpr fun he ↦ hx (congrArg _ he)
        rw [fillSlot, fillSlot, List.lookup_cons, hw]

/-- Undisturbed, the placeholders are filled one after the other as they are all at once. -/
theorem foldl_replace_render (hfilled : ∀ e ∈ filled, IsPlaceholder e.1)
    (hslots : ∀ w, .slot w ∈ ps → IsPlaceholder w) (hclear : ∀ e ∈ filled, Clear e.1 ps)
    (h : Undisturbed filled ps) :
    filled.foldl (fun t e ↦ replace e.1 e.2 t) (render ps) = ps.flatMap (fillSlot filled) := by
  -- one step for each placeholder; the pieces that are left stay clear and undisturbed
  induction filled generalizing ps with
  | nil =>
    refine List.flatMap_congr fun x _ ↦ ?_
    cases x <;> rfl
  | cons e rest ih =>
    obtain ⟨p, v⟩ := e
    obtain ⟨hfirst, -⟩ := List.pairwise_cons.mp h.spares
    have hlonger : ∀ w, .slot w ∈ ps → p <+: w → p = w := by
      intro w hw hbegins
      rcases List.mem_cons.mp (h.bound w (mem_slots.mpr hw) _ List.mem_cons_self hbegins) with
        he | hmem
      · exact he.symm
      · obtain ⟨e', he', rfl⟩ := List.mem_map.mp hmem
        exact (hfirst e' he').shorter (mem_slots.mpr hw) hbegins
    have hrender : replace p v (render ps) = render (put p v ps) :=
      replace_render (hfilled _ List.mem_cons_self) (fun w hw ↦ ⟨hslots w hw, hlonger w hw⟩)
        (hclear _ List.mem_cons_self) v
    rw [List.foldl_cons, hrender, ih (fun e he ↦ hfilled e (List.mem_cons_of_mem _ he)) ?_ ?_ h.put,
      fillSlot_put]
    · intro w hw
      exact hslots w (mem_of_slot_mem_put hw).1
    · intro e he
      exact (hclear e (List.mem_cons_of_mem _ he)).put (fun w hw ↦ (hslots w hw).ne_nil)
        (fun hp ↦ (hfirst e he).value (mem_slots.mpr hp)) (hfirst e he).apart

theorem clear_pieces (hp : IsPlaceholder p) (t : Text) : Clear p (pieces t) := by
  refine pieces_induction (motive := fun _ ps ↦ Clear p ps) trivial ?_ ?_ t
  · intro w t hw ih
    refine ⟨fun hbegins ↦ ?_, ih⟩
    rw [Piece.text, render_pieces] at hbegins
    obtain ⟨w', hw', hbegins⟩ := exists_placeholderAt? hp hbegins
    cases hw.symm.trans hw'
    exact ⟨w, rfl, hbegins⟩
  · intro c t hnone ih
    refine ⟨fun hbegins ↦ ?_, ih⟩
    rw [Piece.text, render_pieces] at hbegins
    obtain ⟨w, hw, -⟩ := exists_placeholderAt? hp hbegins
    cases hnone.symm.trans hw

theorem isPlaceholder_of_mem_fillings (hnames : ∀ entry ∈ groups, isIdentifier entry.1.plain = true)
    {e : Text × Text} (he : e ∈ fillings groups) : IsPlaceholder e.1 := by
  obtain ⟨entry, hentry, he⟩ := List.mem_flatMap.mp he
  obtain ⟨w, hw, rfl⟩ := List.mem_map.mp he
  exact ⟨_, hnames entry (List.mem_filter.mp hentry).1, hw⟩

theorem fill_eq_fillAtOnce (hnames : ∀ entry ∈ groups, isIdentifier entry.1.plain = true)
    (h : Undisturbed (fillings groups) (pieces t)) : fill groups t = fillAtOnce groups t := by
  have hfill := foldl_replace_render (fun _ ↦ isPlaceholder_of_mem_fillings hnames)
    (fun _ ↦ isPlaceholder_of_slot)
    (fun _ he ↦ clear_pieces (isPlaceholder_of_mem_fillings hnames he) t) h
  rwa [render_pieces, ← fill_eq_foldl] at hfill

/-! ### Order of the variables -/

theorem lookup_eq_of_perm {l l' : List (Text × Text)} (h : l.Perm l')
    (hd : (l.map Prod.fst).Nodup) (w : Text) : l.lookup w = l'.lookup w := by
  induction h with
  | nil => rfl
  | cons e _ ih =>
    obtain ⟨p, v⟩ := e
    rw [List.lookup_cons, List.lookup_cons, ih (List.nodup_cons.mp hd).2]
  | swap e e' l =>
    have hne : e'.1 ≠ e.1 := (List.nodup_cons.mp hd).1 ∘ fun he ↦ he ▸ List.mem_cons_self
    obtain ⟨p, v⟩ := e
    obtain ⟨p', v'⟩ := e'
    simp only [List.lookup_cons]
    by_cases hw : w = p
    · have hother : (w == p') = false := beq_eq_false_iff_ne.mpr fun he ↦ hne (he.symm.trans hw)
      rw [hother]
    · rw [beq_eq_false_iff_ne.mpr hw]
  | trans h _ ih ih' => exact (ih hd).trans (ih' ((h.map _).nodup_iff.mp hd))

theorem placeholders_injective {name name' : Text} (h : w ∈ placeholders name)
    (h' : w ∈ placeholders name') : name = name' := by
  simp only [placeholders, List.mem_cons, List.not_mem_nil, or_false] at h h'
  rcases h with rfl | rfl | rfl <;> simpa using h'

theorem nodup_fillings (h : (groups.map fun entry ↦ entry.1.plain).Nodup) :
    ((fillings groups).map Prod.fst).Nodup := by
  have hkeys : (fillings groups).map Prod.fst =
      (groups.filter fun entry ↦ !entry.2.isNull).flatMap fun entry ↦
        placeholders entry.1.plain := by
    rw [fillings, List.map_flatMap]
    refine List.flatMap_congr fun entry _ ↦ ?_
    rw [List.map_map]
    exact List.map_id _
  rw [hkeys, List.nodup_flatMap]
  constructor
  · intro entry _
    simp [placeholders]
  · refine ((List.pairwise_map.mp h).sublist List.filter_sublist).imp fun hne w hw hw' ↦ ?_
    exact hne (placeholders_injective hw hw')

theorem fillAtOnce_eq_of_perm {groups' : Mapping} (h : groups'.Perm groups)
    (hd : (groups.map fun entry ↦ entry.1.plain).Nodup) (t : Text) :
    fillAtOnce groups' t = fillAtOnce groups t := by
  have hfillings : (fillings groups').Perm (fillings groups) :=
    (h.filter _).flatMap_right _
  refine List.flatMap_congr fun x _ ↦ ?_
  cases x with
  | char c => rfl
  | slot w =>
    have hkeys := nodup_fillings (((h.map _).nodup_iff).mpr hd)
    rw [fillSlot, fillSlot, lookup_eq_of_perm hfillings hkeys]

instance decidableApart (p p' : Text) : ∀ left ps, Decidable (Apart p p' left ps)
  | _, [] => inferInstanceAs (Decidable True)
  | left, x :: rest =>
    have := decidableApart p p' (left ++ x.text) rest
    inferInstanceAs (Decidable (_ ∧ _))

instance (p v : Text) : Decidable (BeginsIn p v) :=
  inferInstanceAs (Decidable (∃ s ∈ v.tails, s ≠ [] ∧ (s <+: p ∨ p <+: s)))

theorem spares_iff {e e' : Text × Text} : Spares ps e e' ↔
    ((slots ps).contains e.1 = true → ¬BeginsIn e'.1 e.2) ∧ Apart e.1 e'.1 [] ps ∧
      ((slots ps).contains e'.1 = true → e.1 <+: e'.1 → e.1 = e'.1) := by
  simp only [List.contains_iff_mem]
  exact ⟨fun h ↦ ⟨h.value, h.apart, h.shorter⟩, fun h ↦ ⟨h.1, h.2.1, h.2.2⟩⟩

instance (ps : List Piece) (e e' : Text × Text) : Decidable (Spares ps e e') :=
  decidable_of_iff _ spares_iff.symm

theorem undisturbed_iff : Undisturbed filled ps ↔ filled.Pairwise (Spares ps) ∧
    ∀ w ∈ slots ps, ∀ e ∈ filled, e.1 <+: w → (filled.map Prod.fst).contains w = true := by
  simp only [List.contains_iff_mem]
  exact ⟨fun h ↦ ⟨h.spares, h.bound⟩, fun h ↦ ⟨h.1, h.2⟩⟩

instance (filled : List (Text × Text)) (ps : List Piece) : Decidable (Undisturbed filled ps) :=
  decidable_of_iff _ undisturbed_iff.symm

/-- In every order of the variables in which placeholders are undisturbed, filling them is filling
them all at once. -/
theorem substitute_eq_fillAtOnce {groups groups' options : Mapping} {t : Text}
    (hnames : ∀ entry ∈ groups, isIdentifier entry.1.plain = true)
    (hd : (groups.map fun entry ↦ entry.1.plain).Nodup) (hperm : groups'.Perm groups)
    (h : Undisturbed (fillings groups') (pieces (declared options t))) :
    substitute groups' options (.str t) = .str (fillAtOnce groups (declared options t)) := by
  have hnames' : ∀ entry ∈ groups', isIdentifier entry.1.plain = true :=
    fun entry hentry ↦ hnames entry (hperm.mem_iff.mp hentry)
  rw [substitute, fill_eq_fillAtOnce hnames' h, fillAtOnce_eq_of_perm hperm hd]

def texts (entries : List (Text × Text)) : Mapping :=
  entries.map fun entry ↦ (.str entry.1, .str entry.2)

/-- The longer name comes first here, and its value looks like a further placeholder. -/
theorem substitute_idx_before_id :
    (∀ entry ∈ texts [("id", "1"), ("idx", "<x>")], isIdentifier entry.1.plain = true) ∧
    ((texts [("id", "1"), ("idx", "<x>")]).map fun entry ↦ entry.1.plain).Nodup ∧
    (texts [("idx", "<x>"), ("id", "1")]).Perm (texts [("id", "1"), ("idx", "<x>")]) ∧
    Undisturbed (fillings (texts [("idx", "<x>"), ("id", "1")]))
      (pieces (declared (texts [("prefix", "a/")]) ":idx/:id/<other>")) ∧
    substitute (texts [("idx", "<x>"), ("id", "1")]) (texts [("prefix", "a/")])
        (.str ":idx/:id/<other>") =
      .str (fillAtOnce (texts [("id", "1"), ("idx", "<x>")])
        (declared (texts [("prefix", "a/")]) ":idx/:id/<other>")) := by
  have hnames : ∀ entry ∈ texts [("id", "1"), ("idx", "<x>")],
      isIdentifier entry.1.plain = true := by decide
  have hd : ((texts [("id", "1"), ("idx", "<x>")]).map fun entry ↦ entry.1.plain).Nodup := by
    decide
  have hperm : (texts [("idx", "<x>"), ("id", "1")]).Perm (texts [("id", "1"), ("idx", "<x>")]) :=
    .swap _ _ _
  have h : Undisturbed (fillings (texts [("idx", "<x>"), ("id", "1")]))
      (pieces (declared (texts [("prefix", "a/")]) ":idx/:id/<other>")) := by decide
  exact ⟨hnames, hd, hperm, h, substitute_eq_fillAtOnce hnames hd hperm h⟩

example : fillAtOnce (texts [("id", "1"), ("idx", "<x>")]) ":idx/:id/<other>" =
    "<x>/1/<other>".toList := by
  decide

/-- Variables are filled one after the other: the name of one may be the beginning of that of
another one, and what one puts in may be the placeholder of another one. -/
theorem not_forall_substitute_eq :
    (¬∀ (groups options : Mapping) (t : Text),
      (∀ entry ∈ groups, isIdentifier entry.1.plain = true) →
      (groups.map fun entry ↦ entry.1.plain).Nodup →
      substitute groups options (.str t) = .str (fillAtOnce groups (declared options t))) ∧
    ¬∀ (groups groups' options : Mapping) (t : Text),
      (∀ entry ∈ groups, isIdentifier entry.1.plain = true) →
      (groups.map fun entry ↦ entry.1.plain).Nodup → groups'.Perm groups →
      substitute groups' options (.str t) = substitute groups options (.str t) := by
  constructor
  · intro h
    have heq := h (texts [("id", "1"), ("idx", "2")]) [] "x/:idx" (by decide)
      (by decide)
    have hne : (substitute (texts [("id", "1"), ("idx", "2")]) [] (.str "x/:idx")).plain ≠
        (Value.str (fillAtOnce (texts [("id", "1"), ("idx", "2")])
          (declared [] "x/:idx"))).plain := by
      decide
    exact hne (congrArg Value.plain heq)
  · intro h
    have heq := h (texts [("a", "<b>"), ("b", "1")]) (texts [("b", "1"), ("a", "<b>")]) [] "<a>"
      (by decide) (by decide) (.swap _ _ _)
    have hne : (substitute (texts [("b", "1"), ("a", "<b>")]) [] (.str "<a>")).plain ≠
        (substitute (texts [("a", "<b>"), ("b", "1")]) [] (.str "<a>")).plain := by
      decide
    exact hne (congrArg Value.plain heq)

end UrlRouting.Target

import UrlRouting.Proofs.Table.Plain
import UrlRouting.Proofs.Template.Assignment

/-!
Rules made of segments: words and required variables between slashes, then optional variables, and
perhaps a slash at the end. Such a rule is written in parts in one way, the path that it is matched
with in the same way but for the slash at the beginning, and the passes over its expression leave
its parts as they are.
-/

namespace UrlRouting.Template

open Template.Part

/-- A non-empty word of letters and digits of ASCII and underscores. -/
def IsAsciiWord (t : Text) : Prop := t ≠ [] ∧ ∀ c ∈ t, (c.isAlphanum || c == '_') = true

instance (t : Text) : Decidable (IsAsciiWord t) := inferInstanceAs (Decidable (_ ∧ _))

inductive Segment where
  | word (t : Text)
  | required (name : Text)

namespace Segment

def text : Segment → Text
  | word t => t
  | required name => Shorthand.canonical name false

/-- What a segment becomes when variables have values. -/
def render (values : Text → Option Text) : Segment → Text
  | word t => t
  | required name => (values name).getD []

def name? : Segment → Option Text
  | word _ => none
  | required name => some name

def word? : Segment → Option Text
  | word t => some t
  | required _ => none

def parts (lead : Option Char) : Segment → List Part
  | word t => (lead.toList ++ t).map literal
  | required name => [slot lead name false]

end Segment

structure Shape where
  first : Segment
  others : List Segment
  optionals : List Text
  closed : Bool

namespace Shape

variable (s : Shape)

/-- The variables that a URL cannot do without. -/
def required : List Text := (s.first :: s.others).filterMap Segment.name?

def names : List Text := s.required ++ s.optionals

def ending : Text := if s.closed then ['/'] else []

/-- The rule string of the shape. -/
def text : Text :=
  s.first.text ++ (s.others.flatMap fun segment ↦ '/' :: segment.text) ++
    (s.optionals.flatMap fun name ↦ '/' :: Shorthand.canonical name true) ++ s.ending

/-- The URL that the rule stands for when variables have values. -/
def render (values : Text → Option Text) : Text :=
  s.first.render values ++ (s.others.flatMap fun segment ↦ '/' :: segment.render values) ++
    (s.optionals.flatMap fun name ↦ (values name).elim [] ('/' :: ·)) ++ s.ending

structure IsValid : Prop where
  word : ∀ t ∈ (s.first :: s.others).filterMap Segment.word?, IsAsciiWord t
  name : ∀ name ∈ s.names, IsAsciiWord name ∧ Text.isIdentifier name = true
  nodup : s.names.Nodup
  names_ne_nil : s.names ≠ []

/-- Every required variable has a value of its kind, and so have the first few of the optional
ones. -/
structure Assigns (kind : Text → Kind) (values : Text → Option Text) : Prop where
  required : ∀ name ∈ s.required, ∃ v, values name = some v ∧ (kind name).Accepts v
  optional : ∃ front back, s.optionals = front ++ back ∧
    (∀ name ∈ front, ∃ v, values name = some v ∧ (kind name).Accepts v) ∧
    ∀ name ∈ back, values name = none

def body (lead : Option Char) : List Part :=
  s.first.parts lead ++ s.others.flatMap (Segment.parts (some '/'))

def options : List Part := s.optionals.map fun name ↦ slot (some '/') name true

def slash : List Part := if s.closed then [literal '/'] else []

def parts (lead : Option Char) : List Part := s.body lead ++ s.options ++ s.slash

end Shape

variable {s : Shape} {segment : Segment} {kind : Text → Kind} {values : Text → Option Text}
  {lead : Option Char} {name t rest : Text} {parts more : List Part} {c : Char}

/-! ### Texts -/

theorem isWord_of_isAsciiWord (h : IsAsciiWord t) (hc : c ∈ t) : Text.isWord c = true := by
  have hplain := h.2 c hc
  rw [Bool.or_eq_true] at hplain
  rw [Text.isWord, Bool.or_eq_true]
  rcases hplain with hc | hc
  · refine .inr (Bool.of_not_eq_false fun hfalse ↦ ?_)
    rw [Regex.Token.isAlphanum_eq_false hfalse] at hc
    cases hc
  · exact .inl hc

theorem written_map_literal (t : Text) : written (t.map literal) = t := by
  rw [written, List.flatMap_map]
  exact List.flatMap_singleton' t

theorem fill_map_literal (values : Text → Option Text) (t : Text) :
    fill values (t.map literal) = t := by
  rw [fill, List.flatMap_map]
  exact List.flatMap_singleton' t

theorem slot_not_mem_map_literal {optional : Bool} (t : Text) :
    slot lead name optional ∉ t.map literal := by
  intro hmem
  obtain ⟨c, -, hc⟩ := List.mem_map.mp hmem
  cases hc

namespace Segment

/-- The variable of a segment is required, and stands behind what is before the segment. -/
theorem of_slot_mem_parts {lead' : Option Char} {optional : Bool}
    (h : slot lead' name optional ∈ segment.parts lead) : lead' = lead ∧ optional = false := by
  cases segment with
  | word t => exact absurd h (slot_not_mem_map_literal _)
  | required name =>
    cases List.mem_singleton.mp h
    exact ⟨rfl, rfl⟩

theorem written_parts (lead : Option Char) (segment : Segment) :
    written (segment.parts lead) = lead.toList ++ segment.text := by
  cases segment with
  | word t => exact written_map_literal _
  | required name => simp [parts, Part.text, text]

theorem fill_parts (lead : Option Char)
    (h : ∀ name, segment.name? = some name → (values name).isSome = true) :
    fill values (segment.parts lead) = lead.toList ++ segment.render values := by
  cases segment with
  | word t => exact fill_map_literal values _
  | required name =>
    obtain ⟨v, hv⟩ := Option.isSome_iff_exists.mp (h name rfl)
    simp [parts, render, hv]

theorem names_parts (lead : Option Char) (segment : Segment) :
    names (segment.parts lead) = segment.name?.toList := by
  cases segment with
  | word t =>
    rw [names, parts, List.filterMap_map]
    exact List.filterMap_eq_nil_iff.mpr fun _ _ ↦ rfl
  | required name => rfl

end Segment

namespace Shape

theorem written_parts (s : Shape) : written (s.parts none) = s.text := by
  have hothers : written (s.others.flatMap (Segment.parts (some '/'))) =
      s.others.flatMap fun segment ↦ '/' :: segment.text := by
    rw [written, List.flatMap_assoc]
    exact List.flatMap_congr fun segment _ ↦ segment.written_parts (some '/')
  have hoptions : written s.options =
      s.optionals.flatMap fun name ↦ '/' :: Shorthand.canonical name true :=
    List.flatMap_map ..
  have hslash : written s.slash = s.ending := by
    rw [slash, ending]
    split <;> rfl
  rw [parts, body, written_append, written_append, written_append, hothers, hoptions, hslash,
    Segment.written_parts, text]
  rfl

theorem names_parts (s : Shape) (lead : Option Char) : Template.names (s.parts lead) = s.names := by
  have hbody : Template.names (s.body lead) = s.required := by
    rw [body, names_append, Segment.names_parts, required, List.filterMap_cons]
    have hothers : Template.names (s.others.flatMap (Segment.parts (some '/'))) =
        s.others.filterMap Segment.name? := by
      induction s.others with
      | nil => rfl
      | cons segment others ih =>
        rw [List.flatMap_cons, names_append, ih, Segment.names_parts, List.filterMap_cons]
        cases segment.name? <;> rfl
    rw [hothers]
    cases s.first.name? <;> rfl
  have hoptions : Template.names s.options = s.optionals := by
    rw [Template.names, options, List.filterMap_map]
    exact List.filterMap_some
  have hslash : Template.names s.slash = [] := by
    rw [slash]
    split <;> rfl
  rw [parts, names_append, names_append, hbody, hoptions, hslash, List.append_nil, names]

theorem IsValid.isAsciiWord (h : s.IsValid) (hmem : .word t ∈ s.first :: s.others) :
    IsAsciiWord t :=
  h.word t (List.mem_filterMap.mpr ⟨_, hmem, rfl⟩)

theorem IsValid.isPlain_slot (h : s.IsValid) (hname : name ∈ s.names)
    (hlead : lead.all (isSeparator ['/']) = true) (optional : Bool) :
    (slot lead name optional).isPlain (isSeparator ['/']) = true := by
  obtain ⟨hword, -⟩ := h.name name hname
  have hempty : name.isEmpty = false := List.isEmpty_eq_false_iff.mpr hword.1
  have hall : name.all Text.isWord = true :=
    List.all_eq_true.mpr fun c hc ↦ isWord_of_isAsciiWord hword hc
  rw [isPlain, hlead, hempty, hall]
  rfl

theorem IsValid.isPlain_segment (h : s.IsValid) (hmem : segment ∈ s.first :: s.others)
    (hlead : lead.all (isSeparator ['/']) = true) :
    ∀ part ∈ segment.parts lead, part.isPlain (isSeparator ['/']) = true := by
  cases segment with
  | word t =>
    intro part hpart
    obtain ⟨c, hc, rfl⟩ := List.mem_map.mp hpart
    rw [isPlain, Bool.or_eq_true]
    rcases List.mem_append.mp hc with hc | hc
    · exact .inr (Option.all_eq_true .. |>.mp hlead c (Option.mem_toList.mp hc))
    · exact .inl (isWord_of_isAsciiWord (h.isAsciiWord hmem) hc)
  | required name =>
    have hname : name ∈ s.required := List.mem_filterMap.mpr ⟨_, hmem, rfl⟩
    exact List.forall_mem_singleton.mpr
      (h.isPlain_slot (List.mem_append_left _ hname) hlead false)

theorem isPlain_parts (h : s.IsValid) (lead : Option Char)
    (hlead : lead.all (isSeparator ['/']) = true) :
    ∀ part ∈ s.parts lead, part.isPlain (isSeparator ['/']) = true := by
  intro part hpart
  rw [parts, body, List.mem_append, List.mem_append, List.mem_append] at hpart
  rcases hpart with ((hpart | hpart) | hpart) | hpart
  · exact h.isPlain_segment List.mem_cons_self hlead part hpart
  · obtain ⟨segment, hmem, hpart⟩ := List.mem_flatMap.mp hpart
    exact h.isPlain_segment (List.mem_cons_of_mem _ hmem) rfl part hpart
  · obtain ⟨name, hname, rfl⟩ := List.mem_map.mp hpart
    exact h.isPlain_slot (List.mem_append_right _ hname) rfl true
  · rw [slash] at hpart
    split at hpart
    · rw [List.mem_singleton.mp hpart]
      rfl
    · cases hpart

/-! ### Parts of the path -/

theorem parts_ne_slash (h : s.IsValid) (lead : Option Char) : s.parts lead ≠ [literal '/'] := by
  intro he
  refine h.names_ne_nil ?_
  rw [← s.names_parts lead, he]
  rfl

end Shape

/-- Parts of which every variable has its separator are gathered. -/
theorem gather_of_leads {separates : Char → Bool}
    (h : ∀ name optional, slot none name optional ∉ parts) : gather separates parts = parts := by
  induction parts with
  | nil => rfl
  | cons part rest ih =>
    have hrest := ih fun name optional hmem ↦ h name optional (List.mem_cons_of_mem _ hmem)
    cases part with
    | slot lead name optional => rw [gather, hrest]
    | literal c =>
      rw [gather, hrest, attach.eq_def]
      split
      next name optional more =>
        exact absurd (List.mem_cons_of_mem _ List.mem_cons_self) (h name optional)
      next => rfl

namespace Shape

theorem slot_none_not_mem (s : Shape) (optional : Bool) :
    slot none name optional ∉
      s.others.flatMap (Segment.parts (some '/')) ++ s.options ++ s.slash := by
  intro hmem
  rw [List.mem_append, List.mem_append] at hmem
  rcases hmem with (hmem | hmem) | hmem
  · obtain ⟨segment, -, hmem⟩ := List.mem_flatMap.mp hmem
    cases (Segment.of_slot_mem_parts hmem).1
  · obtain ⟨name, -, hname⟩ := List.mem_map.mp hmem
    cases hname
  · rw [slash] at hmem
    split at hmem
    · cases List.mem_singleton.mp hmem
    · cases hmem

/-- The path of a rule has the parts of the rule, with a slash at the beginning. -/
theorem pathParts_parts (h : s.IsValid) :
    pathParts false (s.parts none) = s.parts (some '/') := by
  have htail : ∀ {name optional}, slot none name optional ∉ _ := s.slot_none_not_mem _
  rw [pathParts, if_neg (s.parts_ne_slash h none), if_neg (by decide)]
  cases hfirst : s.first with
  | word t =>
    have hparts (lead : Option Char) : s.parts lead = (lead.toList ++ t).map literal ++
        (s.others.flatMap (Segment.parts (some '/')) ++ s.options ++ s.slash) := by
      rw [parts, body, hfirst, Segment.parts]
      simp only [List.append_assoc]
    rw [hparts none, hparts (some '/')]
    refine gather_of_leads fun name optional hmem ↦ ?_
    rcases List.mem_cons.mp hmem with he | hmem
    · cases he
    rcases List.mem_append.mp hmem with hmem | hmem
    · exact slot_not_mem_map_literal t hmem
    · exact htail hmem
  | required name =>
    have hparts (lead : Option Char) : s.parts lead = slot lead name false ::
        (s.others.flatMap (Segment.parts (some '/')) ++ s.options ++ s.slash) := by
      rw [parts, body, hfirst, Segment.parts]
      simp only [List.append_assoc, List.nil_append, List.cons_append]
    rw [hparts none, hparts (some '/'), gather, gather,
      gather_of_leads fun name optional ↦ htail]
    rfl

end Shape

/-! ### Parts of the expression -/

/-- No slash stands at the end of the parts. -/
def EndsOpen (parts : List Part) : Prop :=
  ∀ part ∈ parts.getLast?, isLiteral (· == '/') part = false

theorem EndsOpen.append (h : EndsOpen parts) (h' : EndsOpen more) : EndsOpen (parts ++ more) := by
  intro part hpart
  rw [List.getLast?_append] at hpart
  cases hlast : more.getLast? with
  | none =>
    rw [hlast, Option.none_or] at hpart
    exact h part hpart
  | some last =>
    rw [hlast, Option.some_or] at hpart
    exact h' part (hlast ▸ hpart)

theorem EndsOpen.flatMap {α : Type} {f : α → List Part} {xs : List α}
    (h : ∀ x ∈ xs, EndsOpen (f x)) : EndsOpen (xs.flatMap f) := by
  induction xs with
  | nil => nofun
  | cons x xs ih =>
    obtain ⟨hx, hxs⟩ := List.forall_mem_cons.mp h
    exact hx.append (ih hxs)

theorem rdropWhile_of_endsOpen (h : EndsOpen parts) :
    parts.rdropWhile (isLiteral (· == '/')) = parts := by
  rw [List.rdropWhile_eq_self_iff]
  intro hne
  rw [Bool.not_eq_true]
  exact h _ (List.getLast?_eq_some_getLast hne)

theorem settle_append {p : Char → Bool} (h : ∀ lead name, slot lead name true ∉ parts)
    (more : List Part) : settle p (parts ++ more) = parts ++ settle p more := by
  induction parts with
  | nil => rfl
  | cons part rest ih =>
    have hrest := ih fun lead name hmem ↦ h lead name (List.mem_cons_of_mem _ hmem)
    cases part with
    | literal c => rw [List.cons_append, settle, hrest, List.cons_append]
    | slot lead name optional =>
      cases optional with
      | false => rw [List.cons_append, settle, hrest, Bool.false_and, List.cons_append]
      | true => exact absurd List.mem_cons_self (h lead name)

theorem Segment.endsOpen_parts (h : ∀ t, segment = .word t → IsAsciiWord t) (lead : Option Char) :
    EndsOpen (segment.parts lead) := by
  cases segment with
  | word t =>
    have hword := h t rfl
    intro part hpart
    rw [Segment.parts, List.getLast?_map, List.getLast?_append] at hpart
    obtain ⟨c, hc, rfl⟩ := Option.map_eq_some_iff.mp hpart
    rw [List.getLast?_eq_some_getLast hword.1, Option.some_or] at hc
    cases hc
    have hlast := hword.2 _ (List.getLast_mem hword.1)
    rw [isLiteral, beq_eq_false_iff_ne]
    intro he
    rw [he] at hlast
    exact absurd hlast (by decide)
  | required name =>
    rintro part hpart
    cases hpart
    rfl

namespace Shape

theorem endsOpen_body (h : s.IsValid) : EndsOpen (s.body (some '/') ++ s.options) := by
  have hsegment (segment : Segment) (hmem : segment ∈ s.first :: s.others) :
      EndsOpen (segment.parts (some '/')) :=
    segment.endsOpen_parts (fun t ht ↦ h.isAsciiWord (ht ▸ hmem)) (some '/')
  have hoptions : EndsOpen s.options := by
    intro part hpart
    rw [options, List.getLast?_map] at hpart
    obtain ⟨name, -, rfl⟩ := Option.map_eq_some_iff.mp hpart
    rfl
  have hothers := EndsOpen.flatMap fun segment hmem ↦
    hsegment segment (List.mem_cons_of_mem _ hmem)
  exact ((hsegment _ List.mem_cons_self).append hothers).append hoptions

/-- Behind the optional variables there is no literal but the slash at the end. -/
theorem settle_body (s : Shape) : settle (isSeparator ['/']) (s.body (some '/') ++ s.options) =
    s.body (some '/') ++ s.options := by
  rw [settle_append]
  · congr 1
    rw [options]
    induction s.optionals with
    | nil => rfl
    | cons name names ih =>
      rw [List.map_cons, settle, ih]
      cases names <;> rfl
  · intro lead name hmem
    rcases List.mem_append.mp hmem with hmem | hmem
    · cases (Segment.of_slot_mem_parts hmem).2
    · obtain ⟨segment, -, hmem⟩ := List.mem_flatMap.mp hmem
      cases (Segment.of_slot_mem_parts hmem).2

/-- The expression of a rule has the parts of its path. -/
theorem standing_parts (h : s.IsValid) :
    standing '/' false (s.parts (some '/')) = s.parts (some '/') := by
  have hopen := endsOpen_body h
  rw [standing, if_neg (s.parts_ne_slash h _)]
  cases hclosed : s.closed with
  | true =>
    have hslash : s.slash = [literal '/'] := by rw [slash, hclosed, if_pos rfl]
    rw [parts, hslash, List.getLast?_concat, List.rdropWhile_concat_pos _ _ _ rfl,
      rdropWhile_of_endsOpen hopen, settle_body]
    rfl
  | false =>
    have hslash : s.slash = [] := by rw [slash, hclosed, if_neg (by decide)]
    have hne : ((s.body (some '/') ++ s.options).getLast? == some (literal '/')) = false := by
      rw [beq_eq_false_iff_ne]
      intro he
      cases hopen _ he
    rw [parts, hslash, List.append_nil, rdropWhile_of_endsOpen hopen, settle_body, hne]
    exact List.append_nil _

theorem slot_mem_parts (s : Shape) (h : name ∈ s.required) :
    slot (some '/') name false ∈ s.parts (some '/') := by
  obtain ⟨segment, hmem, hname⟩ := List.mem_filterMap.mp h
  cases segment with
  | word t => cases hname
  | required name' =>
    cases hname
    refine List.mem_append_left _ (List.mem_append_left _ ?_)
    have hbody : s.body (some '/') = (s.first :: s.others).flatMap (Segment.parts (some '/')) := rfl
    rw [hbody]
    exact List.mem_flatMap.mpr ⟨_, hmem, List.mem_singleton_self _⟩

/-! ### Rendering -/

/-- What a URL is made of, required variables having values. -/
theorem fill_parts (h : ∀ name ∈ s.required, (values name).isSome = true) :
    fill values (s.parts (some '/')) = '/' :: s.render values := by
  have hothers (segments : List Segment)
      (h : ∀ name ∈ segments.filterMap Segment.name?, (values name).isSome = true) :
      fill values (segments.flatMap (Segment.parts (some '/'))) =
        segments.flatMap fun segment ↦ '/' :: segment.render values := by
    induction segments with
    | nil => rfl
    | cons segment segments ih =>
      rw [List.flatMap_cons, List.flatMap_cons, fill_append, ih, Segment.fill_parts]
      · rfl
      · intro name hname
        exact h name (List.mem_filterMap.mpr ⟨_, List.mem_cons_self, hname⟩)
      · intro name hname
        obtain ⟨segment', hmem, hname⟩ := List.mem_filterMap.mp hname
        exact h name (List.mem_filterMap.mpr ⟨_, List.mem_cons_of_mem _ hmem, hname⟩)
  have hbody : fill values (s.body (some '/')) =
      (s.first :: s.others).flatMap fun segment ↦ '/' :: segment.render values := hothers _ h
  have hoptions : fill values s.options =
      s.optionals.flatMap fun name ↦ (values name).elim [] ('/' :: ·) := List.flatMap_map ..
  have hslash : fill values s.slash = s.ending := by
    rw [slash, ending]
    split <;> rfl
  rw [parts, fill_append, fill_append, hbody, hoptions, hslash, render]
  simp only [List.flatMap_cons, List.cons_append, List.append_assoc]

end Shape

/-! ### Reading values back -/

/-- The text is empty or begins with a slash. -/
def Slashed (t : Text) : Prop := ∀ c, t.head? = some c → c = '/'

theorem slashed_cons (t : Text) : Slashed ('/' :: t) := fun _ hc ↦ (Option.some.inj hc).symm

theorem Slashed.append (h : Slashed t) (hrest : Slashed rest) : Slashed (t ++ rest) := by
  cases t with
  | nil => exact hrest
  | cons c t => exact h

theorem slashed_flatMap {α : Type} {f : α → Text} (h : ∀ x, Slashed (f x)) (xs : List α) :
    Slashed (xs.flatMap f) := by
  induction xs with
  | nil => nofun
  | cons x xs ih => exact (h x).append ih

theorem slashed_fill_slot (values : Text → Option Text) (name : Text) :
    Slashed ((values name).elim [] ((some '/').toList ++ ·)) := by
  cases values name with
  | none => nofun
  | some v => exact slashed_cons v

theorem legible_append (h : Legible kind values (fill values more ++ rest) parts)
    (h' : Legible kind values rest more) : Legible kind values rest (parts ++ more) := by
  induction parts with
  | nil => exact h'
  | cons part parts ih =>
    cases part with
    | literal c => exact ih h
    | slot lead name optional =>
      obtain ⟨hslot, hparts⟩ := h
      rw [← List.append_assoc, ← fill_append] at hslot
      exact ⟨hslot, ih hparts⟩

theorem legible_map_literal (t : Text) : Legible kind values rest (t.map literal) := by
  induction t with
  | nil => trivial
  | cons c t ih => exact ih

theorem legible_segments {segments : List Segment} (hrest : Slashed rest)
    (h : ∀ name ∈ segments.filterMap Segment.name?,
      ∃ v, values name = some v ∧ (kind name).Accepts v) :
    Legible kind values rest (segments.flatMap (Segment.parts (some '/'))) := by
  have hfill (segment : Segment) : Slashed (fill values (segment.parts (some '/'))) := by
    cases segment with
    | word t => exact slashed_cons _
    | required name =>
      rw [Segment.parts, fill_slot, fill_nil, List.append_nil]
      exact slashed_fill_slot values name
  induction segments with
  | nil => trivial
  | cons segment segments ih =>
    have hsegments :
        Slashed (fill values (segments.flatMap (Segment.parts (some '/'))) ++ rest) := by
      rw [fill, List.flatMap_assoc]
      exact (slashed_flatMap hfill segments).append hrest
    refine legible_append ?_ (ih fun name hname ↦ h name ?_)
    · cases segment with
      | word t => exact legible_map_literal _
      | required name =>
        obtain ⟨v, hv, haccepts⟩ := h name (List.mem_filterMap.mpr ⟨_, List.mem_cons_self, rfl⟩)
        refine ⟨?_, trivial⟩
        rw [hv]
        exact ⟨haccepts, hsegments⟩
    · obtain ⟨segment', hmem, hname⟩ := List.mem_filterMap.mp hname
      exact List.mem_filterMap.mpr ⟨_, List.mem_cons_of_mem _ hmem, hname⟩

theorem fill_options (values : Text → Option Text) (names : List Text) :
    fill values (names.map fun name ↦ slot (some '/') name true) =
      names.flatMap fun name ↦ (values name).elim [] ((some '/').toList ++ ·) := List.flatMap_map ..

theorem legible_options {front back : List Text} (hrest : rest ∈ [[], ['/']])
    (hfront : ∀ name ∈ front, ∃ v, values name = some v ∧ (kind name).Accepts v)
    (hback : ∀ name ∈ back, values name = none) :
    Legible kind values rest ((front ++ back).map fun name ↦ slot (some '/') name true) := by
  have hslashed : Slashed rest := by
    rcases List.mem_pair.mp hrest with rfl | rfl
    · nofun
    · exact slashed_cons []
  induction front with
  | nil =>
    induction back with
    | nil => trivial
    | cons name back ih =>
      obtain ⟨hname, hnames⟩ := List.forall_mem_cons.mp hback
      refine ⟨?_, ih hnames⟩
      have hnone : fill values (back.map fun name ↦ slot (some '/') name true) = [] := by
        rw [fill_options]
        exact List.flatMap_eq_nil_iff.mpr fun name hmem ↦ by rw [hnames name hmem]; rfl
      rw [hname]
      refine ⟨rfl, ?_⟩
      rw [hnone]
      exact hrest
  | cons name front ih =>
    obtain ⟨⟨v, hv, haccepts⟩, hnames⟩ := List.forall_mem_cons.mp hfront
    refine ⟨?_, ih hnames⟩
    rw [hv]
    refine ⟨haccepts, ?_⟩
    have hfill := (slashed_flatMap (slashed_fill_slot values) (front ++ back)).append hslashed
    rw [← fill_options] at hfill
    exact hfill

namespace Shape

/-- The values of a rendered URL can be told apart. -/
theorem legible_parts (h : s.Assigns kind values) :
    Legible kind values [] (s.parts (some '/')) := by
  obtain ⟨front, back, hnames, hfront, hback⟩ := h.optional
  have hending : fill values s.slash ++ [] ∈ [[], ['/']] := by
    rw [slash]
    split <;> simp
  have hslash : Legible kind values [] s.slash := by
    rw [slash]
    split <;> trivial
  have hslashed : Slashed (fill values s.slash ++ []) := by
    rcases List.mem_pair.mp hending with he | he
    · rw [he]
      nofun
    · rw [he]
      exact slashed_cons []
  have hoptions : Legible kind values (fill values s.slash ++ []) s.options := by
    rw [options, hnames]
    exact legible_options hending hfront hback
  have hbody : Legible kind values (fill values s.options ++ (fill values s.slash ++ []))
      (s.body (some '/')) := by
    have hslashed' : Slashed (fill values s.options ++ (fill values s.slash ++ [])) := by
      rw [options, fill_options]
      exact (slashed_flatMap (slashed_fill_slot values) _).append hslashed
    exact legible_segments hslashed' h.required
  exact legible_append (legible_append hbody hoptions) hslash

end Shape

end UrlRouting.Template

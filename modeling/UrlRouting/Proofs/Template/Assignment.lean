import UrlRouting.Proofs.Regex.Matching
import UrlRouting.Proofs.Template.Parsed
import UrlRouting.Proofs.Value.Entries
import UrlRouting.Table.CompiledRule

/-!
What the tree of a rule in parts matches: texts in which each variable that takes part is replaced
by a value, while literals stand for themselves. A match leaves the values in the groups with names
(`leads_nodes`), and a text that is made from values is matched with these values in the groups
(`takes_nodes`).
-/

namespace UrlRouting

/-- The value that captures hold under a name. -/
def Captures.value (captures : Captures) (name : Text) : Option Text := (captures.lookup name).join

namespace Template

open Template.Part Regex

variable {ignoreCase : Bool} {kind : Text → Kind} {part : Part} {parts : List Part} {c : Char}
  {name t v rest : Text} {optional complete : Bool} {lead : Option Char} {p q r : Place}
  {g g' : Nat} {values : Text → Option Text}

/-! ### Values -/

namespace Kind

/-- The characters that the values of a kind are made of, the dot of a decimal fraction apart. -/
def admits : Kind → Char → Bool
  | any, c => Text.isWord c || c == '.'
  | int, c | float, c => Text.isDigit c
  | alpha, c => c.isAlpha
  | alphaNum, c => c.isAlphanum
  | alphaDash, c => c.isAlphanum || c == '-' || c == '_'

/-- The value is a non-empty word of characters that the kind admits. -/
def IsRun (kind : Kind) (v : Text) : Prop := v ≠ [] ∧ ∀ c ∈ v, kind.admits c = true

/-- The values of a kind. -/
def Accepts : Kind → Text → Prop
  | float, v => ∃ whole fraction, v = whole ++ '.' :: fraction ∧
      float.IsRun whole ∧ float.IsRun fraction
  | kind, v => kind.IsRun v

theorem contains_set (kind : Kind) (c : Char) : (kind.set false).contains c = kind.admits c := by
  have hfolding : (Modes.initial false).folding = .exact := rfl
  have hcategory (category : Category) :
      SetItem.contains .exact c (.category category false false) = category.holds false c := by
    simp [SetItem.contains]
  have hrange (low high : Char) :
      SetItem.contains .exact c (.range low.toNat high.toNat) = decide (low ≤ c ∧ c ≤ high) := by
    simp [SetItem.contains, Folding.variants, Char.le_def, UInt32.le_iff_toNat_le]
  have hsingle (x : Char) : SetItem.contains .exact c (.single x.toNat) = (c == x) := by
    rw [Bool.eq_iff_iff]
    simp [SetItem.contains, Folding.variants, Char.toNat_inj]
  have hupper : decide ('A' ≤ c ∧ c ≤ 'Z') = c.isUpper := by
    delta Char.isUpper
    simp [Char.le_def]
  have hlower : decide ('a' ≤ c ∧ c ≤ 'z') = c.isLower := by
    delta Char.isLower
    simp [Char.le_def]
  have halpha : c.isAlpha = (c.isUpper || c.isLower) := rfl
  have hdigit : decide ('0' ≤ c ∧ c ≤ '9') = c.isDigit := by simp [Char.isDigit, Char.le_def]
  cases kind <;>
    simp only [Kind.set, items, CharSet.contains, hfolding, List.any_cons, List.any_nil, hcategory,
      hrange, hsingle, Category.holds, admits, Bool.or_false, Bool.bne_false, hupper, hlower,
      hdigit, Char.isAlphanum, halpha, Bool.or_assoc]

theorem admits_slash (kind : Kind) : kind.admits '/' = false := by cases kind <;> decide

end Kind

theorem contains_single (c x : Char) : (single false c).contains x = (x == c) := by
  rw [Bool.eq_iff_iff]
  simp [single, CharSet.contains, SetItem.contains, Modes.initial, Modes.folding,
    Folding.variants, Char.toNat_inj]

/-- The text that parts stand for when variables have values; those without one are left out. -/
def fill (values : Text → Option Text) (parts : List Part) : Text :=
  parts.flatMap fun
    | literal c => [c]
    | slot lead name _ => (values name).elim [] (lead.toList ++ ·)

@[simp] theorem fill_nil (values : Text → Option Text) : fill values [] = [] := rfl

@[simp] theorem fill_literal (values : Text → Option Text) (c : Char) (parts : List Part) :
    fill values (literal c :: parts) = c :: fill values parts := rfl

@[simp] theorem fill_slot (values : Text → Option Text) (lead : Option Char) (name : Text)
    (optional : Bool) (parts : List Part) : fill values (slot lead name optional :: parts) =
      (values name).elim [] (lead.toList ++ ·) ++ fill values parts := rfl

@[simp] theorem fill_append (values : Text → Option Text) (parts more : List Part) :
    fill values (parts ++ more) = fill values parts ++ fill values more := List.flatMap_append

/-! ### Groups -/

/-- No group behind the first `g` holds a value. -/
def Below (g : Nat) (p : Place) : Prop := ∀ n, g < n → p.groups.lookup n = none

/-- From one place to another, only groups behind the first `g` and up to the `g'`th get values. -/
structure Between (g g' : Nat) (p q : Place) : Prop where
  kept : ∀ n ≤ g, q.groups.lookup n = p.groups.lookup n
  below : Below g' q

namespace Between

theorem refl (h : Below g p) : Between g g p p := ⟨fun _ _ ↦ rfl, h⟩

theorem trans {g'' : Nat} (hle : g ≤ g') (h : Between g g' p q) (h' : Between g' g'' q r) :
    Between g g'' p r :=
  ⟨fun n hn ↦ (h'.kept n (hn.trans hle)).trans (h.kept n hn), h'.below⟩

theorem skip (h : Below g p) (hle : g ≤ g') : Between g g' p p :=
  ⟨fun _ _ ↦ rfl, fun n hn ↦ h n (Nat.lt_of_le_of_lt hle hn)⟩

end Between

theorem Between.cons_slot (h : Between g (g + 2) p q)
    (h' : Between (g + 2) (g + 2 + 2 * (names parts).length) q r) :
    Between g (g + 2 * (names (slot lead name optional :: parts)).length) p r := by
  have hcount : g + 2 * (names (slot lead name optional :: parts)).length =
      g + 2 + 2 * (names parts).length := by
    simp only [names, List.filterMap_cons, Part.name?, List.length_cons]
    omega
  rw [hcount]
  exact h.trans (Nat.le_add_right g 2) h'

/-- The place behind the value of a variable, with the separator before it in a group of its own. -/
def pastValue (p : Place) (g : Nat) (separator v : Text) : Place :=
  { p.past (separator ++ v) with groups := (g + 1, separator ++ v) :: (g + 2, v) :: p.groups }

theorem lookup_pastValue (p : Place) (g : Nat) (separator v : Text) (n : Nat) :
    (pastValue p g separator v).groups.lookup n =
      if n = g + 1 then some (separator ++ v) else if n = g + 2 then some v
      else p.groups.lookup n := by
  simp only [pastValue, List.lookup_cons, beq_eq_decide]
  split <;> split <;> simp_all

theorem between_pastValue (h : Below g p) (separator v : Text) :
    Between g (g + 2) p (pastValue p g separator v) := by
  constructor
  · intro n hn
    rw [lookup_pastValue, if_neg (by omega), if_neg (by omega)]
  · intro n hn
    rw [lookup_pastValue, if_neg (by omega), if_neg (by omega)]
    exact h n (by omega)

/-! ### Where the nodes of parts lead -/

namespace Kind

/-- The character may be part of a value of the kind. -/
def spans (ignoreCase : Bool) (kind : Kind) (c : Char) : Bool :=
  (kind.set ignoreCase).contains c || (single ignoreCase '.').contains c

theorem leads_nodes (ignoreCase : Bool) (kind : Kind) :
    (Node.sequence (kind.nodes ignoreCase)).Leads fun p q ↦
      ∃ t, (∀ c ∈ t, kind.spans ignoreCase c = true) ∧ (ignoreCase = false → kind.Accepts t) ∧
        t <+: p.after ∧ q = p.past t := by
  have hrun (kind : Kind) : (kind.run ignoreCase).Leads fun p q ↦
      ∃ t, (∀ c ∈ t, kind.spans ignoreCase c = true) ∧ (ignoreCase = false → kind.IsRun t) ∧
        t <+: p.after ∧ q = p.past t := by
    refine (Node.Leads.run _).mono fun p q ↦ ?_
    rintro ⟨t, hne, ht, hprefix, rfl⟩
    refine ⟨t, fun c hc ↦ by rw [spans, ht c hc, Bool.true_or], ?_, hprefix, rfl⟩
    rintro rfl
    exact ⟨hne, fun c hc ↦ (contains_set kind c).symm.trans (ht c hc)⟩
  cases kind with
  | float =>
    refine (Node.Leads.sequence_cons (hrun float) (.sequence_cons (.char _)
      (.sequence_cons (hrun float) .sequence_nil))).mono fun p q ↦ ?_
    rintro ⟨_, ⟨whole, hwhole, hdigits, ⟨more, hmore⟩, rfl⟩, _, ⟨c, hc, ⟨rest, hrest⟩, rfl⟩, _,
      ⟨fraction, hfraction, hdigits', hprefix, rfl⟩, rfl⟩
    have hafter : (p.past whole).after = more := Place.after_past hmore.symm
    rw [hafter] at hrest
    have hafter' : ((p.past whole).past [c]).after = rest :=
      Place.after_past (hafter.trans hrest.symm)
    rw [hafter'] at hprefix
    refine ⟨whole ++ ([c] ++ fraction), ?_, ?_, ?_, ?_⟩
    · intro x hx
      rcases List.mem_append.mp hx with hx | hx
      · exact hwhole x hx
      rcases List.mem_append.mp hx with hx | hx
      · rw [List.mem_singleton.mp hx, spans, hc, Bool.or_true]
      · exact hfraction x hx
    · rintro rfl
      rw [contains_single, beq_iff_eq] at hc
      exact ⟨whole, fraction, hc ▸ rfl, hdigits rfl, hdigits' rfl⟩
    · rw [← hmore, List.prefix_append_right_inj, ← hrest, List.prefix_append_right_inj]
      exact hprefix
    · rw [Place.past_past, Place.past_past]
  | _ => exact hrun _

end Kind

theorem leads_lead {R : Place → Place → Prop} {ns : List Regex.Node}
    (h : (Node.sequence ns).Leads R) :
    (Node.sequence ((lead.toList.map fun c ↦ .char (single ignoreCase c)) ++ ns)).Leads fun p q ↦
      ∃ t, (ignoreCase = false → t = lead.toList) ∧ t <+: p.after ∧ R (p.past t) q := by
  cases lead with
  | none => exact h.mono fun p q hR ↦ ⟨[], fun _ ↦ rfl, List.nil_prefix, hR⟩
  | some c =>
    refine (Node.Leads.sequence_cons (.char _) h).mono fun p q ↦ ?_
    rintro ⟨_, ⟨x, hx, hprefix, rfl⟩, hR⟩
    refine ⟨[x], ?_, hprefix, hR⟩
    rintro rfl
    rw [contains_single, beq_iff_eq] at hx
    rw [hx]
    rfl

/-- The place follows a text that parts match, and the groups of the variables hold its values. -/
structure Fills (ignoreCase : Bool) (kind : Text → Kind) (g : Nat) (parts : List Part)
    (p q : Place) : Prop where
  between : Between g (g + 2 * (names parts).length) p q
  spans : ∀ entry ∈ groupNames g parts, ∀ v, q.groups.lookup entry.2 = some v →
    ∀ c ∈ v, (kind entry.1).spans ignoreCase c = true
  filled : ∀ values : Text → Option Text,
    (∀ entry ∈ groupNames g parts, q.groups.lookup entry.2 = values entry.1) →
      (∀ lead name, slot lead name false ∈ parts → (values name).isSome = true) ∧
      (ignoreCase = false → p.after = fill values parts ++ q.after)

/-- The node of a variable leads to behind a value. -/
theorem leads_slot (ignoreCase : Bool) (kind : Text → Kind) (g : Nat) (lead : Option Char)
    (name : Text) (optional : Bool) :
    ((slot lead name optional).node ignoreCase kind g).Leads fun p q ↦
      (∃ separator v, (ignoreCase = false → separator = lead.toList) ∧
        (∀ c ∈ v, (kind name).spans ignoreCase c = true) ∧ separator ++ v <+: p.after ∧
          q = pastValue p g separator v) ∨ (optional = true ∧ q = p) := by
  have hbody : (Node.capture (g + 1) (Node.sequence
      ((lead.toList.map fun c ↦ .char (single ignoreCase c)) ++
        [.capture (g + 2) (Node.sequence ((kind name).nodes ignoreCase))]))).Leads fun p q ↦
      ∃ separator v, (ignoreCase = false → separator = lead.toList) ∧
        (∀ c ∈ v, (kind name).spans ignoreCase c = true) ∧ separator ++ v <+: p.after ∧
          q = pastValue p g separator v := by
    refine (Node.Leads.capture (g + 1) (leads_lead (.sequence_cons
      (.capture (g + 2) (Kind.leads_nodes ignoreCase (kind name))) .sequence_nil))).mono
      fun p q ↦ ?_
    rintro ⟨_, ⟨separator, hseparator, ⟨more, hmore⟩, _, ⟨_, ⟨v, hv, -, ⟨rest, hrest⟩, rfl⟩, rfl⟩,
      rfl⟩, rfl⟩
    have hafter : (p.past separator).after = more := Place.after_past hmore.symm
    rw [hafter] at hrest
    have hwhole : p.after = separator ++ v ++ rest := by
      rw [← hmore, ← hrest, List.append_assoc]
    have hlast : ((p.past separator).past v).after = rest :=
      Place.after_past (hafter.trans hrest.symm)
    refine ⟨separator, v, hseparator, hv, ⟨rest, hwhole.symm⟩, ?_⟩
    have hgroup : p.upTo ((p.past separator).past v) = separator ++ v :=
      Place.upTo_of_after (by rw [hlast, hwhole])
    have hvalue : (p.past separator).upTo ((p.past separator).past v) = v :=
      Place.upTo_of_after (by rw [hlast, hafter, hrest])
    rw [pastValue, ← Place.past_past, ← hgroup, hvalue]
    rfl
  cases optional with
  | false => exact hbody.mono fun p q hq ↦ .inl hq
  | true => exact hbody.optional.mono fun p q hq ↦ hq.imp_right fun he ↦ ⟨rfl, he⟩

/-- The place follows what the node of a variable matches, and the group of the variable holds its
value, if it has one. -/
structure FillsSlot (ignoreCase : Bool) (kind : Kind) (g : Nat) (lead : Option Char)
    (optional : Bool) (p q : Place) : Prop where
  between : Between g (g + 2) p q
  spans : ∀ v, q.groups.lookup (g + 2) = some v → ∀ c ∈ v, kind.spans ignoreCase c = true
  required : optional = false → (q.groups.lookup (g + 2)).isSome = true
  after : ignoreCase = false →
    p.after = (q.groups.lookup (g + 2)).elim [] (lead.toList ++ ·) ++ q.after

theorem fillsSlot_of_leads (ignoreCase : Bool) (kind : Text → Kind) (g : Nat) (lead : Option Char)
    (name : Text) (optional : Bool) :
    ((slot lead name optional).node ignoreCase kind g).Leads fun p q ↦
      Below g p → FillsSlot ignoreCase (kind name) g lead optional p q := by
  refine (leads_slot ignoreCase kind g lead name optional).mono fun p q hslot hbelow ↦ ?_
  rcases hslot with ⟨separator, v, hseparator, hv, ⟨more, hmore⟩, rfl⟩ | ⟨rfl, rfl⟩
  · have hlookup : (pastValue p g separator v).groups.lookup (g + 2) = some v := by
      rw [lookup_pastValue, if_neg (by omega), if_pos rfl]
    refine ⟨between_pastValue hbelow separator v, ?_, fun _ ↦ by rw [hlookup]; rfl,
      fun hexact ↦ ?_⟩
    · rintro _ he
      rw [hlookup] at he
      exact Option.some.inj he ▸ hv
    · have hafter : (pastValue p g separator v).after = more := Place.after_past hmore.symm
      rw [hlookup, hafter, Option.elim_some, ← hseparator hexact, hmore]
  · have hnone := hbelow (g + 2) (by omega)
    refine ⟨.skip hbelow (by omega), ?_, nofun, fun _ ↦ ?_⟩
    · intro v he
      rw [hnone] at he
      cases he
    · rw [hnone]
      rfl

namespace Fills

theorem literal {x : Char} (hx : ignoreCase = false → x = c) (hstands : [x] <+: p.after)
    (h : Fills ignoreCase kind g parts (p.past [x]) q) :
    Fills ignoreCase kind g (literal c :: parts) p q := by
  obtain ⟨more, hmore⟩ := hstands
  refine ⟨⟨h.between.kept, h.between.below⟩, h.spans, fun values hvalues ↦ ?_⟩
  obtain ⟨hrequired, htail⟩ := h.filled values hvalues
  refine ⟨fun lead name hmem ↦ ?_, fun hexact ↦ ?_⟩
  · rcases List.mem_cons.mp hmem with he | hmem
    · cases he
    · exact hrequired lead name hmem
  · have htail := htail hexact
    rw [Place.after_past hmore.symm] at htail
    rw [← hmore, htail, hx hexact, fill_literal]
    rfl

theorem slot (h : FillsSlot ignoreCase (kind name) g lead optional p q)
    (hrest : Fills ignoreCase kind (g + 2) parts q r) :
    Fills ignoreCase kind g (slot lead name optional :: parts) p r := by
  have hkept := hrest.between.kept (g + 2) (Nat.le_refl _)
  refine ⟨h.between.cons_slot hrest.between, ?_, fun values hvalues ↦ ?_⟩
  · refine List.forall_mem_cons.mpr ⟨fun v hv ↦ h.spans v ?_, hrest.spans⟩
    rw [← hkept]
    exact hv
  · obtain ⟨hvalue, hothers⟩ := List.forall_mem_cons.mp hvalues
    obtain ⟨hrequired, htail⟩ := hrest.filled values hothers
    refine ⟨fun lead' name' hmem ↦ ?_, fun hexact ↦ ?_⟩
    · rcases List.mem_cons.mp hmem with he | hmem
      · cases he
        rw [← hvalue, hkept]
        exact h.required rfl
      · exact hrequired lead' name' hmem
    · rw [h.after hexact, htail hexact, fill_slot, ← hvalue, ← hkept, List.append_assoc]

end Fills

theorem leads_nodes (ignoreCase : Bool) (kind : Text → Kind) (g : Nat) (parts : List Part) :
    (Node.sequence (nodes ignoreCase kind g parts)).Leads fun p q ↦
      Below g p → Fills ignoreCase kind g parts p q := by
  induction parts generalizing g with
  | nil =>
    refine Node.Leads.sequence_nil.mono fun p q ↦ ?_
    rintro rfl hbelow
    exact ⟨.refl hbelow, nofun, fun _ _ ↦ ⟨nofun, fun _ ↦ rfl⟩⟩
  | cons part rest ih =>
    cases part with
    | literal c =>
      refine (Node.Leads.sequence_cons (.char _) (ih g)).mono fun p r ↦ ?_
      rintro ⟨_, ⟨x, hx, hprefix, rfl⟩, hfills⟩ hbelow
      refine .literal (fun hexact ↦ ?_) hprefix (hfills hbelow)
      rwa [hexact, contains_single, beq_iff_eq] at hx
    | slot lead name optional =>
      refine (Node.Leads.sequence_cons (fillsSlot_of_leads ignoreCase kind g lead name optional)
        (ih (g + 2))).mono fun p r ↦ ?_
      rintro ⟨q, hslot, hfills⟩ hbelow
      have hq := hslot hbelow
      exact .slot hq (hfills hq.between.below)

/-! ### What the nodes of parts take -/

namespace Kind

variable {kind : Kind}

theorem takes_nodes (hv : kind.Accepts v) (hafter : p.after = v ++ rest)
    (hstop : ∀ c, rest.head? = some c → c = '/') :
    (Node.sequence (kind.nodes false)).Takes p (p.past v) := by
  have hrun {kind : Kind} {p : Place} {v rest : Text} (hv : kind.IsRun v)
      (hafter : p.after = v ++ rest)
      (hstop : ∀ c, rest.head? = some c → kind.admits c = false) :
      (kind.run false).Takes p (p.past v) :=
    .run hv.1 (fun c hc ↦ (contains_set kind c).trans (hv.2 c hc))
      (fun c hc ↦ (contains_set kind c).trans (hstop c hc)) hafter
  have hslash (kind : Kind) : ∀ c, rest.head? = some c → kind.admits c = false := by
    intro c hc
    rw [hstop c hc, admits_slash]
  cases kind with
  | float =>
    obtain ⟨whole, fraction, rfl, hwhole, hfraction⟩ := hv
    rw [List.append_assoc] at hafter
    have hdot : (p.past whole).after = '.' :: (fraction ++ rest) := Place.after_past hafter
    have hlast : ((p.past whole).past ['.']).after = fraction ++ rest := Place.after_past hdot
    have hpast : p.past (whole ++ '.' :: fraction) =
        ((p.past whole).past ['.']).past fraction := by
      rw [Place.past_past, Place.past_past]
      simp
    rw [hpast]
    refine .sequence_cons (hrun hwhole hafter ?_) (.sequence_cons (.char ?_ hdot)
      (.sequence_cons (hrun hfraction hlast (hslash float)) (.sequence_nil _)))
    · rintro c hc
      cases hc
      decide
    · rw [contains_single]
      decide
  | _ => exact hrun hv hafter (hslash _)

/-- The values of a kind are the texts that its pattern matches as a whole. -/
theorem accepts_iff : kind.Accepts v ↔ ∃ r, Regex.parse false kind.text = .ok r ∧
    (r.root.run (Place.start v) fun p ↦ if p.after = [] then some p else none).isSome = true := by
  have hparse : Regex.parse false kind.text = .ok ⟨Node.sequence (kind.nodes false), []⟩ := by
    cases kind <;> decide
  constructor
  · intro hv
    have hafter : ((Place.start v).past v).after = [] :=
      Place.after_past (List.append_nil v).symm
    have htakes := takes_nodes (p := Place.start v) hv (List.append_nil v).symm
      (fun c hc ↦ by cases hc) fun p ↦ if p.after = [] then some p else none
    rw [if_pos hafter] at htakes
    exact ⟨_, hparse, (htakes rfl).symm ▸ rfl⟩
  · rintro ⟨r, hr, hsome⟩
    rw [hparse] at hr
    cases hr
    obtain ⟨out, hout⟩ := Option.isSome_iff_exists.mp hsome
    obtain ⟨q, ⟨t, -, haccepts, ⟨rest, hrest⟩, rfl⟩, hend⟩ := leads_nodes false kind _ _ _ hout
    have hafter : ((Place.start v).past t).after = rest := Place.after_past hrest.symm
    rw [hafter] at hend
    split at hend
    next hnil =>
      rw [hnil, List.append_nil] at hrest
      have hv : t = v := hrest
      exact hv ▸ haccepts rfl
    next => cases hend

theorem fails_nodes (hstop : ∀ c, p.after.head? = some c → c = '/') :
    (Node.sequence (kind.nodes false)).Fails p := by
  have hrun (kind : Kind) : (kind.run false).Fails p := by
    refine .run fun c hc ↦ ?_
    rw [hstop c hc, contains_set, admits_slash]
  cases kind <;> exact .sequence (hrun _)

end Kind

/-- The values in a text are what its parts take: a slash or the end follows the value of a
variable, and at most a last slash is left where a variable has none. -/
def Legible (kind : Text → Kind) (values : Text → Option Text) (rest : Text) : List Part → Prop
  | [] => True
  | literal _ :: parts => Legible kind values rest parts
  | slot _ name optional :: parts =>
    (match values name with
    | some v => (kind name).Accepts v ∧ ∀ c, (fill values parts ++ rest).head? = some c → c = '/'
    | none => optional = true ∧ fill values parts ++ rest ∈ [[], ['/']]) ∧
    Legible kind values rest parts

theorem takes_lead {ns : List Regex.Node} (hafter : p.after = lead.toList ++ rest)
    (h : (Node.sequence ns).Takes (p.past lead.toList) q) :
    (Node.sequence ((lead.toList.map fun c ↦ .char (single false c)) ++ ns)).Takes p q := by
  cases lead with
  | none => exact h
  | some c =>
    exact .sequence_cons (.char ((contains_single c c).trans (beq_self_eq_true c)) hafter) h

theorem takes_slot (kind : Text → Kind) (g : Nat) (lead : Option Char) (name : Text)
    (optional : Bool) (hv : (kind name).Accepts v) (hafter : p.after = lead.toList ++ v ++ rest)
    (hstop : ∀ c, rest.head? = some c → c = '/') :
    ((slot lead name optional).node false kind g).Takes p (pastValue p g lead.toList v) := by
  rw [List.append_assoc] at hafter
  have hlead : (p.past lead.toList).after = v ++ rest := Place.after_past hafter
  have hlast : ((p.past lead.toList).past v).after = rest := Place.after_past hlead
  have hgroup : p.upTo ((p.past lead.toList).past v) = lead.toList ++ v :=
    Place.upTo_of_after (by rw [hlast, hafter, List.append_assoc])
  have hvalue : (p.past lead.toList).upTo ((p.past lead.toList).past v) = v :=
    Place.upTo_of_after (by rw [hlast, hlead])
  have hbody := Node.Takes.capture (g + 1) (takes_lead hafter (.sequence_cons
    (.capture (g + 2) (Kind.takes_nodes hv hlead hstop)) (.sequence_nil _)))
  have hplace : pastValue p g lead.toList v =
      { (p.past lead.toList).past v with
        groups := (g + 1, p.upTo ((p.past lead.toList).past v)) ::
          (g + 2, (p.past lead.toList).upTo ((p.past lead.toList).past v)) :: p.groups } := by
    rw [pastValue, ← Place.past_past, hgroup, hvalue]
  rw [hplace]
  cases optional with
  | false => exact hbody
  | true => exact hbody.optional

/-- An optional variable takes no part where at most a slash is left. -/
theorem takes_absent (kind : Text → Kind) (g : Nat) (lead : Option Char) (name : Text)
    (hafter : p.after ∈ [[], ['/']]) : ((slot lead name true).node false kind g).Takes p p := by
  have hstop : ∀ c, p.after.head? = some c → c = '/' := by
    rcases List.mem_pair.mp hafter with h | h <;> simp [h]
  refine Node.Takes.skip (.capture _ ?_)
  cases lead with
  | none => exact .sequence (.capture _ (Kind.fails_nodes hstop))
  | some c =>
    rcases List.mem_pair.mp hafter with h | h
    · exact .sequence (.char (by simp [h]))
    · refine .sequence_char h (.sequence (.capture _ (Kind.fails_nodes ?_)))
      have hpast : (p.past ['/']).after = [] := Place.after_past h
      simp [hpast]

/-- The place follows a text that is filled with values, and the groups of the variables hold
them. -/
structure Holds (g : Nat) (parts : List Part) (values : Text → Option Text) (p q : Place) :
    Prop where
  between : Between g (g + 2 * (names parts).length) p q
  held : ∀ entry ∈ groupNames g parts, q.groups.lookup entry.2 = values entry.1

theorem takes_nodes (hbelow : Below g p) (hafter : p.after = fill values parts ++ rest)
    (h : Legible kind values rest parts) :
    ∃ q, (Node.sequence (nodes false kind g parts)).Takes p q ∧ q.after = rest ∧
      Holds g parts values p q := by
  induction parts generalizing g p with
  | nil => exact ⟨p, .sequence_nil p, hafter, .refl hbelow, nofun⟩
  | cons part parts ih =>
    cases part with
    | literal c =>
      obtain ⟨q, htakes, hq, hheld⟩ := ih (p := p.past [c]) hbelow (Place.after_past hafter) h
      exact ⟨q, .sequence_cons (.char ((contains_single c c).trans (beq_self_eq_true c)) hafter)
        htakes, hq, ⟨hheld.between.kept, hheld.between.below⟩, hheld.held⟩
    | slot lead name optional =>
      obtain ⟨hslot, hrest⟩ := h
      have hnext : ∃ q, ((slot lead name optional).node false kind g).Takes p q ∧
          q.after = fill values parts ++ rest ∧ Between g (g + 2) p q ∧
          q.groups.lookup (g + 2) = values name := by
        rw [fill_slot, List.append_assoc] at hafter
        cases hv : values name with
        | some v =>
          rw [hv] at hslot hafter
          have hwhole : p.after = lead.toList ++ v ++ (fill values parts ++ rest) := hafter
          refine ⟨_, takes_slot kind g lead name optional hslot.1 hwhole hslot.2,
            Place.after_past hwhole, between_pastValue hbelow _ _, ?_⟩
          rw [lookup_pastValue, if_neg (by omega), if_pos rfl]
        | none =>
          rw [hv] at hslot hafter
          have hwhole : p.after = fill values parts ++ rest := hafter
          obtain ⟨rfl, htail⟩ := hslot
          exact ⟨p, takes_absent kind g lead name (hwhole ▸ htail), hwhole,
            .skip hbelow (by omega), hbelow _ (by omega)⟩
      obtain ⟨q, hnode, hq, hbetween, hlookup⟩ := hnext
      obtain ⟨r, htakes, hr, hheld⟩ := ih hbetween.below hq hrest
      refine ⟨r, .sequence_cons hnode htakes, hr, hbetween.cons_slot hheld.between,
        List.forall_mem_cons.mpr ⟨?_, hheld.held⟩⟩
      exact (hheld.between.kept (g + 2) (Nat.le_refl _)).trans hlookup

/-! ### The whole tree -/

theorem fst_groupNames (g : Nat) (parts : List Part) :
    (groupNames g parts).map Prod.fst = names parts := by
  induction parts generalizing g with
  | nil => rfl
  | cons part rest ih =>
    cases part with
    | literal c => exact ih g
    | slot lead name optional => exact congrArg (name :: ·) (ih (g + 2))

theorem leads_end (complete : Bool) :
    (Node.sequence (if complete then [.anchor .closingEnd] else [])).Leads fun p q ↦
      q = p ∧ (complete = true → p.after = [] ∨ p.after = ['\n']) := by
  cases complete with
  | false => exact Node.Leads.sequence_nil.mono fun p q he ↦ ⟨he, nofun⟩
  | true =>
    refine (Node.Leads.anchor .closingEnd).mono fun p q ⟨hfits, he⟩ ↦ ⟨he, fun _ ↦ ?_⟩
    simpa [Place.fits] using hfits

theorem takes_end (h : complete = true → p.after = [] ∨ p.after = ['\n']) :
    (Node.sequence (if complete then [.anchor .closingEnd] else [])).Takes p p := by
  cases complete with
  | false => exact .sequence_nil p
  | true =>
    refine .anchor ?_
    rw [Place.fits]
    rcases h rfl with h | h <;> rw [h] <;> rfl

theorem captures_fill (complete : Bool) (h : Legible kind values [] parts) :
    (treeOf false kind complete parts).captures? (fill values parts) =
      some ((names parts).map fun name ↦ (name, values name)) := by
  have hbelow : Below 0 (Place.start (fill values parts)) := fun _ _ ↦ rfl
  obtain ⟨q, htakes, hq, hheld⟩ := takes_nodes (g := 0) hbelow (List.append_nil _).symm h
  have hmatch : (treeOf false kind complete parts).matchStart? (fill values parts) = some q :=
    Node.Takes.sequence_cons (.anchor rfl) (htakes.sequence_append (takes_end fun _ ↦ .inl hq))
      some rfl
  have hgroups : (treeOf false kind complete parts).namedGroups q =
      (names parts).map fun name ↦ (name, values name) := by
    rw [namedGroups, ← fst_groupNames 0 parts, List.map_map]
    exact List.map_congr_left fun entry hentry ↦ congrArg (entry.1, ·) (hheld.held entry hentry)
  rw [Regex.captures?, hmatch, Option.map_some, hgroups]

theorem value_namedGroups {complete : Bool} (hnames : (names parts).Nodup)
    {entry : Text × Nat} (hentry : entry ∈ groupNames 0 parts) (q : Place) :
    Captures.value ((treeOf ignoreCase kind complete parts).namedGroups q) entry.1 =
      q.groups.lookup entry.2 := by
  have hlookup : List.lookup entry.1 ((treeOf ignoreCase kind complete parts).namedGroups q) =
      some (q.groups.lookup entry.2) := by
    refine lookup_of_mem ?_ (List.mem_map_of_mem hentry)
    rw [namedGroups, List.map_map]
    exact (fst_groupNames 0 parts).symm ▸ hnames
  rw [Captures.value, hlookup]
  rfl

/-- A match is of the text that its values fill the parts to. -/
theorem fill_of_matchStart? {complete : Bool} (hnames : (names parts).Nodup)
    (h : (treeOf ignoreCase kind complete parts).matchStart? t = some q) :
    (∀ lead name, slot lead name false ∈ parts → (Captures.value
      ((treeOf ignoreCase kind complete parts).namedGroups q) name).isSome = true) ∧
    (∀ name ∈ names parts, ∀ v, Captures.value
        ((treeOf ignoreCase kind complete parts).namedGroups q) name = some v →
      ∀ c ∈ v, (kind name).spans ignoreCase c = true) ∧
    (ignoreCase = false → t = fill (Captures.value
      ((treeOf ignoreCase kind complete parts).namedGroups q)) parts ++ q.after) ∧
    (complete = true → q.after = [] ∨ q.after = ['\n']) := by
  obtain ⟨out, ⟨_, ⟨-, rfl⟩, _, hfills, rfl, hclosed⟩, hlast⟩ :=
    Node.Leads.sequence_cons (.anchor .textStart)
      ((leads_nodes ignoreCase kind 0 parts).sequence_append (leads_end complete)) _ _ _ h
  cases hlast
  have hfills := hfills fun _ _ ↦ rfl
  have hvalue : ∀ entry ∈ groupNames 0 parts, q.groups.lookup entry.2 =
      Captures.value ((treeOf ignoreCase kind complete parts).namedGroups q) entry.1 :=
    fun entry hentry ↦ (value_namedGroups hnames hentry q).symm
  obtain ⟨hrequired, hafter⟩ := hfills.filled _ hvalue
  refine ⟨hrequired, fun name hname v hv ↦ ?_, hafter, hclosed⟩
  rw [← fst_groupNames 0 parts] at hname
  obtain ⟨entry, hentry, rfl⟩ := List.mem_map.mp hname
  exact hfills.spans entry hentry v ((hvalue entry hentry).trans hv)

theorem fill_of_captures {complete : Bool} {groups : Captures} (hnames : (names parts).Nodup)
    (h : (treeOf ignoreCase kind complete parts).captures? t = some groups) :
    (∀ lead name, slot lead name false ∈ parts → (groups.value name).isSome = true) ∧
    (∀ name ∈ names parts, ∀ v, groups.value name = some v →
      ∀ c ∈ v, (kind name).spans ignoreCase c = true) ∧
    (ignoreCase = false → ∃ rest, t = fill groups.value parts ++ rest ∧
      (complete = true → rest = [] ∨ rest = ['\n'])) := by
  obtain ⟨q, hq, rfl⟩ := Option.map_eq_some_iff.mp h
  obtain ⟨hrequired, hspans, hfilled, hclosed⟩ := fill_of_matchStart? hnames hq
  exact ⟨hrequired, hspans, fun hexact ↦ ⟨q.after, hfilled hexact, hclosed⟩⟩

end Template

end UrlRouting

import UrlRouting.Proofs.Regex.Renaming
import UrlRouting.Proofs.Table.Plain
import UrlRouting.Proofs.Template.Assignment
import UrlRouting.Proofs.Text.Ascii

/-!
Rules in parts under another delimiter. Over the characters of ASCII apart from the delimiter, the
tree of the delimited parts matches delimited texts as the tree of the parts with slashes matches
texts with slashes.
-/

namespace UrlRouting.Template

open Template.Part Regex Text

variable {d c x : Char} {t u : Text} {part : Part} {parts : List Part} {kind : Text → Kind}

/-! ### Characters -/

/-- Of two characters that match, both are letters or digits, or they are the same. -/
theorem mem_variants {ignoreCase : Bool} (hc : IsAscii c) (hx : IsAscii x)
    (hplain : c.isAlphanum = false ∨ x.isAlphanum = false) :
    x ∈ (Modes.initial ignoreCase).folding.variants c ↔ x = c := by
  cases ignoreCase with
  | false => exact List.mem_singleton
  | true =>
    constructor
    · intro hmem
      cases hletter : c.isAlphanum with
      | true =>
        rcases mem_caseVariants hc hletter hmem with h | h
        · exact absurd h (Bool.eq_false_iff.mp (hplain.resolve_left (by simp [hletter])))
        · exact absurd hx h
      | false =>
        exact (mem_caseVariants_of_not_alphanum hc hletter hmem).resolve_right (absurd hx)
    · rintro rfl
      exact self_mem_caseVariants hc (hplain.elim id id)

theorem contains_single_iff {ignoreCase : Bool} : (single ignoreCase x).contains c = true ↔
    x ∈ (Modes.initial ignoreCase).folding.variants c := by
  simp [single, CharSet.contains, SetItem.contains, Char.toNat_inj]

/-- A character that is no letter or digit is in a set of ASCII if it is without regard to case. -/
theorem any_variants {ignoreCase : Bool} {p : Char → Bool} (hc : IsAscii c)
    (hplain : c.isAlphanum = false) (hp : ∀ v, ¬IsAscii v → p v = false) :
    ((Modes.initial ignoreCase).folding.variants c).any p = p c := by
  have hself : c ∈ (Modes.initial ignoreCase).folding.variants c :=
    (mem_variants hc hc (.inl hplain)).mpr rfl
  have hothers : ∀ v ∈ (Modes.initial ignoreCase).folding.variants c, v = c ∨ ¬IsAscii v := by
    cases ignoreCase with
    | false => exact fun v hv ↦ .inl (List.mem_singleton.mp hv)
    | true => exact fun v hv ↦ mem_caseVariants_of_not_alphanum hc hplain hv
  rw [Bool.eq_iff_iff, List.any_eq_true]
  constructor
  · rintro ⟨v, hv, hpv⟩
    rcases hothers v hv with rfl | hv
    · exact hpv
    · rw [hp v hv] at hpv
      cases hpv
  · exact fun hpc ↦ ⟨c, hself, hpc⟩

theorem Kind.contains_set_of_not_alphanum (ignoreCase : Bool) (kind : Kind) (hc : IsAscii c)
    (hplain : c.isAlphanum = false) :
    (kind.set ignoreCase).contains c = (kind.set false).contains c := by
  have hitem : ∀ item ∈ kind.items, item.contains (Modes.initial ignoreCase).folding c =
      item.contains (Modes.initial false).folding c := by
    have hrange (low high : Char) (hhigh : IsAscii high) :
        SetItem.contains (Modes.initial ignoreCase).folding c (.range low.toNat high.toNat) =
          SetItem.contains (Modes.initial false).folding c (.range low.toNat high.toNat) := by
      have hforeign : ∀ v, ¬IsAscii v → decide (low.toNat ≤ v.toNat ∧ v.toNat ≤ high.toNat) =
          false := by
        intro v hv
        rw [IsAscii] at hhigh hv
        rw [decide_eq_false_iff_not]
        omega
      rw [SetItem.contains, SetItem.contains, any_variants hc hplain hforeign,
        any_variants hc hplain hforeign]
    have hsingle (x : Char) (hx : IsAscii x) :
        SetItem.contains (Modes.initial ignoreCase).folding c (.single x.toNat) =
          SetItem.contains (Modes.initial false).folding c (.single x.toNat) := by
      have hforeign : ∀ v, ¬IsAscii v → (v.toNat == x.toNat) = false := by
        intro v hv
        rw [IsAscii] at hx hv
        rw [beq_eq_false_iff_ne]
        omega
      rw [SetItem.contains, SetItem.contains, any_variants hc hplain hforeign,
        any_variants hc hplain hforeign]
    cases kind <;> simp only [items, List.forall_mem_cons, List.not_mem_nil, false_imp_iff,
      implies_true, and_true]
    · exact ⟨rfl, hsingle '.' (by decide)⟩
    · rfl
    · rfl
    · exact ⟨hrange 'A' 'Z' (by decide), hrange 'a' 'z' (by decide)⟩
    · exact ⟨hrange 'A' 'Z' (by decide), hrange 'a' 'z' (by decide), hrange '0' '9' (by decide)⟩
    · exact ⟨hrange 'A' 'Z' (by decide), hrange 'a' 'z' (by decide), hrange '0' '9' (by decide),
        hsingle '-' (by decide), hsingle '_' (by decide)⟩
  rw [Kind.set, Kind.set, CharSet.contains, CharSet.contains]
  dsimp only
  rw [Bool.bne_false, Bool.bne_false, Bool.eq_iff_iff, List.any_eq_true, List.any_eq_true]
  exact exists_congr fun item ↦ and_congr_right fun hmem ↦ by rw [hitem item hmem]

theorem Kind.admits_eq_false (kind : Kind) (hd : IsPunctuation d)
    (hne : d ≠ '.' ∧ d ≠ '-' ∧ d ≠ '_') : kind.admits d = false := by
  have hall : ∀ kind ∈ [any, int, float, alpha, alphaNum, alphaDash],
      IsPunctuation d → (d ≠ '.' ∧ d ≠ '-' ∧ d ≠ '_') → kind.admits d = false :=
    forall_ascii (P := fun d ↦ ∀ kind ∈ [any, int, float, alpha, alphaNum, alphaDash],
      IsPunctuation d → (d ≠ '.' ∧ d ≠ '-' ∧ d ≠ '_') → kind.admits d = false)
      (by decide) hd.isAscii
  exact hall kind (by cases kind <;> decide) hd hne

namespace Delimits

variable (hd : Delimits d)

include hd

theorem contains_single (ignoreCase : Bool) (hx : Apart d x) (hc : Apart d c) :
    (single ignoreCase (delimit d x)).contains (delimit d c) =
      (single ignoreCase x).contains c := by
  have hslash : IsAscii '/' ∧ '/'.isAlphanum = false := by decide
  rw [Bool.eq_iff_iff, contains_single_iff, contains_single_iff]
  by_cases hcs : c = '/'
  · rw [hcs, delimit_slash, mem_variants hslash.1 hx.1 (.inl hslash.2)]
    by_cases hxs : x = '/'
    · rw [hxs, delimit_slash, mem_variants hd.punctuation.isAscii hd.punctuation.isAscii
        (.inl hd.punctuation.2.2)]
      exact iff_of_true rfl rfl
    · rw [delimit_of_ne hxs, mem_variants hd.punctuation.isAscii hx.1 (.inl hd.punctuation.2.2)]
      exact iff_of_false hx.2 hxs
  · rw [delimit_of_ne hcs]
    by_cases hxs : x = '/'
    · rw [hxs, delimit_slash, mem_variants hc.1 hd.punctuation.isAscii (.inr hd.punctuation.2.2),
        mem_variants hc.1 hslash.1 (.inr hslash.2)]
      exact iff_of_false (Ne.symm hc.2) (Ne.symm hcs)
    · rw [delimit_of_ne hxs]

theorem contains_set (ignoreCase : Bool) (kind : Kind) (hc : Apart d c) :
    (kind.set ignoreCase).contains (delimit d c) = (kind.set ignoreCase).contains c := by
  by_cases hcs : c = '/'
  · have hunderscore : d ≠ '_' := by
      rintro rfl
      exact absurd hd.isDelimiter (by decide)
    rw [hcs, delimit_slash, kind.contains_set_of_not_alphanum ignoreCase hd.punctuation.isAscii
      hd.punctuation.2.2, kind.contains_set_of_not_alphanum ignoreCase (by decide) (by decide),
      kind.contains_set, kind.contains_set, kind.admits_slash,
      kind.admits_eq_false hd.punctuation ⟨hd.ne_point, hd.ne_hyphen, hunderscore⟩]
  · rw [delimit_of_ne hcs]

/-! ### Trees -/

theorem mirrors_char (ignoreCase : Bool) (hx : Apart d x) :
    (Node.char (single ignoreCase x)).Mirrors (delimit d) (Apart d)
      (.char (single ignoreCase (delimit d x))) :=
  .char fun _ hc ↦ hd.contains_single ignoreCase hx hc

theorem mirrors_kind (ignoreCase : Bool) (kind : Kind) :
    (Node.sequence (kind.nodes ignoreCase)).Mirrors (delimit d) (Apart d)
      (.sequence (kind.nodes ignoreCase)) := by
  have hrun (kind : Kind) :
      (kind.run ignoreCase).Mirrors (delimit d) (Apart d) (kind.run ignoreCase) :=
    .loop 1 none (.char fun _ hc ↦ hd.contains_set ignoreCase kind hc)
  have hpoint : Apart d '.' := ⟨by decide, Ne.symm hd.ne_point⟩
  cases kind with
  | float =>
    exact .sequence_cons (hrun .float) (.sequence_cons (hd.mirrors_char ignoreCase hpoint)
      (.sequence_cons (hrun .float) .sequence_nil))
  | _ => exact hrun _

end Delimits

theorem groupNames_delimited (groups : Nat) (parts : List Part) :
    groupNames groups (delimited d parts) = groupNames groups parts := by
  induction parts generalizing groups with
  | nil => rfl
  | cons part rest ih =>
    cases part with
    | literal c => exact ih groups
    | slot lead name optional => exact congrArg ((name, groups + 2) :: ·) (ih (groups + 2))

/-- The literals of a part and the separator in it are in an alphabet. -/
def Part.IsOver (alphabet : Char → Prop) : Part → Prop
  | literal c => alphabet c
  | slot lead _ _ => ∀ c ∈ lead, alphabet c

namespace Delimits

variable (hd : Delimits d)

include hd

theorem mirrors_node (ignoreCase : Bool) (kind : Text → Kind) (groups : Nat)
    (h : part.IsOver (Apart d)) : (part.node ignoreCase kind groups).Mirrors (delimit d) (Apart d)
      ((part.map (delimit d)).node ignoreCase kind groups) := by
  cases part with
  | literal c => exact hd.mirrors_char ignoreCase h
  | slot lead name optional =>
    have hname := Node.Mirrors.capture (groups + 2) (hd.mirrors_kind ignoreCase (kind name))
    have hlead : (Node.sequence ((lead.toList.map fun c ↦ .char (single ignoreCase c)) ++
        [.capture (groups + 2) (.sequence ((kind name).nodes ignoreCase))])).Mirrors (delimit d)
        (Apart d) (.sequence (((lead.map (delimit d)).toList.map fun c ↦
          .char (single ignoreCase c)) ++
            [.capture (groups + 2) (.sequence ((kind name).nodes ignoreCase))])) := by
      cases lead with
      | none => exact hname
      | some c => exact .sequence_cons (hd.mirrors_char ignoreCase (h c rfl)) hname
    have hbody := Node.Mirrors.capture (groups + 1) hlead
    cases optional with
    | false => exact hbody
    | true => exact .loop 0 (some 1) hbody

theorem mirrors_nodes (ignoreCase : Bool) (kind : Text → Kind) (groups : Nat)
    (h : ∀ part ∈ parts, part.IsOver (Apart d)) :
    (Node.sequence (nodes ignoreCase kind groups parts)).Mirrors (delimit d) (Apart d)
      (.sequence (nodes ignoreCase kind groups (delimited d parts))) := by
  induction parts generalizing groups with
  | nil => exact .sequence_nil
  | cons part rest ih =>
    obtain ⟨hpart, hrest⟩ := List.forall_mem_cons.mp h
    have hname : (part.map (delimit d)).name? = part.name? := by cases part <;> rfl
    rw [delimited, List.map_cons, nodes, nodes, hname]
    exact .sequence_cons (hd.mirrors_node ignoreCase kind groups hpart) (ih _ hrest)

theorem delimit_eq_lineFeed (hc : Apart d c) : delimit d c = '\n' ↔ c = '\n' := by
  rw [delimit]
  split
  next hslash =>
    refine iff_of_false ?_ ?_
    · rintro rfl
      exact absurd hd.punctuation (by decide)
    · rw [hslash]
      decide
  next => exact Iff.rfl

theorem matchStart?_delimited (ignoreCase complete : Bool) (kind : Text → Kind)
    (h : ∀ part ∈ parts, part.IsOver (Apart d)) (ht : ∀ c ∈ t, Apart d c) :
    (treeOf ignoreCase kind complete (delimited d parts)).matchStart? (t.map (delimit d)) =
      ((treeOf ignoreCase kind complete parts).matchStart? t).map (Place.map (delimit d)) := by
  have hend : (Node.sequence (if complete then [.anchor .closingEnd] else [])).Mirrors (delimit d)
      (Apart d) (.sequence (if complete then [.anchor .closingEnd] else [])) := by
    cases complete with
    | false => exact .sequence_nil
    | true => exact .closingEnd fun _ hc ↦ hd.delimit_eq_lineFeed hc
  exact Node.Mirrors.sequence_cons .textStart
    ((hd.mirrors_nodes ignoreCase kind 0 h).sequence_append hend) (Place.start t) some some ht
    fun _ _ ↦ rfl

/-- The delimiter and the slash are in no value. -/
theorem spans_eq_false (ignoreCase : Bool) (kind : Kind) (hc : c = '/' ∨ c = d) :
    kind.spans ignoreCase c = false := by
  have hslash : (kind.set ignoreCase).contains '/' = false := by
    rw [kind.contains_set_of_not_alphanum ignoreCase (by decide) (by decide), kind.contains_set,
      kind.admits_slash]
  have hset : (kind.set ignoreCase).contains d = false := by
    rw [← delimit_slash d, hd.contains_set ignoreCase kind ⟨by decide, Ne.symm hd.ne_slash⟩, hslash]
  have hpoint (hascii : IsAscii c) (hplain : c.isAlphanum = false) (hne : c ≠ '.') :
      (single ignoreCase '.').contains c = false := by
    rw [Bool.eq_false_iff, Ne, contains_single_iff, mem_variants hascii (by decide) (.inl hplain)]
    exact Ne.symm hne
  rw [Kind.spans, Bool.or_eq_false_iff]
  rcases hc with rfl | rfl
  · exact ⟨hslash, hpoint (by decide) (by decide) (by decide)⟩
  · exact ⟨hset, hpoint hd.punctuation.isAscii hd.punctuation.2.2 hd.ne_point⟩

/-- Delimited parts capture from a delimited text what the parts capture from the text. -/
theorem captures?_delimited (ignoreCase complete : Bool) (hnames : (names parts).Nodup)
    (h : ∀ part ∈ parts, part.IsOver (Apart d)) (ht : ∀ c ∈ t, Apart d c) :
    (treeOf ignoreCase kind complete (delimited d parts)).captures? (t.map (delimit d)) =
      (treeOf ignoreCase kind complete parts).captures? t := by
  rw [Regex.captures?, hd.matchStart?_delimited ignoreCase complete kind h ht, Option.map_map,
    Regex.captures?]
  cases hmatch : (treeOf ignoreCase kind complete parts).matchStart? t with
  | none => rfl
  | some q =>
    have hcaptures : (treeOf ignoreCase kind complete parts).captures? t =
        some ((treeOf ignoreCase kind complete parts).namedGroups q) := by
      rw [Regex.captures?, hmatch, Option.map_some]
    obtain ⟨-, hspans, -⟩ := fill_of_captures hnames hcaptures
    change some ((groupNames 0 (delimited d parts)).map fun entry ↦
        (entry.1, (q.map (delimit d)).groups.lookup entry.2)) =
      some ((groupNames 0 parts).map fun entry ↦ (entry.1, q.groups.lookup entry.2))
    rw [groupNames_delimited, Option.some_inj]
    refine List.map_congr_left fun entry hentry ↦ congrArg (entry.1, ·) ?_
    change (q.groups.map fun span ↦ (span.1, span.2.map (delimit d))).lookup entry.2 = _
    rw [lookup_map]
    cases hvalue : q.groups.lookup entry.2 with
    | none => rfl
    | some v =>
      have hname : entry.1 ∈ names parts :=
        fst_groupNames 0 parts ▸ List.mem_map_of_mem hentry
      have hplain := hspans _ hname v ((value_namedGroups hnames hentry q).trans hvalue)
      have hfixed : v.map (delimit d) = v.map id := by
        refine List.map_congr_left fun c hc ↦ delimit_of_ne ?_
        rintro rfl
        have hslash := hplain _ hc
        rw [hd.spans_eq_false ignoreCase _ (.inl rfl)] at hslash
        cases hslash
      rw [Option.map_some, hfixed, List.map_id]

end Delimits

/-! ### Delimited parts -/

theorem isSeparator_delimit_eq (hc : Apart d c) :
    isSeparator [d] (delimit d c) = isSeparator ['/'] c := by
  rw [Bool.eq_iff_iff, isSeparator_singleton, isSeparator_singleton, delimit_eq_iff hc]
  by_cases hslash : c = '/'
  · rw [hslash, delimit_slash]
    simp
  · rw [delimit_of_ne hslash]

theorem isLiteral_map (h : part.IsOver (Apart d)) :
    isLiteral (· == d) (part.map (delimit d)) = isLiteral (· == '/') part := by
  cases part with
  | literal c =>
    rw [Part.map, isLiteral, isLiteral, Bool.eq_iff_iff, beq_iff_eq, beq_iff_eq,
      delimit_eq_iff h]
  | slot lead name optional => rfl

theorem rdropWhile_delimited (h : ∀ part ∈ parts, part.IsOver (Apart d)) :
    (delimited d parts).rdropWhile (isLiteral (· == d)) =
      delimited d (parts.rdropWhile (isLiteral (· == '/'))) := by
  induction parts using List.reverseRecOn with
  | nil => rfl
  | append_singleton parts part ih =>
    have hpart := h part (List.mem_append_right _ List.mem_cons_self)
    have hparts := ih fun part hmem ↦ h part (List.mem_append_left _ hmem)
    rw [delimited, List.map_append, List.map_singleton, List.rdropWhile_concat,
      List.rdropWhile_concat, isLiteral_map hpart]
    split
    · exact hparts
    · rw [delimited, List.map_append, List.map_singleton]

theorem settle_delimited (h : ∀ part ∈ parts, part.IsOver (Apart d)) :
    settle (isSeparator [d]) (delimited d parts) =
      delimited d (settle (isSeparator ['/']) parts) := by
  induction parts with
  | nil => rfl
  | cons part rest ih =>
    obtain ⟨hpart, hrest⟩ := List.forall_mem_cons.mp h
    have hleads : leads (isSeparator [d]) (delimited d rest) =
        leads (isSeparator ['/']) rest := by
      cases rest with
      | nil => rfl
      | cons part rest =>
        cases part with
        | literal c => exact isSeparator_delimit_eq (hrest _ List.mem_cons_self)
        | slot lead name optional => rfl
    cases part with
    | literal c => exact congrArg (literal (delimit d c) :: ·) (ih hrest)
    | slot lead name optional =>
      change slot _ _ (optional && !leads _ (delimited d rest)) :: settle _ (delimited d rest) = _
      rw [hleads, ih hrest]
      rfl

theorem isOver_settle {alphabet : Char → Prop} (p : Char → Bool)
    (h : ∀ part ∈ parts, part.IsOver alphabet) : ∀ part ∈ settle p parts, part.IsOver alphabet := by
  induction parts with
  | nil => exact h
  | cons part rest ih =>
    obtain ⟨hpart, hrest⟩ := List.forall_mem_cons.mp h
    cases part with
    | literal c => exact List.forall_mem_cons.mpr ⟨hpart, ih hrest⟩
    | slot lead name optional => exact List.forall_mem_cons.mpr ⟨hpart, ih hrest⟩

theorem isOver_standing {alphabet : Char → Prop} (dropEnd : Bool) (hd : alphabet d)
    (h : ∀ part ∈ parts, part.IsOver alphabet) :
    ∀ part ∈ standing d dropEnd parts, part.IsOver alphabet := by
  rw [standing]
  split
  · exact h
  · intro part hmem
    rcases List.mem_append.mp hmem with hmem | hmem
    · exact isOver_settle _ (fun part hmem ↦ h part ((List.rdropWhile_prefix _ _).subset hmem))
        part hmem
    · split at hmem
      · rw [List.mem_singleton.mp hmem]
        exact hd
      · cases hmem

theorem map_eq_literal (h : part.IsOver (Apart d)) :
    part.map (delimit d) = literal d ↔ part = literal '/' := by
  cases part with
  | literal c =>
    rw [Part.map, Part.literal.injEq, Part.literal.injEq]
    exact delimit_eq_iff h
  | slot lead name optional => constructor <;> (intro he; cases he)

theorem standing_delimited (dropEnd : Bool) (h : ∀ part ∈ parts, part.IsOver (Apart d)) :
    standing d dropEnd (delimited d parts) = delimited d (standing '/' dropEnd parts) := by
  have hone : delimited d parts = [literal d] ↔ parts = [literal '/'] := by
    rcases parts with _ | ⟨part, _ | ⟨other, rest⟩⟩
    · exact iff_of_false (List.cons_ne_nil _ _).symm (List.cons_ne_nil _ _).symm
    · rw [delimited, List.map_singleton, List.cons.injEq, List.cons.injEq,
        map_eq_literal (h part List.mem_cons_self)]
    · exact iff_of_false (by simp [delimited]) (by simp)
  have hlast : ((delimited d parts).getLast? == some (literal d)) =
      (parts.getLast? == some (literal '/')) := by
    rw [delimited, List.getLast?_map, Bool.eq_iff_iff, beq_iff_eq, beq_iff_eq]
    cases hlast : parts.getLast? with
    | none => exact iff_of_false (Option.some_ne_none _).symm (Option.some_ne_none _).symm
    | some last =>
      rw [Option.map_some, Option.some_inj, Option.some_inj]
      exact map_eq_literal (h last (List.mem_of_getLast? hlast))
  have hdropped : ∀ part ∈ parts.rdropWhile (isLiteral (· == '/')), part.IsOver (Apart d) :=
    fun part hmem ↦ h part ((List.rdropWhile_prefix _ _).subset hmem)
  rw [standing, standing, hlast, rdropWhile_delimited h, settle_delimited hdropped]
  by_cases hslash : parts = [literal '/']
  · rw [if_pos hslash, if_pos (hone.mpr hslash)]
  · rw [if_neg hslash, if_neg (mt hone.mp hslash), delimited, delimited, List.map_append]
    split
    · rw [List.map_singleton, Part.map, delimit_slash]
    · rfl

end UrlRouting.Template

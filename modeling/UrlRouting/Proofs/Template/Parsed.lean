import UrlRouting.Proofs.Regex.Names
import UrlRouting.Proofs.Template.Expression
import UrlRouting.Proofs.Template.Kinds

/-!
What the expression of a rule in parts is read as, where all variables have patterns of the known
kinds: a sequence of one node for each part, with two groups for each variable, provided that the
names of the variables are distinct identifiers. Otherwise it is malformed: `parse_fragments`.
-/

namespace UrlRouting.Template

open Template.Part Regex
open Regex.Progress (run_append_of_ok)
open Regex.Token (ne_of_isVerbatim)

variable {s : Setting} {d : Char} {part : Part} {parts : List Part} {c x : Char} {name t : Text}
  {optional ignoreCase : Bool} {lead : Option Char} {kind : Text → Kind} {outer : List Modes}
  {p : Progress}

namespace Part

def name? : Part → Option Text
  | literal _ => none
  | slot _ name _ => some name

def tokens (ignoreCase : Bool) (kind : Text → Kind) : Part → List Token
  | literal c => [.char (single ignoreCase c)]
  | slot lead name optional =>
    [.enter (.capture none)] ++ (lead.toList.map fun c ↦ .char (single ignoreCase c)) ++
      [.enter (.capture (some name))] ++ (kind name).tokens ignoreCase ++ [.leave] ++ [.leave] ++
        if optional then [.count 0 (some 1) .greedy] else []

/-- The node of a part, behind a number of groups. -/
def node (ignoreCase : Bool) (kind : Text → Kind) (groups : Nat) : Part → Node
  | literal c => .char (single ignoreCase c)
  | slot lead name optional =>
    let body := .capture (groups + 1) (Node.sequence
      ((lead.toList.map fun c ↦ .char (single ignoreCase c)) ++
        [.capture (groups + 2) (Node.sequence ((kind name).nodes ignoreCase))]))
    if optional then .loop body 0 (some 1) .greedy else body

end Part

def names (parts : List Part) : List Text := parts.filterMap Part.name?

def nodes (ignoreCase : Bool) (kind : Text → Kind) : Nat → List Part → List Node
  | _, [] => []
  | groups, part :: rest =>
    part.node ignoreCase kind groups ::
      nodes ignoreCase kind (if part.name?.isSome then groups + 2 else groups) rest

/-- The groups of the variables, of which each holds a second group with its name. -/
def groupNames : Nat → List Part → List (Text × Nat)
  | _, [] => []
  | groups, literal _ :: rest => groupNames groups rest
  | groups, slot _ name _ :: rest => (name, groups + 2) :: groupNames (groups + 2) rest

/-- The names are fit for groups. -/
def WellNamed (names : List Text) : Prop := names.Nodup ∧ ∀ name ∈ names, Text.isIdentifier name

instance (names : List Text) : Decidable (WellNamed names) :=
  inferInstanceAs (Decidable (_ ∧ _))

/-! ### Reading fragments -/

theorem reads_separator (ignoreCase : Bool) (outer : List Modes)
    (hd : Config.isDelimiter d = true) (hx : isSeparator [d] x = true) (follow : Text → Prop) :
    Token.Reads (.initial ignoreCase) outer (separator [x]) [.char (single ignoreCase x)] outer
      follow := by
  have hplain : Text.isAlphanumeric x = false := by
    have hword := isWord_eq_false hd hx
    rw [Text.isWord, Bool.or_eq_false_iff] at hword
    exact hword.2
  rcases separator_singleton x with ⟨hs, hx⟩ | hs
  · rw [hs]
    exact .literal _ outer hx (absurd · Bool.false_ne_true) follow
  · rw [hs]
    exact .escaped _ outer hplain follow

theorem reads_literal (ignoreCase : Bool) (outer : List Modes) (hdelimiter : s.delimiter = [d])
    (hd : Config.isDelimiter d = true) (h : (literal c).isPlain (isSeparator [d]) = true)
    (follow : Text → Prop) :
    Token.Reads (.initial ignoreCase) outer (s.fragment (literal c))
      [.char (single ignoreCase c)] outer follow := by
  rw [isPlain, Bool.or_eq_true] at h
  rcases h with hc | hc
  · rw [fragment_word hdelimiter hd hc]
    exact .literal _ outer (isVerbatim_of_isWord hc) (absurd · Bool.false_ne_true) follow
  · rw [fragment_separator hdelimiter hc]
    exact reads_separator ignoreCase outer hd hc follow

/-- A group up to the name of the variable. -/
theorem reads_lead (ignoreCase : Bool) (outer : List Modes) (hd : Config.isDelimiter d = true)
    (h : (slot lead name optional).isPlain (isSeparator [d]) = true) :
    Token.Reads (.initial ignoreCase) outer
      (['('] ++ lead.elim [] (fun c ↦ separator [c]))
      ([.enter (.capture none)] ++ lead.toList.map fun c ↦ .char (single ignoreCase c))
      (.initial ignoreCase :: outer) fun t ↦ t.head? ≠ some '?' := by
  have hlead := (isPlain_slot.mp h).1
  cases lead with
  | none => exact (Token.Reads.group ignoreCase outer).append (.nil _ _ _) fun _ ht ↦ ht
  | some c =>
    have hc : separator [c] ≠ [] := by
      rcases separator_singleton c with ⟨hs, -⟩ | hs <;> simp [hs]
    have hmark : (separator [c]).head? ≠ some '?' := by
      rcases separator_singleton c with ⟨hs, hv⟩ | hs
      · simp [hs, ne_of_isVerbatim hv (x := '?') (by decide)]
      · simp [hs]
    refine (Token.Reads.group ignoreCase outer).append
      (reads_separator ignoreCase _ hd (hlead c rfl) _) fun t _ ↦ ?_
    rwa [Option.elim_some, List.head?_append_of_ne_nil _ hc]

theorem not_mem_name (h : (slot lead name optional).isPlain (isSeparator [d]) = true) :
    '>' ∉ name := fun hmem ↦ absurd ((isPlain_slot.mp h).2.2 _ hmem) (by decide)

theorem fragment_slot_append (hending : s.ending = [])
    (hkind : s.inner name = (kind name).text) (lead : Option Char) (optional : Bool) :
    s.fragment (slot lead name optional) =
      ['('] ++ lead.elim [] (fun c ↦ separator [c]) ++ ("(?P<".toList ++ name ++ ['>']) ++
        (kind name).text ++ [')'] ++ [')'] ++ if optional then ['?'] else [] := by
  rw [fragment_slot, hending, hkind]
  simp

theorem reads_slot (ignoreCase : Bool) (outer : List Modes) (hd : Config.isDelimiter d = true)
    (hending : s.ending = []) (hkind : s.inner name = (kind name).text)
    (h : (slot lead name optional).isPlain (isSeparator [d]) = true)
    (hname : Text.isIdentifier name = true) :
    Token.Reads (.initial ignoreCase) outer (s.fragment (slot lead name optional))
      ((slot lead name optional).tokens ignoreCase kind) outer Token.Reads.unmarked := by
  have hoptional : Token.Reads (.initial ignoreCase) outer (if optional then ['?'] else [])
      (if optional then [.count 0 (some 1) .greedy] else []) outer Token.Reads.unmarked := by
    cases optional with
    | false => exact .nil _ _ _
    | true => exact .optional _ outer
  rw [fragment_slot_append hending hkind, Part.tokens]
  refine ((((((reads_lead ignoreCase outer hd h).append
    (.namedGroup ignoreCase _ (not_mem_name h) hname fun _ ↦ True) ?_).append
    (Kind.reads_text ignoreCase _ (kind name)) ?_).append
    (.leave ignoreCase _ fun _ ↦ True) ?_).append
    (.leave ignoreCase _ fun _ ↦ True) ?_).append hoptional ?_)
  · exact fun t _ ↦ by simp
  · exact fun _ _ ↦ trivial
  · exact fun t _ ↦ ⟨by simp, by simp⟩
  · exact fun _ _ ↦ trivial
  · exact fun _ _ ↦ trivial

theorem rejects_slot (ignoreCase : Bool) (outer : List Modes) (hd : Config.isDelimiter d = true)
    (hending : s.ending = []) (hkind : s.inner name = (kind name).text)
    (h : (slot lead name optional).isPlain (isSeparator [d]) = true)
    (hname : Text.isIdentifier name = false) :
    Token.Rejects (.initial ignoreCase) outer (s.fragment (slot lead name optional)) := by
  rw [fragment_slot_append hending hkind]
  refine ((((((reads_lead ignoreCase outer hd h).rejects
    (.namedGroup ignoreCase _ (not_mem_name h) hname) ?_).append _).append _).append _).append _)
  exact fun t ↦ by simp

theorem unmarked_fragments (hdelimiter : s.delimiter = [d])
    (h : ∀ part ∈ parts, part.isPlain (isSeparator [d]) = true)
    (ht : parts = [] → Token.Reads.unmarked t) :
    Token.Reads.unmarked (parts.flatMap s.fragment ++ t) := by
  cases parts with
  | nil => exact ht rfl
  | cons part rest =>
    have hne : s.fragment part ≠ [] := by
      cases part with
      | literal c =>
        rcases fragment_literal hdelimiter (h _ List.mem_cons_self) with ⟨hf, -⟩ | ⟨hf, -⟩ <;>
          simp [hf]
      | slot lead name optional => simp [fragment_slot]
    have hhead : (List.flatMap s.fragment (part :: rest) ++ t).head? = (s.fragment part).head? := by
      rw [List.flatMap_cons, List.append_assoc, List.head?_append_of_ne_nil _ hne]
    rw [Token.Reads.unmarked, hhead]
    cases part with
    | slot lead name optional => simp [fragment_slot]
    | literal c =>
      have hpart := h _ List.mem_cons_self
      rcases fragment_literal hdelimiter hpart with ⟨hf, hv⟩ | ⟨hf, -⟩
      · simp [hf, ne_of_isVerbatim hv (x := '?') (by decide),
          ne_of_isVerbatim hv (x := '+') (by decide)]
      · simp [hf]

section Reading

variable (hdelimiter : s.delimiter = [d]) (hd : Config.isDelimiter d = true)
  (hending : s.ending = []) (hkind : ∀ name ∈ names parts, s.inner name = (kind name).text)
  (h : ∀ part ∈ parts, part.isPlain (isSeparator [d]) = true)

include hdelimiter hd hending hkind h

theorem reads_fragments (ignoreCase : Bool) (outer : List Modes)
    (hname : ∀ name ∈ names parts, Text.isIdentifier name = true) :
    Token.Reads (.initial ignoreCase) outer (parts.flatMap s.fragment)
      (parts.flatMap (Part.tokens ignoreCase kind)) outer Token.Reads.unmarked := by
  induction parts with
  | nil => exact .nil _ _ _
  | cons part rest ih =>
    obtain ⟨hpart, hrest⟩ := List.forall_mem_cons.mp h
    rw [List.flatMap_cons, List.flatMap_cons]
    have hnext (t : Text) (ht : Token.Reads.unmarked t) :=
      unmarked_fragments hdelimiter hrest (t := t) fun _ ↦ ht
    cases part with
    | literal c =>
      exact (reads_literal ignoreCase outer hdelimiter hd hpart _).append
        (ih hkind hrest hname) hnext
    | slot lead name optional =>
      obtain ⟨hk, hkinds⟩ := List.forall_mem_cons.mp hkind
      obtain ⟨hn, hnames⟩ := List.forall_mem_cons.mp hname
      exact (reads_slot ignoreCase outer hd hending hk hpart hn).append
        (ih hkinds hrest hnames) hnext

theorem rejects_fragments (ignoreCase : Bool) (outer : List Modes)
    (hname : ∃ name ∈ names parts, Text.isIdentifier name = false) :
    Token.Rejects (.initial ignoreCase) outer (parts.flatMap s.fragment) := by
  induction parts with
  | nil => exact absurd hname (by rintro ⟨_, ⟨⟩, _⟩)
  | cons part rest ih =>
    obtain ⟨hpart, hrest⟩ := List.forall_mem_cons.mp h
    rw [List.flatMap_cons]
    cases part with
    | literal c =>
      exact (reads_literal ignoreCase outer hdelimiter hd hpart fun _ ↦ True).rejects
        (ih hkind hrest hname) fun _ ↦ trivial
    | slot lead name optional =>
      obtain ⟨hk, hkinds⟩ := List.forall_mem_cons.mp hkind
      cases hn : Text.isIdentifier name with
      | false => exact (rejects_slot ignoreCase outer hd hending hk hpart hn).append _
      | true =>
        obtain ⟨bad, hmem, hbad⟩ := hname
        rcases List.mem_cons.mp hmem with rfl | hmem
        · rw [hn] at hbad
          cases hbad
        · refine (reads_slot ignoreCase outer hd hending hk hpart hn).rejects
            (ih hkinds hrest ⟨bad, hmem, hbad⟩) fun t ↦ unmarked_fragments hdelimiter hrest ?_
          rintro rfl
          cases hmem

theorem scan_fragments (ignoreCase complete : Bool) : Token.scan ignoreCase
      ('^' :: (parts.flatMap s.fragment ++ if complete then ['$'] else [])) =
    if ∀ name ∈ names parts, Text.isIdentifier name = true then
      .ok (.anchor .textStart :: (parts.flatMap (Part.tokens ignoreCase kind) ++
        if complete then [.anchor .closingEnd] else []))
    else .error .malformed := by
  have hstart := Token.Reads.textStart ignoreCase [] fun _ ↦ True
  by_cases hname : ∀ name ∈ names parts, Text.isIdentifier name = true
  · rw [if_pos hname]
    have hend : Token.Reads (.initial ignoreCase) [] (if complete then ['$'] else [])
        (if complete then [.anchor .closingEnd] else []) [] (· = []) := by
      cases complete with
      | false => exact .nil _ _ _
      | true => exact .anchorEnd _ _ _
    refine (hstart.append ((reads_fragments hdelimiter hd hending hkind h ignoreCase []
      hname).append hend ?_) fun _ _ ↦ trivial).scan rfl
    rintro _ rfl
    cases complete <;> simp [Token.Reads.unmarked]
  · rw [if_neg hname]
    simp only [not_forall, Bool.not_eq_true] at hname
    obtain ⟨name, hmem, hbad⟩ := hname
    exact (hstart.rejects ((rejects_fragments hdelimiter hd hending hkind h ignoreCase []
      ⟨name, hmem, hbad⟩).append _) fun _ ↦ trivial).scan

end Reading

/-! ### The expression as a tree -/

theorem run_append_error {tokens : List Token} {defect : Defect}
    (h : p.run tokens = .error defect) (more : List Token) :
    p.run (tokens ++ more) = .error defect := by
  rw [Progress.run_append, h]
  rfl

theorem run_lead (ignoreCase : Bool) (p : Progress) (lead : Option Char) :
    ∃ pieces, pieces.reverse.map Piece.node =
        (lead.toList.map fun c ↦ .char (single ignoreCase c)) ∧
      p.run (lead.toList.map fun c ↦ .char (single ignoreCase c)) =
        .ok { p with current := { p.current with pieces := pieces ++ p.current.pieces } } := by
  cases lead with
  | none => exact ⟨[], rfl, rfl⟩
  | some c => exact ⟨[⟨.char (single ignoreCase c), true⟩], rfl, rfl⟩

theorem node_of_pieces {enclosure : Enclosure} {pieces : List Piece} {ns : List Node}
    {bound : Option Nat} (h : pieces.reverse.map Piece.node = ns) :
    (Level.mk enclosure [] pieces bound).node = Node.sequence ns := h ▸ rfl

/-- What has been read in a group that has just been opened. -/
def inGroup (p : Progress) (given : Option Text) : Progress :=
  { p.descend (.capture (p.groups + 1)) with
    groups := p.groups + 1
    names := given.elim p.names fun name ↦ p.names ++ [(name, p.groups + 1)] }

theorem run_enter {given : Option Text}
    (hnew : ∀ name, given = some name → p.names.lookup name = none) :
    p.run [.enter (.capture given)] = .ok (inGroup p given) := by
  cases given with
  | none => rfl
  | some name =>
    have hnone : p.names.lookup name = none := hnew name rfl
    simp only [Progress.run, Progress.step, Progress.enter, hnone]
    rfl

/-- A group that holds one sequence becomes a node behind what has been read before it. -/
theorem run_group {given : Option Text}
    (hnew : ∀ name, given = some name → p.names.lookup name = none)
    {tokens : List Token} {pieces : List Piece} {ns : List Node} {groups : Nat}
    {names : List (Text × Nat)} {widths : List (Nat × Width)}
    (hpieces : pieces.reverse.map Piece.node = ns)
    (hrun : (inGroup p given).run tokens = .ok
      { inGroup p given with
        current := { Level.fresh (.capture (p.groups + 1)) p.bound with pieces := pieces }
        groups := groups
        names := names
        widths := widths }) :
    p.run ([.enter (.capture given)] ++ tokens ++ [.leave]) = .ok
      { p.push (.capture (p.groups + 1) (Node.sequence ns)) true with
        groups := groups
        names := names
        widths := (p.groups + 1, (Node.sequence ns).width widths) :: widths } := by
  subst hpieces
  rw [List.append_assoc, run_append_of_ok (run_enter hnew), run_append_of_ok hrun]
  rfl

/-- The name of a variable may not be in use already. -/
theorem run_slot_error (hname : (p.names.lookup name).isSome = true) :
    p.run ((slot lead name optional).tokens ignoreCase kind) = .error .malformed := by
  obtain ⟨pieces, -, hlead⟩ := run_lead ignoreCase (inGroup p none) lead
  simp only [Part.tokens, List.append_assoc]
  have henter : p.run [.enter (.capture none)] = .ok (inGroup p none) := run_enter nofun
  rw [run_append_of_ok henter, run_append_of_ok hlead, List.singleton_append,
    Progress.run, Progress.step, Progress.enter]
  have hsome : ((inGroup p none).names.lookup name).isSome = true := hname
  simp only [hsome, if_true]
  rfl

/-- The node of a variable comes behind what has been read, and its name is bound to a group. -/
theorem run_slot (ignoreCase : Bool) (kind : Text → Kind) (lead : Option Char) (optional : Bool)
    (hname : p.names.lookup name = none) : ∃ piece widths,
    piece.node = (slot lead name optional).node ignoreCase kind p.groups ∧
    p.run ((slot lead name optional).tokens ignoreCase kind) = .ok
      { p with
        current := { p.current with pieces := piece :: p.current.pieces }
        groups := p.groups + 2
        names := p.names ++ [(name, p.groups + 2)]
        widths := widths } := by
  obtain ⟨pieces, hpieces, hlead⟩ := run_lead ignoreCase (inGroup p none) lead
  obtain ⟨inner, hinner, hkind⟩ := Kind.run_tokens ignoreCase (kind name)
    (inGroup { inGroup p none with
      current := { (inGroup p none).current with pieces := pieces ++ [] } } (some name))
  -- the group of the name, behind the separator in the group of the variable
  have hinner' : (inner ++ []).reverse.map Piece.node = (kind name).nodes ignoreCase := by
    rw [List.append_nil, hinner]
  have hnamed := run_group (fun _ he ↦ Option.some.inj he ▸ hname) hinner' hkind
  have hbody : (⟨.capture (p.groups + 2) (Node.sequence ((kind name).nodes ignoreCase)), true⟩ ::
      (pieces ++ [])).reverse.map Piece.node =
        (lead.toList.map fun c ↦ .char (single ignoreCase c)) ++
          [.capture (p.groups + 2) (Node.sequence ((kind name).nodes ignoreCase))] := by
    rw [List.append_nil, List.reverse_cons, List.map_append, hpieces]
    rfl
  have hnone : ∀ name, (none : Option Text) = some name → p.names.lookup name = none := nofun
  have hslot := run_group hnone hbody ((run_append_of_ok hlead _).trans hnamed)
  have htokens : (slot lead name optional).tokens ignoreCase kind =
      [.enter (.capture none)] ++ ((lead.toList.map fun c ↦ .char (single ignoreCase c)) ++
        ([.enter (.capture (some name))] ++ (kind name).tokens ignoreCase ++ [.leave])) ++
          [.leave] ++ if optional then [.count 0 (some 1) .greedy] else [] := by
    simp only [Part.tokens, List.append_assoc]
  rw [htokens, run_append_of_ok hslot]
  cases optional with
  | false => exact ⟨⟨_, true⟩, _, rfl, rfl⟩
  | true => exact ⟨⟨_, false⟩, _, rfl, rfl⟩

/-- The names are new and distinct. -/
def Fresh (p : Progress) (names : List Text) : Prop :=
  names.Nodup ∧ ∀ name ∈ names, p.names.lookup name = none

theorem run_parts (ignoreCase : Bool) (kind : Text → Kind) {p : Progress}
    (hfresh : Fresh p (names parts)) : ∃ pieces groups widths,
    pieces.reverse.map Piece.node = nodes ignoreCase kind p.groups parts ∧
    p.run (parts.flatMap (Part.tokens ignoreCase kind)) = .ok
      { p with
        current := { p.current with pieces := pieces ++ p.current.pieces }
        groups := groups
        names := p.names ++ groupNames p.groups parts
        widths := widths } := by
  induction parts generalizing p with
  | nil => exact ⟨[], p.groups, p.widths, rfl, by simp [groupNames, Progress.run]⟩
  | cons part rest ih =>
    rw [List.flatMap_cons]
    cases part with
    | literal c =>
      have hpush : p.run ((literal c).tokens ignoreCase kind) =
          .ok (p.push (.char (single ignoreCase c)) true) := rfl
      obtain ⟨pieces, groups, widths, hnodes, hrun⟩ :=
        ih (p := p.push (.char (single ignoreCase c)) true) hfresh
      refine ⟨pieces ++ [⟨.char (single ignoreCase c), true⟩], groups, widths, ?_, ?_⟩
      · rw [List.reverse_append, List.map_append, hnodes]
        rfl
      · rw [run_append_of_ok hpush, hrun, List.append_assoc]
        rfl
    | slot lead name optional =>
      obtain ⟨hnodup, hnew⟩ := hfresh
      obtain ⟨hnotin, hnodup'⟩ := List.nodup_cons.mp hnodup
      obtain ⟨piece, widths₁, hpiece, hslot⟩ := run_slot ignoreCase kind lead optional
        (hnew name List.mem_cons_self)
      obtain ⟨pieces, groups, widths, hnodes, hrun⟩ := ih (p :=
        { p with
          current := { p.current with pieces := piece :: p.current.pieces }
          groups := p.groups + 2
          names := p.names ++ [(name, p.groups + 2)]
          widths := widths₁ }) ⟨hnodup', fun other hmem ↦ by
            have hne : other ≠ name := by
              rintro rfl
              exact hnotin hmem
            rw [List.lookup_append, hnew other (List.mem_cons_of_mem _ hmem)]
            simp [hne]⟩
      refine ⟨pieces ++ [piece], groups, widths, ?_, ?_⟩
      · rw [List.reverse_append, List.map_append, hnodes, List.reverse_singleton,
          List.map_singleton, hpiece]
        rfl
      · rw [run_append_of_ok hslot, hrun, List.append_assoc]
        simp only [groupNames, List.append_assoc, List.singleton_append]

theorem run_parts_error {p : Progress} (hfresh : ¬Fresh p (names parts)) :
    p.run (parts.flatMap (Part.tokens ignoreCase kind)) = .error .malformed := by
  induction parts generalizing p with
  | nil => exact absurd ⟨.nil, nofun⟩ hfresh
  | cons part rest ih =>
    rw [List.flatMap_cons]
    cases part with
    | literal c =>
      have hpush : p.run ((literal c).tokens ignoreCase kind) =
          .ok (p.push (.char (single ignoreCase c)) true) := rfl
      rw [run_append_of_ok hpush]
      exact ih hfresh
    | slot lead name optional =>
      cases hl : p.names.lookup name with
      | some group => exact run_append_error (run_slot_error (by rw [hl]; rfl)) _
      | none =>
        obtain ⟨piece, widths, -, hslot⟩ := run_slot ignoreCase kind lead optional hl
        rw [run_append_of_ok hslot]
        refine ih fun ⟨hnodup, hnew⟩ ↦ hfresh ⟨List.nodup_cons.mpr ⟨fun hmem ↦ ?_, hnodup⟩,
          List.forall_mem_cons.mpr ⟨hl, fun other hmem ↦ ?_⟩⟩
        · have hbound := hnew name hmem
          simp [List.lookup_append, hl] at hbound
        · have hbound := hnew other hmem
          rw [List.lookup_append, Option.or_eq_none_iff] at hbound
          exact hbound.1

/-- The tree that the expression of parts is read as. -/
def treeOf (ignoreCase : Bool) (kind : Text → Kind) (complete : Bool) (parts : List Part) : Regex :=
  ⟨Node.sequence (.anchor .textStart :: (nodes ignoreCase kind 0 parts ++
    if complete then [.anchor .closingEnd] else [])), groupNames 0 parts⟩

/-- The expression of parts is read as their tree if the names of its variables are distinct
identifiers, and is malformed otherwise. -/
theorem parse_fragments (hdelimiter : s.delimiter = [d]) (hd : Config.isDelimiter d = true)
    (hending : s.ending = []) (hkind : ∀ name ∈ names parts, s.inner name = (kind name).text)
    (h : ∀ part ∈ parts, part.isPlain (isSeparator [d]) = true) (ignoreCase complete : Bool) :
    Regex.parse ignoreCase ('^' :: (parts.flatMap s.fragment ++ if complete then ['$'] else [])) =
      if WellNamed (names parts) then .ok (treeOf ignoreCase kind complete parts)
      else .error .malformed := by
  have hstart : Progress.start.run [.anchor .textStart] =
      .ok (Progress.start.push (.anchor .textStart) false) := rfl
  rw [Regex.parse, scan_fragments hdelimiter hd hending hkind h]
  by_cases hname : ∀ name ∈ names parts, Text.isIdentifier name = true
  · rw [if_pos hname, Except.bind, Regex.ofTokens, ← List.singleton_append, run_append_of_ok hstart]
    by_cases hnodup : (names parts).Nodup
    · obtain ⟨pieces, groups, widths, hpieces, hrun⟩ := run_parts ignoreCase kind
        (p := Progress.start.push (.anchor .textStart) false) ⟨hnodup, fun _ _ ↦ rfl⟩
      have hwell : WellNamed (names parts) := ⟨hnodup, hname⟩
      rw [run_append_of_ok hrun, if_pos hwell]
      have htree : (Level.mk .whole [] (pieces ++ [⟨.anchor .textStart, false⟩]) none).node =
          Node.sequence (.anchor .textStart :: nodes ignoreCase kind 0 parts) :=
        node_of_pieces (by
          rw [List.reverse_append, List.map_append, hpieces]
          rfl)
      have hclosed : (Level.mk .whole [] (⟨.anchor .closingEnd, false⟩ ::
          (pieces ++ [⟨.anchor .textStart, false⟩])) none).node =
          Node.sequence (.anchor .textStart ::
            (nodes ignoreCase kind 0 parts ++ [.anchor .closingEnd])) :=
        node_of_pieces (by
          rw [List.reverse_cons, List.reverse_append, List.map_append, List.map_append, hpieces]
          rfl)
      cases complete with
      | false =>
        have hroot : treeOf ignoreCase kind false parts = ⟨(Level.mk .whole []
            (pieces ++ [⟨.anchor .textStart, false⟩]) none).node, groupNames 0 parts⟩ := by
          rw [htree, treeOf, if_neg (by decide), List.append_nil]
        rw [hroot]
        rfl
      | true =>
        have hroot : treeOf ignoreCase kind true parts = ⟨(Level.mk .whole []
            (⟨.anchor .closingEnd, false⟩ :: (pieces ++ [⟨.anchor .textStart, false⟩]))
            none).node, groupNames 0 parts⟩ := by
          rw [hclosed, treeOf, if_pos rfl]
        rw [hroot]
        rfl
    · have hfresh : ¬Fresh (Progress.start.push (.anchor .textStart) false) (names parts) :=
        fun hf ↦ hnodup hf.1
      rw [run_append_error (run_parts_error hfresh), if_neg fun hw ↦ hnodup hw.1]
      rfl
  · rw [if_neg hname, if_neg fun hw ↦ hname hw.2]
    rfl

end UrlRouting.Template

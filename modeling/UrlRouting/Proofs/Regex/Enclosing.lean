import UrlRouting.Proofs.Regex.Composing

/-!
What a named group of an expression holds. Where every group of a name is opened in front of a run
of digits (`Token.Opens`), the tree has that run in the group (`encloses_root`), and
whatever is matched, the group holds digits (`isDigit_of_namedGroups`).
-/

namespace UrlRouting.Regex

/-! ### The opening of a group -/

namespace Token

variable {modes modes' : Modes} {outer outer' : List Modes} {name body t rest : Text} {fuel : Nat}
  {tokens : List Token}

def groupOpening (name : Text) : Text := "(?P<".toList ++ name ++ ['>']

/-- Wherever a group of the name is opened in a text, the body stands next. -/
def Opens (name body t : Text) : Prop :=
  ∀ u, u <:+ t → groupOpening name <+: u → groupOpening name ++ body <+: u

theorem Opens.of_suffix (h : Opens name body t) (hrest : rest <:+ t) :
    Opens name body rest := fun u hu ↦ h u (hu.trans hrest)

theorem eq_of_readParenthesis {inner : Modes}
    (h : readParenthesis modes t = .ok (.group (.capture (some name)) inner, rest)) :
    '(' :: t = groupOpening name ++ rest := by
  cases opened_of_readParenthesis h with
  | marked mark hmark => simp [markings] at hmark
  | named h =>
    rw [readName] at h
    split at h
    next hcut =>
      split at h
      next =>
        cases h
        rw [Text.eq_append_of_cut? hcut, groupOpening]
        simp
      next => cases h
    next => cases h

/-- A token that opens a group with a name is written before the text after it. -/
theorem Steps.eq_groupOpening
    (h : Steps modes outer t [.enter (.capture (some name))] modes' outer' rest) :
    t = groupOpening name ++ rest ∧ outer' = modes :: outer := by
  cases h with
  | flat _ _ _ h => cases isFlat_readFlat h
  | enter _ h => exact ⟨eq_of_readParenthesis h, rfl⟩
  | complete _ h => cases isFlat_complete h

theorem Steps.eq_nil_or_singleton (h : Steps modes outer t tokens modes' outer' rest) :
    tokens = [] ∨ ∃ token, tokens = [token] := by
  cases h with
  | spacing | comment | remark => exact .inl rfl
  | flat | enter | complete | leave => exact .inr ⟨_, rfl⟩

/-! ### A run of digits -/

/-- A set that holds digits only. -/
def HoldsDigits (set : CharSet) : Prop := ∀ c, set.contains c = true → Text.isDigit c = true

theorem holdsDigits_category (asciiOnly : Bool) (folding : Folding) :
    HoldsDigits ⟨[.category .digit asciiOnly false], false, folding⟩ := by
  intro c hc
  have hdigit : Category.digit.holds asciiOnly c = true := by
    simpa [CharSet.contains, SetItem.contains] using hc
  cases asciiOnly with
  | false => exact hdigit
  | true =>
    have hsmall : c.val < 128 := by
      have hnine : c ≤ '9' := by
        simp only [Category.holds, Char.isDigit, Bool.and_eq_true, decide_eq_true_eq] at hdigit
        exact hdigit.2
      exact UInt32.lt_of_le_of_lt hnine (by decide)
    exact (if_pos hsmall).trans hdigit

theorem scanFrom_digits
    (h : scanFrom (fuel + 3) modes (modes' :: outer) ("\\d+)".toList ++ t) = .ok tokens) :
    ∃ set more, HoldsDigits set ∧
      tokens = .char set :: .count 1 none .greedy :: .leave :: more := by
  have hset : Steps modes (modes' :: outer) ("\\d+)".toList ++ t)
      [.char ⟨[.category .digit modes.asciiOnly false], false, modes.folding⟩] modes
      (modes' :: outer) ("+)".toList ++ t) :=
    .flat _ (fun _ ↦ by decide) (by decide) rfl
  have hcount : Steps modes (modes' :: outer) ("+)".toList ++ t) [.count 1 none .greedy] modes
      (modes' :: outer) (')' :: t) :=
    .flat _ (fun _ ↦ by decide) (by decide) rfl
  have hleave := Steps.leave modes modes' outer t
  rw [hset.scanFrom_succ, hcount.scanFrom_succ, hleave.scanFrom_succ] at h
  obtain ⟨_, hcounted, rfl⟩ := map_eq_ok h
  obtain ⟨_, hleft, rfl⟩ := map_eq_ok hcounted
  obtain ⟨more, -, rfl⟩ := map_eq_ok hleft
  exact ⟨_, more, holdsDigits_category _ _, rfl⟩

/-- Every group of the name is a run of digits. -/
def Runs (name : Text) (tokens : List Token) : Prop :=
  ∀ more, Token.enter (.capture (some name)) :: more <:+ tokens → ∃ set rest, HoldsDigits set ∧
    more = .char set :: .count 1 none .greedy :: .leave :: rest

theorem Yields.runs (h : Yields modes outer t tokens) (ht : Opens name "\\d+)" t) :
    Runs name tokens := by
  induction h with
  | nil | hidden => exact fun more hmore ↦ absurd hmore (by simp)
  | @step _ _ _ _ c t _ _ _ hstep hmore ih =>
    have hruns := ih (ht.of_suffix (hstep.isSuffix.trans (List.suffix_cons c t)))
    rcases hstep.eq_nil_or_singleton with rfl | ⟨token, rfl⟩
    · exact hruns
    · intro last hlast
      rcases List.suffix_cons_iff.mp hlast with he | hlast
      · obtain ⟨rfl, rfl⟩ := List.cons.inj he
        obtain ⟨htext, rfl⟩ := hstep.eq_groupOpening
        have hbody := ht (c :: t) List.suffix_rfl (htext ▸ List.prefix_append _ _)
        rw [htext, List.prefix_append_right_inj] at hbody
        obtain ⟨u, rfl⟩ := hbody
        have hscan : scanFrom (u.length + 1 + 3) _ _ _ = _ := hmore.scanFrom_eq (by simp)
        exact scanFrom_digits hscan
      · exact hruns last hlast

end Token

open Token (HoldsDigits Runs Opens)

/-! ### What is captured in a tree -/

/-- The special groups hold digits only. -/
def Place.HoldsDigits (special : Nat → Prop) (p : Place) : Prop :=
  ∀ entry ∈ p.groups, special entry.1 → entry.2 ≠ [] ∧ ∀ c ∈ entry.2, Text.isDigit c = true

theorem Place.lasts_holdsDigits (special : Nat → Prop) :
    Place.Lasts (Place.HoldsDigits special) where
  moved _ hgroups hp entry hentry := hp entry (hgroups ▸ hentry)
  merged _ hq := hq

theorem Place.HoldsDigits.store {special : Nat → Prop} {p : Place} {group : Nat} {t : Text}
    (hp : p.HoldsDigits special)
    (ht : special group → t ≠ [] ∧ ∀ c ∈ t, Text.isDigit c = true) :
    Place.HoldsDigits special { p with groups := (group, t) :: p.groups } :=
  List.forall_mem_cons.mpr ⟨ht, hp⟩

namespace Node

variable {n : Node} {ns : List Node} {q q' : Nat → Node → Prop} {name : Text} {I : Place → Prop}

namespace Encloses

theorem mono (h : n.Encloses q) (hq : ∀ group body, q group body → q' group body) :
    n.Encloses q' := by
  induction n with
  | capture group body ih => exact ⟨hq group body h.1, ih h.2⟩
  | seq first second ihfirst ihsecond => exact ⟨ihfirst h.1, ihsecond h.2⟩
  | alt left right ihleft ihright => exact ⟨ihleft h.1, ihright h.2⟩
  | choice group present absent ihpresent ihabsent => exact ⟨ihpresent h.1, ihabsent h.2⟩
  | loop body least most appetite ih => exact ih h
  | atomic body ih => exact ih h
  | ahead body negated ih => exact ih h
  | behind body width negated ih => exact ih h
  | _ => trivial

theorem sequence (h : ∀ n ∈ ns, n.Encloses q) : (Node.sequence ns).Encloses q := by
  induction ns with
  | nil => trivial
  | cons n ns ih =>
    obtain ⟨hn, hns⟩ := List.forall_mem_cons.mp h
    cases ns with
    | nil => exact hn
    | cons m ns => exact ⟨hn, ih hns⟩

theorem alternatives (h : ∀ n ∈ ns, n.Encloses q) : (Node.alternatives ns).Encloses q := by
  induction ns with
  | nil => trivial
  | cons n ns ih =>
    obtain ⟨hn, hns⟩ := List.forall_mem_cons.mp h
    cases ns with
    | nil => exact hn
    | cons m ns => exact ⟨hn, ih hns⟩

end Encloses

/-- The node is a run of digits. -/
def IsRun (n : Node) : Prop := ∃ set, HoldsDigits set ∧ n = .loop (.char set) 1 none .greedy

/-- What is matched leaves digits in the groups that are runs of digits. -/
theorem Encloses.keeps_digits {special : Nat → Prop}
    (h : n.Encloses fun group body ↦ special group → body.IsRun) :
    n.run.Keeps (Place.HoldsDigits special) := by
  refine n.keeps (Place.lasts_holdsDigits special) (h.mono fun group body hrun hbody ↦ ?_)
  intro p k out hp hcapture
  by_cases hspecial : special group
  · obtain ⟨set, hset, rfl⟩ := hrun hspecial
    obtain ⟨_, ⟨_, ⟨t, hne, ht, ⟨rest, hrest⟩, rfl⟩, rfl⟩, hk⟩ :=
      (Node.Leads.run set).capture group p k out hcapture
    have hafter : p.after = t ++ (p.past t).after := by
      rw [Place.after_past hrest.symm, hrest]
    have hpast : (p.past t).HoldsDigits special := hp
    refine ⟨_, hpast.store fun _ ↦ ?_, hk⟩
    rw [Place.upTo_of_after hafter]
    exact ⟨hne, fun c hc ↦ hset c (ht c hc)⟩
  · obtain ⟨q, hq, hk⟩ := hbody p _ out hp hcapture
    exact ⟨_, hq.store fun hgroup ↦ absurd hgroup hspecial, hk⟩

end Node

/-! ### What has been read -/

namespace Level

variable {level level' : Level} {n : Node} {q q' : Nat → Node → Prop}

/-- All nodes of the level capture nodes of a kind. -/
structure Encloses (q : Nat → Node → Prop) (level : Level) : Prop where
  pieces : ∀ piece ∈ level.pieces, piece.node.Encloses q
  alternatives : ∀ n ∈ level.alternatives, n.Encloses q

namespace Encloses

theorem mono (h : level.Encloses q) (hq : ∀ group body, q group body → q' group body) :
    level.Encloses q' :=
  ⟨fun piece hmem ↦ (h.pieces piece hmem).mono hq, fun n hmem ↦ (h.alternatives n hmem).mono hq⟩

theorem fresh (enclosure : Enclosure) (bound : Option Nat) :
    (Level.fresh enclosure bound).Encloses q :=
  ⟨nofun, nofun⟩

theorem push (h : level.Encloses q) (hn : n.Encloses q) (repeatable : Bool) :
    (level.push n repeatable).Encloses q :=
  ⟨List.forall_mem_cons.mpr ⟨hn, h.pieces⟩, h.alternatives⟩

theorem endAlternative (h : level.Encloses q) : level.endAlternative.Encloses q := by
  refine ⟨nofun, List.forall_mem_cons.mpr ⟨.sequence fun n hn ↦ ?_, h.alternatives⟩⟩
  obtain ⟨piece, hpiece, rfl⟩ := List.mem_map.mp hn
  exact h.pieces piece (List.mem_reverse.mp hpiece)

theorem complete (h : level.Encloses q) : ∀ n ∈ level.complete, n.Encloses q :=
  fun n hn ↦ h.endAlternative.alternatives n (List.mem_reverse.mp hn)

theorem node (h : level.Encloses q) : level.node.Encloses q := .alternatives h.complete

theorem repeatLast {least : Nat} {most : Option Nat} {appetite : Appetite} (h : level.Encloses q)
    (hlast : level.repeatLast least most appetite = .ok level') : level'.Encloses q := by
  rw [Level.repeatLast] at hlast
  split at hlast
  next => cases hlast
  next piece pieces hcons =>
    split at hlast
    next =>
      cases hlast
      have hpieces := h.pieces
      rw [hcons] at hpieces
      obtain ⟨hpiece, hrest⟩ := List.forall_mem_cons.mp hpieces
      exact ⟨List.forall_mem_cons.mpr ⟨hpiece, hrest⟩, h.alternatives⟩
    next => cases hlast

end Encloses

end Level

theorem Level.enclosure_repeatLast {level level' : Level} {least : Nat} {most : Option Nat}
    {appetite : Appetite} (h : level.repeatLast least most appetite = .ok level') :
    level'.enclosure = level.enclosure := by
  rw [Level.repeatLast] at h
  repeat' split at h
  all_goals cases h
  rfl

namespace Progress

variable {p q : Progress} {token : Token} {tokens more : List Token} {name : Text} {r : Regex}
  {n : Node} {level : Level} {opening : Opening}

/-- What an opening does: it begins a level, which gets a number if it is to be captured. -/
theorem exists_of_enter (h : p.enter opening = .ok q) : ∃ enclosure,
    q.current = Level.fresh enclosure p.bound ∧ q.outer = p.current :: p.outer ∧
      ((∀ group, enclosure ≠ .capture group) ∧ q.groups = p.groups ∧ q.names = p.names ∨
        ∃ given, opening = .capture given ∧ enclosure = .capture (p.groups + 1) ∧
          q.groups = p.groups + 1 ∧
          q.names = p.names ++ (given.map fun name ↦ (name, p.groups + 1)).toList) := by
  rw [enter.eq_def] at h
  dsimp only at h
  repeat' split at h
  all_goals cases h
  · exact ⟨_, rfl, rfl, .inr ⟨none, rfl, rfl, rfl, (List.append_nil _).symm⟩⟩
  · exact ⟨_, rfl, rfl, .inr ⟨some _, rfl, rfl, rfl, rfl⟩⟩
  all_goals
    refine ⟨_, rfl, rfl, .inl ⟨fun group hgroup ↦ ?_, rfl, rfl⟩⟩
    cases hgroup

theorem encloses_enclose {kind : Nat → Node → Prop} (hlevel : level.Encloses kind)
    (hopened : ∀ group, level.enclosure = .capture group → kind group level.node)
    (h : p.enclose level = .ok n) : n.Encloses kind := by
  have hcomplete := hlevel.complete
  rw [enclose] at h
  split at h
  next => cases h
  next group hgroup =>
    cases h
    exact ⟨hopened group hgroup, hlevel.node⟩
  next =>
    cases h
    exact hlevel.node
  next =>
    cases h
    exact hlevel.node
  next =>
    cases h
    exact hlevel.node
  next =>
    split at h
    next =>
      cases h
      exact hlevel.node
    next => cases h
  next =>
    split at h
    next present hpresent =>
      cases h
      rw [hpresent] at hcomplete
      exact ⟨hcomplete present List.mem_cons_self, trivial⟩
    next present absent hboth =>
      cases h
      rw [hboth] at hcomplete
      exact ⟨hcomplete present List.mem_cons_self,
        hcomplete absent (List.mem_cons_of_mem _ List.mem_cons_self)⟩
    next => cases h

/-- The group has been opened, and if it has the name, then it is a run of digits. -/
def Settles (name : Text) (p : Progress) (group : Nat) (body : Node) : Prop :=
  group ≤ p.groups ∧ ((name, group) ∈ p.names → body.IsRun)

/-- No group with the name is open, and those that are closed are runs of digits. -/
structure Encloses (name : Text) (p : Progress) : Prop where
  levels : ∀ level ∈ p.current :: p.outer, level.Encloses (p.Settles name)
  opened : ∀ level ∈ p.current :: p.outer, ∀ group, level.enclosure = .capture group →
    group ≤ p.groups ∧ (name, group) ∉ p.names
  numbers : ∀ group, (name, group) ∈ p.names → group ≤ p.groups

/-- What is read next keeps the groups that have been opened. -/
structure Extends (name : Text) (p q : Progress) : Prop where
  groups : p.groups ≤ q.groups
  names : ∀ group, group ≤ p.groups → (name, group) ∈ q.names → (name, group) ∈ p.names

theorem Extends.settles (h : Extends name p q) {group : Nat} {body : Node}
    (hp : p.Settles name group body) : q.Settles name group body :=
  ⟨hp.1.trans h.groups, fun hmem ↦ hp.2 (h.names group hp.1 hmem)⟩

theorem Extends.opened (h : Extends name p q) {group : Nat}
    (hp : group ≤ p.groups ∧ (name, group) ∉ p.names) :
    group ≤ q.groups ∧ (name, group) ∉ q.names :=
  ⟨hp.1.trans h.groups, fun hmem ↦ hp.2 (h.names group hp.1 hmem)⟩

namespace Encloses

theorem within (h : p.Encloses name) (hlevel : level.Encloses (p.Settles name))
    (henclosure : level.enclosure = p.current.enclosure) :
    Encloses name { p with current := level } := by
  obtain ⟨-, hlevels⟩ := List.forall_mem_cons.mp h.levels
  obtain ⟨hcurrent, hopened⟩ := List.forall_mem_cons.mp h.opened
  exact ⟨List.forall_mem_cons.mpr ⟨hlevel, hlevels⟩,
    List.forall_mem_cons.mpr ⟨henclosure ▸ hcurrent, hopened⟩, h.numbers⟩

theorem push (h : p.Encloses name) (hn : n.Encloses (p.Settles name)) (repeatable : Bool) :
    (p.push n repeatable).Encloses name :=
  h.within ((h.levels _ List.mem_cons_self).push hn repeatable) rfl

theorem enter (h : p.Encloses name) (henter : p.enter opening = .ok q)
    (hopening : opening ≠ .capture (some name)) : q.Encloses name := by
  obtain ⟨enclosure, hcurrent, houter, hcases⟩ := exists_of_enter henter
  have hgroups : p.groups ≤ q.groups := by
    rcases hcases with ⟨-, hgroups, -⟩ | ⟨_, -, -, hgroups, -⟩ <;> omega
  have hnames (group : Nat) : (name, group) ∈ q.names → (name, group) ∈ p.names := by
    rcases hcases with ⟨-, -, hnames⟩ | ⟨given, rfl, -, -, hnames⟩
    · exact fun hmem ↦ hnames ▸ hmem
    · intro hmem
      rw [hnames, List.mem_append, Option.mem_toList] at hmem
      refine hmem.resolve_right fun hgiven ↦ hopening ?_
      obtain ⟨other, rfl, he⟩ := Option.map_eq_some_iff.mp hgiven
      rw [(Prod.mk.inj he).1]
  have hextends : Extends name p q := ⟨hgroups, fun group _ ↦ hnames group⟩
  refine ⟨?_, ?_, fun group hmem ↦ (h.numbers group (hnames group hmem)).trans hgroups⟩
  · rw [hcurrent, houter]
    exact List.forall_mem_cons.mpr ⟨.fresh _ _, fun level hlevel ↦
      (h.levels level hlevel).mono fun _ _ ↦ hextends.settles⟩
  · rw [hcurrent, houter]
    refine List.forall_mem_cons.mpr ⟨fun group hgroup ↦ ?_, fun level hlevel group hgroup ↦ ?_⟩
    · rcases hcases with ⟨hnone, -, -⟩ | ⟨_, -, hnew, hnumber, -⟩
      · exact absurd hgroup (hnone group)
      · obtain rfl : p.groups + 1 = group := Enclosure.capture.inj (hnew.symm.trans hgroup)
        refine ⟨hnumber.ge, fun hmem ↦ ?_⟩
        exact absurd (h.numbers _ (hnames _ hmem)) (Nat.not_succ_le_self _)
    · exact hextends.opened (h.opened level hlevel group hgroup)

theorem leave (h : p.Encloses name) (hleave : p.leave = .ok q) : q.Encloses name := by
  have hlevels := h.levels
  have hopened := h.opened
  rw [Progress.leave] at hleave
  split at hleave
  next => cases hleave
  next level outer houter =>
    obtain ⟨n, hn, rfl⟩ := Token.map_eq_ok hleave
    rw [houter, List.forall_mem_cons, List.forall_mem_cons] at hlevels hopened
    obtain ⟨hcurrent, hlevel, hlevels⟩ := hlevels
    obtain ⟨hclosed, hlast, hopened⟩ := hopened
    have hnode : n.Encloses (p.Settles name) := by
      refine encloses_enclose hcurrent (fun group hgroup ↦ ?_) hn
      obtain ⟨hle, hnot⟩ := hclosed group hgroup
      exact ⟨hle, fun hmem ↦ absurd hmem hnot⟩
    exact ⟨List.forall_mem_cons.mpr ⟨hlevel.push hnode true, hlevels⟩,
      List.forall_mem_cons.mpr ⟨hlast, hopened⟩, h.numbers⟩

/-- A token that does not open a group with the name. -/
theorem step (h : p.Encloses name) (hstep : p.step token = .ok q)
    (htoken : token ≠ .enter (.capture (some name))) : q.Encloses name := by
  cases token with
  | char set =>
    cases hstep
    exact h.push (n := .char set) trivial true
  | anchor anchor =>
    cases hstep
    exact h.push (n := .anchor anchor) trivial false
  | count least most appetite =>
    obtain ⟨level, hlast, rfl⟩ := Token.map_eq_ok hstep
    exact h.within ((h.levels _ List.mem_cons_self).repeatLast hlast)
      (Level.enclosure_repeatLast hlast)
  | enter opening => exact h.enter hstep fun he ↦ htoken (congrArg Token.enter he)
  | leave => exact h.leave hstep
  | bar =>
    cases hstep
    exact h.within (h.levels _ List.mem_cons_self).endAlternative rfl
  | «recall» ref folding =>
    obtain ⟨group, -, rfl⟩ := Token.map_eq_ok hstep
    exact h.push (n := .recall group folding) trivial true

/-- A group with the name, from its opening on. -/
theorem run_group {set : CharSet} (h : p.Encloses name) (hset : HoldsDigits set)
    (hrun : p.run (.enter (.capture (some name)) :: .char set :: .count 1 none .greedy :: .leave ::
      more) = .ok q) : ∃ next : Progress, next.run more = .ok q ∧ next.Encloses name := by
  obtain ⟨entered, henter, hrest⟩ := run_cons_eq_ok hrun
  change p.enter (.capture (some name)) = .ok entered at henter
  rw [Progress.enter] at henter
  split at henter
  next => cases henter
  next =>
    cases henter
    let body : Node := .loop (.char set) 1 none .greedy
    let next : Progress := ⟨p.current.push (.capture (p.groups + 1) body) true, p.outer,
      p.groups + 1, p.names ++ [(name, p.groups + 1)],
      (p.groups + 1, body.width p.widths) :: p.widths, p.bound, p.conditions⟩
    have hextends : Extends name p next := by
      refine ⟨Nat.le_succ _, fun group hle hmem ↦ ?_⟩
      refine (List.mem_append.mp hmem).resolve_right fun hnew ↦ ?_
      have hgroup := (Prod.mk.inj (List.mem_singleton.mp hnew)).2
      omega
    have hbody : (Node.capture (p.groups + 1) body).Encloses (next.Settles name) :=
      ⟨⟨Nat.le_refl _, fun _ ↦ ⟨set, hset, rfl⟩⟩, trivial⟩
    obtain ⟨hlevel, hlevels⟩ := List.forall_mem_cons.mp fun level hlevel ↦
      (h.levels level hlevel).mono fun _ _ ↦ hextends.settles
    refine ⟨next, hrest, List.forall_mem_cons.mpr ⟨hlevel.push hbody true, hlevels⟩, ?_, ?_⟩
    · obtain ⟨hcurrent, houter⟩ := List.forall_mem_cons.mp h.opened
      exact List.forall_mem_cons.mpr
        ⟨fun group hgroup ↦ hextends.opened (hcurrent group hgroup),
          fun level hmem group hgroup ↦ hextends.opened (houter level hmem group hgroup)⟩
    · intro group hmem
      rcases List.mem_append.mp hmem with hmem | hnew
      · exact (h.numbers group hmem).trans (Nat.le_succ _)
      · exact (Prod.mk.inj (List.mem_singleton.mp hnew)).2.le

theorem run (h : p.Encloses name) (htokens : Runs name tokens) (hrun : p.run tokens = .ok q) :
    q.Encloses name := by
  -- by strong induction, since a group with the name takes all its tokens at once
  induction hl : tokens.length using Nat.strongRecOn generalizing p tokens with
  | ind length ih =>
    subst hl
    cases tokens with
    | nil =>
      cases hrun
      exact h
    | cons token rest =>
      by_cases htoken : token = .enter (.capture (some name))
      · subst htoken
        obtain ⟨set, more, hset, rfl⟩ := htokens rest List.suffix_rfl
        obtain ⟨next, hmore, hnext⟩ := h.run_group hset hrun
        refine ih more.length ?_ hnext (fun last hlast ↦ htokens last (hlast.trans ?_)) hmore rfl
        · simp only [List.length_cons]
          omega
        · exact ⟨[_, _, _, _], rfl⟩
      · obtain ⟨next, hstep, hmore⟩ := run_cons_eq_ok hrun
        exact ih rest.length (Nat.lt_succ_self _) (h.step hstep htoken)
          (fun last hlast ↦ htokens last (hlast.trans (List.suffix_cons _ _))) hmore rfl

end Encloses

theorem encloses_start (name : Text) : start.Encloses name :=
  ⟨by simp [start, Level.Encloses.fresh], by simp [start, Level.fresh], nofun⟩

end Progress

variable {ignoreCase : Bool} {t url text name : Text} {r : Regex} {p : Place}

/-- Where a group is opened in front of a run of digits, this is what it captures. -/
theorem encloses_root (h : parse ignoreCase t = .ok r) (ht : Opens name "\\d+)" t) :
    r.root.Encloses fun group body ↦ (name, group) ∈ r.names → body.IsRun := by
  obtain ⟨tokens, p, hscan, hrun, hfinish⟩ := Progress.exists_of_parse h
  obtain ⟨-, rfl⟩ := Progress.finish_eq_ok hfinish
  have hp := (Progress.encloses_start name).run ((Token.yields_of_scanFrom hscan).runs ht) hrun
  exact (hp.levels _ List.mem_cons_self).node.mono fun _ _ hsettles ↦ hsettles.2

/-- So the group holds digits, whatever is matched. -/
theorem isDigit_of_namedGroups (h : parse ignoreCase t = .ok r) (ht : Opens name "\\d+)" t)
    (hmatch : r.matchStart? url = some p) (hmem : (name, some text) ∈ r.namedGroups p) :
    text ≠ [] ∧ ∀ c ∈ text, Text.isDigit c = true := by
  obtain ⟨⟨name, group⟩, hgroup, he⟩ := List.mem_map.mp hmem
  obtain ⟨rfl, hlookup⟩ := Prod.mk.inj he
  obtain ⟨front, back, hgroups, -⟩ := List.lookup_eq_some_iff.mp hlookup
  have hheld : p.HoldsDigits fun group ↦ (name, group) ∈ r.names :=
    (encloses_root h ht).keeps_digits.of_some (fun _ hstart ↦ by cases hstart) hmatch
  exact hheld (group, text) (hgroups ▸ List.mem_append_right _ List.mem_cons_self) hgroup

end UrlRouting.Regex

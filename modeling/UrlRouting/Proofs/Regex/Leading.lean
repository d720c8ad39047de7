import Mathlib.Data.List.Forall2
import UrlRouting.Proofs.Regex.Closing

/-!
Expressions with an anchor and characters at their beginning, before a parenthesis. What comes later
adds to them and takes nothing back (`Progress.begins_step`), so that the first alternative of the
whole expression begins with them (`exists_root_of_reads`) and matches only texts that do so.
-/

namespace UrlRouting.Regex

variable {front ns : List Node} {closed : Bool} {node : Node} {r : Regex}

/-! ### What has been read -/

namespace Level

variable {level level' : Level} {repeatable : Bool}

/-- The first alternative begins with the nodes. While it is the one at hand, something has to come
after them, if it is no longer being read. -/
def Begins (front : List Node) (closed : Bool) (level : Level) : Prop :=
  (level.alternatives = [] ∧ ∃ more, level.pieces.map Piece.node = more ++ front.reverse ∧
    (closed = true → more ≠ [])) ∨
  ∃ alternatives more, level.alternatives = alternatives ++ [Node.sequence (front ++ more)]

namespace Begins

theorem opened (h : level.Begins front closed) : level.Begins front false :=
  h.imp_left fun ⟨hnone, more, hpieces, _⟩ ↦ ⟨hnone, more, hpieces, nofun⟩

theorem push (h : level.Begins front closed) (node : Node) (repeatable : Bool) :
    (level.push node repeatable).Begins front true := by
  rcases h with ⟨hnone, more, hpieces, -⟩ | h
  · refine .inl ⟨hnone, node :: more, ?_, fun _ ↦ List.cons_ne_nil _ _⟩
    rw [Level.push, List.map_cons, hpieces, List.cons_append]
  · exact .inr h

theorem endAlternative (h : level.Begins front closed) :
    level.endAlternative.Begins front closed := by
  rcases h with ⟨hnone, more, hpieces, -⟩ | ⟨alternatives, more, halternatives⟩
  · refine .inr ⟨[], more.reverse, ?_⟩
    rw [Level.endAlternative, hnone, List.map_reverse, hpieces, List.reverse_append,
      List.reverse_reverse, List.nil_append]
  · refine .inr ⟨Node.sequence (level.pieces.reverse.map Piece.node) :: alternatives, more, ?_⟩
    rw [Level.endAlternative, halternatives, List.cons_append]

/-- A count is about what comes after the nodes. -/
theorem repeatLast {least : Nat} {most : Option Nat} {appetite : Appetite}
    (h : level.Begins front true) (hlast : level.repeatLast least most appetite = .ok level') :
    level'.Begins front true := by
  rw [Level.repeatLast] at hlast
  split at hlast
  next => cases hlast
  next piece pieces hcons =>
    split at hlast
    next =>
      cases hlast
      rcases h with ⟨hnone, more, hpieces, hmore⟩ | h
      · cases more with
        | nil => exact absurd rfl (hmore rfl)
        | cons first more =>
          rw [hcons, List.map_cons, List.cons_append] at hpieces
          refine .inl ⟨hnone, .loop piece.node least most appetite :: more, ?_,
            fun _ ↦ List.cons_ne_nil _ _⟩
          rw [List.map_cons, (List.cons.inj hpieces).2, List.cons_append]
      · exact .inr h
    next => cases hlast

theorem exists_node (h : level.Begins front closed) : ∃ more others,
    level.node = Node.alternatives (Node.sequence (front ++ more) :: others) := by
  have hlast : level.endAlternative.Begins front closed := h.endAlternative
  rcases h with ⟨hnone, more, hpieces, -⟩ | ⟨alternatives, more, halternatives⟩
  · refine ⟨more.reverse, [], ?_⟩
    rw [Level.node, Level.complete, Level.endAlternative, hnone, List.map_reverse, hpieces,
      List.reverse_append, List.reverse_reverse, List.reverse_singleton]
  · refine ⟨more, (Node.sequence (level.pieces.reverse.map Piece.node) :: alternatives).reverse, ?_⟩
    rw [Level.node, Level.complete, Level.endAlternative, halternatives, ← List.cons_append,
      List.reverse_append, List.reverse_singleton, List.singleton_append]

end Begins

end Level

/-- The tokens of an expression begin with those of its beginning. -/
theorem Token.exists_of_scan {ignoreCase : Bool} {t rest : Text} {tokens all : List Token}
    {outer : List Modes} {follow : Text → Prop}
    (h : Reads (.initial ignoreCase) [] t tokens outer follow) (hrest : follow rest)
    (hscan : scan ignoreCase (t ++ rest) = .ok all) : ∃ more, all = tokens ++ more := by
  obtain ⟨fuel, -, hmore⟩ := h (t ++ rest).length rest hrest (List.length_append ▸ le_rfl)
  rw [scan] at hscan
  obtain ⟨more, -, rfl⟩ := map_eq_ok (hmore.symm.trans hscan)
  exact ⟨more, rfl⟩

namespace Progress

variable {p q : Progress} {token : Token} {tokens more : List Token} {sets : List CharSet}

/-- The whole expression begins with the nodes, as far as it has been read. -/
def Begins (front : List Node) (p : Progress) : Prop :=
  (p.outer = [] ∧ p.current.Begins front true) ∨
  ∃ inner level, p.outer = inner ++ [level] ∧ level.Begins front false

theorem outer_enter {opening : Opening} (h : p.enter opening = .ok q) :
    q.outer = p.current :: p.outer := by
  rw [enter.eq_def] at h
  dsimp only at h
  repeat' split at h
  all_goals
    cases h
  all_goals rfl

theorem Begins.descend (h : p.Begins front) (houter : q.outer = p.current :: p.outer) :
    q.Begins front := by
  rcases h with ⟨hnone, hbegins⟩ | ⟨inner, level, hlevel, hbegins⟩
  · exact .inr ⟨[], p.current, by rw [houter, hnone, List.nil_append], hbegins.opened⟩
  · exact .inr ⟨p.current :: inner, level, by rw [houter, hlevel, List.cons_append], hbegins⟩

/-- Only the level of the whole expression is bound to begin with the nodes. -/
theorem Begins.within (h : p.Begins front) (houter : q.outer = p.outer)
    (hcurrent : p.current.Begins front true → q.current.Begins front true) : q.Begins front :=
  h.imp (fun hnone ↦ ⟨houter.trans hnone.1, hcurrent hnone.2⟩)
    fun ⟨inner, level, hlevel, hbegins⟩ ↦ ⟨inner, level, houter.trans hlevel, hbegins⟩

theorem Begins.leave (h : p.Begins front) (hleave : p.leave = .ok q) : q.Begins front := by
  rw [Progress.leave] at hleave
  split at hleave
  next => cases hleave
  next level outer houter =>
    obtain ⟨node, -, rfl⟩ := Token.map_eq_ok hleave
    rcases h with ⟨hnone, -⟩ | ⟨inner, bottom, hbottom, hbegins⟩
    · rw [houter] at hnone
      cases hnone
    rw [houter] at hbottom
    cases inner with
    | nil =>
      obtain ⟨rfl, rfl⟩ := List.cons.inj hbottom
      exact .inl ⟨rfl, hbegins.push node true⟩
    | cons first inner =>
      obtain ⟨rfl, rfl⟩ := List.cons.inj hbottom
      exact .inr ⟨inner, bottom, rfl, hbegins⟩

theorem begins_step (h : p.Begins front) (hstep : p.step token = .ok q) : q.Begins front := by
  cases token with
  | char set =>
    cases hstep
    exact h.within rfl fun hcurrent ↦ hcurrent.push _ _
  | anchor anchor =>
    cases hstep
    exact h.within rfl fun hcurrent ↦ hcurrent.push _ _
  | count least most appetite =>
    obtain ⟨level, hlast, rfl⟩ := Token.map_eq_ok hstep
    exact h.within rfl fun hcurrent ↦ hcurrent.repeatLast hlast
  | enter opening => exact h.descend (outer_enter hstep)
  | leave => exact h.leave hstep
  | bar =>
    cases hstep
    exact h.within rfl fun hcurrent ↦ hcurrent.endAlternative
  | «recall» ref folding =>
    obtain ⟨group, -, rfl⟩ := Token.map_eq_ok hstep
    exact h.within rfl fun hcurrent ↦ hcurrent.push _ _

theorem begins_run (h : p.Begins front) (hrun : p.run tokens = .ok q) : q.Begins front := by
  induction tokens generalizing p with
  | nil =>
    cases hrun
    exact h
  | cons token tokens ih =>
    obtain ⟨next, hstep, hmore⟩ := run_cons_eq_ok hrun
    exact ih (begins_step h hstep) hmore

theorem run_chars (p : Progress) (sets : List CharSet) : ∃ pieces,
    p.run (sets.map .char) = .ok { p with current := { p.current with pieces := pieces } } ∧
    pieces.map Piece.node = (sets.map .char).reverse ++ p.current.pieces.map Piece.node := by
  induction sets generalizing p with
  | nil => exact ⟨p.current.pieces, rfl, rfl⟩
  | cons set sets ih =>
    obtain ⟨pieces, hrun, hpieces⟩ := ih (p.push (.char set) true)
    refine ⟨pieces, hrun, ?_⟩
    rw [hpieces, List.map_cons, List.reverse_cons, List.append_assoc]
    rfl

/-- Behind the parenthesis, what stands before it is kept. -/
theorem begins_of_run {anchor : Anchor} {opening : Opening}
    (h : start.run (.anchor anchor :: sets.map .char ++ .enter opening :: more) = .ok p) :
    p.Begins (.anchor anchor :: sets.map .char) := by
  obtain ⟨middle, hfront, hmore⟩ := run_append_eq_ok h
  obtain ⟨next, hanchor, hchars⟩ := run_cons_eq_ok hfront
  cases hanchor
  obtain ⟨pieces, hrun, hpieces⟩ := run_chars (start.push (.anchor anchor) false) sets
  rw [hrun] at hchars
  cases hchars
  obtain ⟨inner, henter, hrest⟩ := run_cons_eq_ok hmore
  refine begins_run (.inr ⟨[], _, outer_enter henter, .inl ⟨rfl, [], ?_, nofun⟩⟩) hrest
  rw [List.nil_append, List.reverse_cons]
  exact hpieces

theorem exists_root_of_begins (h : p.Begins front) (hfinish : p.finish = .ok r) : ∃ more others,
    r.root = Node.alternatives (Node.sequence (front ++ more) :: others) := by
  obtain ⟨hnone, rfl⟩ := finish_eq_ok hfinish
  rcases h with ⟨-, hbegins⟩ | ⟨inner, level, hlevel, -⟩
  · exact hbegins.exists_node
  · rw [hlevel] at hnone
    simp at hnone

end Progress

/-- An expression that begins with the anchor, characters and a parenthesis is a choice of
alternatives, of which the first one begins with the anchor and the characters. -/
theorem exists_root_of_reads {ignoreCase : Bool} {sets : List CharSet} {t rest : Text}
    (ht : Token.Reads (.initial ignoreCase) [] t (sets.map .char) [] fun _ ↦ True)
    (hrest : rest.head? ≠ some '?') (h : parse ignoreCase ('^' :: (t ++ '(' :: rest)) = .ok r) :
    ∃ more others, r.root = Node.alternatives
      (Node.sequence (.anchor .textStart :: sets.map .char ++ more) :: others) := by
  obtain ⟨tokens, p, hscan, hrun, hfinish⟩ := Progress.exists_of_parse h
  have hreads := (Token.Reads.textStart ignoreCase [] fun _ ↦ True).append
    (ht.append (Token.Reads.group ignoreCase []) fun _ _ ↦ trivial) fun _ _ ↦ trivial
  have htext : '^' :: (t ++ '(' :: rest) = ['^'] ++ (t ++ ['(']) ++ rest := by simp
  rw [htext] at hscan
  obtain ⟨more, rfl⟩ := Token.exists_of_scan hreads hrest hscan
  have htokens : [.anchor .textStart] ++ (sets.map .char ++ [.enter (.capture none)]) ++ more =
      Token.anchor .textStart :: sets.map .char ++ .enter (.capture none) :: more := by simp
  rw [htokens] at hrun
  exact Progress.exists_root_of_begins (Progress.begins_of_run hrun) hfinish

/-! ### What is matched -/

/-- The match is one of an alternative after the first one. -/
def Deviates (r : Regex) (t : Text) (p : Place) : Prop :=
  ∃ first others, r.root = Node.alternatives (first :: others) ∧
    ∃ n ∈ others, n.run (Place.start t) some = some p

theorem run_alternatives_cons {n : Node} {p out : Place} {k : Continuation}
    (h : (Node.alternatives (n :: ns)).run p k = some out) :
    n.run p k = some out ∨ ∃ m ∈ ns, m.run p k = some out := by
  rcases List.eq_nil_or_concat ns with rfl | ⟨ns, last, rfl⟩
  · exact .inl h
  · rw [List.concat_eq_append, ← List.cons_append] at h
    rw [List.concat_eq_append]
    rcases run_alternatives h with hlast | ⟨m, hm, hrun⟩
    · exact .inr ⟨last, List.mem_append_right _ (List.mem_singleton_self _), hlast⟩
    · rcases List.mem_cons.mp hm with rfl | hm
      · exact .inl hrun
      · exact .inr ⟨m, List.mem_append_left _ hm, hrun⟩

def Node.isSequence : Node → Bool
  | .seq _ _ => true
  | _ => false

/-- An expression that is one sequence has no other alternatives. -/
theorem not_deviates_of_isSequence {t : Text} {p : Place} (h : r.root.isSequence = true) :
    ¬r.Deviates t p := by
  rintro ⟨first, others, hroot, n, hn, -⟩
  cases others with
  | nil => cases hn
  | cons other others =>
    rw [hroot] at h
    cases h

/-- Characters of some sets stand next. -/
def Stand (sets : List CharSet) (t : Text) : Prop :=
  ∃ front rest, t = front ++ rest ∧ List.Forall₂ (fun set c ↦ set.contains c = true) sets front

theorem Node.Leads.chars (sets : List CharSet) :
    (Node.sequence (sets.map .char)).Leads fun p q ↦ ∃ front,
      List.Forall₂ (fun set c ↦ set.contains c = true) sets front ∧ front <+: p.after ∧
        q = p.past front := by
  induction sets with
  | nil =>
    refine Leads.sequence_nil.mono fun p q he ↦ ⟨[], .nil, List.nil_prefix, ?_⟩
    rw [he, Place.past_nil]
  | cons set sets ih =>
    refine ((Leads.char set).sequence_cons ih).mono ?_
    rintro p q ⟨_, ⟨c, hc, ⟨rest, hrest⟩, rfl⟩, front, hfront, hprefix, rfl⟩
    rw [Place.after_past hrest.symm] at hprefix
    refine ⟨c :: front, .cons hc hfront, ?_, Place.past_past p [c] front⟩
    rw [← hrest]
    exact (List.prefix_append_right_inj [c]).mpr hprefix

theorem Node.Takes.chars {sets : List CharSet} {front rest : Text} {p : Place}
    (h : List.Forall₂ (fun set c ↦ set.contains c = true) sets front)
    (hafter : p.after = front ++ rest) :
    (Node.sequence (sets.map .char)).Takes p (p.past front) := by
  induction h generalizing p with
  | nil => exact .sequence_nil p
  | @cons set c sets front hc _ ih =>
    have htakes := ih (Place.after_past (t := [c]) hafter)
    rw [Place.past_past] at htakes
    exact .sequence_cons (.char hc hafter) htakes

theorem stand_of_sequence {sets : List CharSet} {t : Text} {p : Place} {anchor : Anchor}
    (h : (Node.sequence (.anchor anchor :: sets.map .char ++ ns)).run (Place.start t) some =
      some p) : Stand sets t := by
  rw [run_sequence_append] at h
  obtain ⟨_, ⟨_, ⟨-, rfl⟩, front, hfront, ⟨rest, hrest⟩, -⟩, -⟩ :=
    (Node.Leads.anchor anchor).sequence_cons (.chars sets) _ _ _ h
  exact ⟨front, rest, hrest.symm, hfront⟩

end UrlRouting.Regex

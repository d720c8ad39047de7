import UrlRouting.Regex.Match

/-!
Ways to match, put together from those of the parts of an expression. What a node may lead to from a
place is a relation between places (`Node.Leads`); where its first way to match is known to let the
rest succeed, no other way is tried (`Node.Takes`). What does not depend on where in its text a
place is lasts through a match if it lasts through what is captured (`Node.keeps`).
-/

namespace UrlRouting.Regex

namespace Place

/-- The place behind a text that stands next. -/
def past (p : Place) (t : Text) : Place :=
  { p with before := t.reverse ++ p.before, after := p.after.drop t.length }

variable {p : Place} {t u : Text}

@[simp] theorem past_nil (p : Place) : p.past [] = p := rfl

@[simp] theorem groups_past (p : Place) (t : Text) : (p.past t).groups = p.groups := rfl

theorem past_past (p : Place) (t u : Text) : (p.past t).past u = p.past (t ++ u) := by
  rw [past, past, past]
  simp only [List.reverse_append, List.append_assoc, List.drop_drop, List.length_append]

theorem after_past (h : p.after = t ++ u) : (p.past t).after = u := by
  rw [past]
  dsimp only
  rw [h, List.drop_left]

theorem upTo_of_after {q : Place} (h : p.after = t ++ q.after) : p.upTo q = t := by
  rw [upTo, h, List.length_append, Nat.add_sub_cancel, List.take_left]

end Place

open Place

variable {p q r : Place} {n : Node} {ns : List Node} {set : CharSet} {t rest : Text} {c : Char}
  {out : Place} {k : Continuation}

theorem orElse_eq_some {α : Type} {x y : Option α} {a : α}
    (h : (x.orElse fun _ ↦ y) = some a) : x = some a ∨ y = some a := by
  cases x with
  | none => exact .inr h
  | some b => exact .inl h

/-! ### One node after another -/

theorem run_sequence_cons (n : Node) (ns : List Node) (p : Place) (k : Continuation) :
    (Node.sequence (n :: ns)).run p k = n.run p fun q ↦ (Node.sequence ns).run q k := by
  cases ns <;> rfl

theorem run_sequence_append (ns ms : List Node) (p : Place) (k : Continuation) :
    (Node.sequence (ns ++ ms)).run p k =
      (Node.sequence ns).run p fun q ↦ (Node.sequence ms).run q k := by
  induction ns generalizing p with
  | nil => rfl
  | cons n ns ih =>
    rw [List.cons_append, run_sequence_cons, run_sequence_cons]
    simp only [ih]

theorem run_char (set : CharSet) (p : Place) (k : Continuation) : (Node.char set).run p k =
    match p.after with
    | [] => none
    | c :: _ => if set.contains c then k (p.past [c]) else none := by
  obtain ⟨before, after, groups⟩ := p
  cases after <;> rfl

theorem run_optional (n : Node) (p : Place) (k : Continuation) :
    (Node.loop n 0 (some 1) .greedy).run p k = (n.run p k).orElse fun _ ↦ k p := by
  have hlast (q : Place) (last : Option Nat) (fuel : Nat) :
      Matcher.loop n.run 0 (some 1) false (fuel + 1) 1 last q k = k q := rfl
  have hfirst : (Node.loop n 0 (some 1) .greedy).run p k =
      (n.run p fun q ↦ Matcher.loop n.run 0 (some 1) false (0 + p.after.length + 1) 1
        (some p.after.length) q k).orElse fun _ ↦ k p := rfl
  rw [hfirst]
  simp only [hlast]

/-- A run of characters of a set is as long as possible or shorter. -/
theorem loop_run (hset : ∀ c ∈ t, set.contains c = true)
    (hstop : ∀ c, rest.head? = some c → set.contains c = false) {count fuel : Nat}
    {last : Option Nat} (hafter : p.after = t ++ rest) (hcount : 1 ≤ count ∨ t ≠ [])
    (hlast : ∀ l, last = some l → p.after.length < l) (hfuel : t.length < fuel)
    (hk : (k (p.past t)).isSome = true) :
    Matcher.loop (Node.char set).run 1 none false fuel count last p k = k (p.past t) := by
  induction t generalizing p count last fuel with
  | nil =>
    obtain ⟨fuel, rfl⟩ : ∃ less, fuel = less + 1 := ⟨fuel - 1, by omega⟩
    have hcount' : ¬count < 1 := by
      rcases hcount with h | h
      · omega
      · exact absurd rfl h
    have hnone (k' : Continuation) : (Node.char set).run p k' = none := by
      rw [run_char, hafter]
      cases rest with
      | nil => rfl
      | cons c rest => exact if_neg (by simp [hstop c rfl])
    rw [Matcher.loop, if_neg hcount', if_neg (by decide), hnone]
    split <;> rfl
  | cons c t ih =>
    obtain ⟨fuel, rfl⟩ : ∃ less, fuel = less + 1 := ⟨fuel - 1, by omega⟩
    obtain ⟨hc, ht⟩ := List.forall_mem_cons.mp hset
    have hone (k' : Continuation) : (Node.char set).run p k' = k' (p.past [c]) := by
      rw [run_char, hafter]
      exact if_pos hc
    have hnext : (p.past [c]).after = t ++ rest := after_past hafter
    have hmore (last' : Option Nat) (hlast' : ∀ l, last' = some l → (p.past [c]).after.length < l) :
        Matcher.loop (Node.char set).run 1 none false fuel (count + 1) last' (p.past [c]) k =
          k (p.past (c :: t)) := by
      have hcons : p.past (c :: t) = (p.past [c]).past t := (past_past p [c] t).symm
      rw [hcons] at hk ⊢
      exact ih ht hnext (.inl (Nat.le_add_left 1 count)) hlast' (Nat.lt_of_succ_lt_succ hfuel) hk
    have hlength : (p.past [c]).after.length < p.after.length := by
      rw [hnext, hafter]
      simp
    rw [Matcher.loop]
    split
    next => rw [hone, hmore last fun l hl ↦ Nat.lt_trans hlength (hlast l hl)]
    next =>
      have hgo : (allowsMore count none && last != some p.after.length) = true := by
        simp only [allowsMore, Bool.true_and, bne_iff_ne]
        exact fun he ↦ absurd (hlast _ he) (Nat.lt_irrefl _)
      rw [if_neg (by decide), if_pos hgo, hone, hmore (some p.after.length) fun l hl ↦
        Option.some.inj hl ▸ hlength]
      cases hk' : k (p.past (c :: t)) with
      | none =>
        rw [hk'] at hk
        cases hk
      | some out => rfl

theorem exists_of_char (h : (Node.char set).run p k = some out) :
    ∃ c, set.contains c = true ∧ [c] <+: p.after ∧ k (p.past [c]) = some out := by
  rw [run_char] at h
  split at h
  next => cases h
  next c rest ha =>
    split at h
    next hc => exact ⟨c, hc, ha ▸ List.prefix_append [c] rest, h⟩
    next => cases h

theorem exists_of_loop {least count fuel : Nat} {last : Option Nat}
    (h : Matcher.loop (Node.char set).run least none false fuel count last p k = some out) :
    ∃ t, (∀ c ∈ t, set.contains c = true) ∧ t <+: p.after ∧ least ≤ count + t.length ∧
      k (p.past t) = some out := by
  induction fuel generalizing p count last with
  | zero => cases h
  | succ fuel ih =>
    have hstep {last : Option Nat} (h : ((Node.char set).run p fun q ↦
        Matcher.loop (Node.char set).run least none false fuel (count + 1) last q k) = some out) :
        ∃ t, (∀ c ∈ t, set.contains c = true) ∧ t <+: p.after ∧ least ≤ count + t.length ∧
          k (p.past t) = some out := by
      obtain ⟨c, hc, ⟨rest, hrest⟩, hgo⟩ := exists_of_char h
      obtain ⟨t, ht, hprefix, hleast, hk⟩ := ih hgo
      rw [after_past hrest.symm] at hprefix
      refine ⟨c :: t, List.forall_mem_cons.mpr ⟨hc, ht⟩, ?_, ?_, ?_⟩
      · rw [← hrest]
        exact (List.prefix_append_right_inj [c]).mpr hprefix
      · rw [List.length_cons]
        omega
      · rwa [past_past] at hk
    rw [Matcher.loop] at h
    split at h
    next => exact hstep h
    next hcount =>
      rw [if_neg (by decide)] at h
      rcases orElse_eq_some h with h | h
      · split at h
        next => exact hstep h
        next => cases h
      · exact ⟨[], nofun, List.nil_prefix, by simpa using hcount, h⟩

/-! ### Where a node leads -/

/-- Wherever the node lets the whole match succeed, it has led to a place in the relation. -/
def Node.Leads (n : Node) (R : Place → Place → Prop) : Prop :=
  ∀ p k out, n.run p k = some out → ∃ q, R p q ∧ k q = some out

/-- If the match goes on to succeed behind the second place, the node has led there. -/
def Node.Takes (n : Node) (p q : Place) : Prop :=
  ∀ k : Continuation, (k q).isSome = true → n.run p k = k q

/-- The node does not match at the place. -/
def Node.Fails (n : Node) (p : Place) : Prop := ∀ k : Continuation, n.run p k = none

namespace Node.Leads

variable {R S : Place → Place → Prop}

theorem mono (h : n.Leads R) (hRS : ∀ p q, R p q → S p q) : n.Leads S := fun p k out hrun ↦
  (h p k out hrun).imp fun q hq ↦ ⟨hRS p q hq.1, hq.2⟩

theorem anchor (a : Anchor) : (Node.anchor a).Leads fun p q ↦ p.fits a = true ∧ q = p := by
  intro p k out h
  have hrun : (Node.anchor a).run p k = if p.fits a then k p else none := rfl
  rw [hrun] at h
  split at h
  next hfits => exact ⟨p, ⟨hfits, rfl⟩, h⟩
  next => cases h

theorem char (set : CharSet) : (Node.char set).Leads fun p q ↦
    ∃ c, set.contains c = true ∧ [c] <+: p.after ∧ q = p.past [c] := by
  intro p k out h
  obtain ⟨c, hc, hprefix, hk⟩ := exists_of_char h
  exact ⟨_, ⟨c, hc, hprefix, rfl⟩, hk⟩

theorem run (set : CharSet) : (Node.loop (.char set) 1 none .greedy).Leads fun p q ↦
    ∃ t, t ≠ [] ∧ (∀ c ∈ t, set.contains c = true) ∧ t <+: p.after ∧ q = p.past t := by
  intro p k out h
  obtain ⟨t, ht, hprefix, hleast, hk⟩ := exists_of_loop h
  refine ⟨_, ⟨t, ?_, ht, hprefix, rfl⟩, hk⟩
  rintro rfl
  simp at hleast

theorem sequence_nil : (Node.sequence []).Leads fun p q ↦ q = p :=
  fun p _ _ h ↦ ⟨p, rfl, h⟩

theorem sequence_cons (h : n.Leads R) (hs : (Node.sequence ns).Leads S) :
    (Node.sequence (n :: ns)).Leads fun p r ↦ ∃ q, R p q ∧ S q r := by
  intro p k out hrun
  rw [run_sequence_cons] at hrun
  obtain ⟨q, hR, hrest⟩ := h p _ out hrun
  obtain ⟨r, hS, hk⟩ := hs q k out hrest
  exact ⟨r, ⟨q, hR, hS⟩, hk⟩

theorem sequence_append {ms : List Node} (h : (Node.sequence ns).Leads R)
    (hs : (Node.sequence ms).Leads S) :
    (Node.sequence (ns ++ ms)).Leads fun p r ↦ ∃ q, R p q ∧ S q r := by
  intro p k out hrun
  rw [run_sequence_append] at hrun
  obtain ⟨q, hR, hrest⟩ := h p _ out hrun
  obtain ⟨r, hS, hk⟩ := hs q k out hrest
  exact ⟨r, ⟨q, hR, hS⟩, hk⟩

theorem capture (group : Nat) (h : n.Leads R) : (Node.capture group n).Leads fun p r ↦
    ∃ q, R p q ∧ r = { q with groups := (group, p.upTo q) :: q.groups } := by
  intro p k out hrun
  obtain ⟨q, hR, hk⟩ := h p _ out hrun
  exact ⟨_, ⟨q, hR, rfl⟩, hk⟩

theorem optional (h : n.Leads R) :
    (Node.loop n 0 (some 1) .greedy).Leads fun p q ↦ R p q ∨ q = p := by
  intro p k out hrun
  rw [run_optional] at hrun
  rcases orElse_eq_some hrun with hrun | hk
  · exact (h p k out hrun).imp fun q hq ↦ ⟨.inl hq.1, hq.2⟩
  · exact ⟨p, .inr rfl, hk⟩

end Node.Leads

namespace Node.Takes

theorem anchor {a : Anchor} (h : p.fits a = true) : (Node.anchor a).Takes p p :=
  fun _ _ ↦ if_pos h

theorem char (hc : set.contains c = true) (hafter : p.after = c :: rest) :
    (Node.char set).Takes p (p.past [c]) := by
  intro k _
  rw [run_char, hafter]
  exact if_pos hc

/-- A run goes on up to the first character that does not belong to it. -/
theorem run (hne : t ≠ []) (hset : ∀ c ∈ t, set.contains c = true)
    (hstop : ∀ c, rest.head? = some c → set.contains c = false) (hafter : p.after = t ++ rest) :
    (Node.loop (.char set) 1 none .greedy).Takes p (p.past t) := by
  intro k hk
  refine loop_run hset hstop hafter (.inr hne) nofun ?_ hk
  rw [loopFuel, hafter, List.length_append]
  omega

theorem sequence_nil (p : Place) : (Node.sequence []).Takes p p := fun _ _ ↦ rfl

theorem sequence_cons (h : n.Takes p q) (hs : (Node.sequence ns).Takes q r) :
    (Node.sequence (n :: ns)).Takes p r := by
  intro k hk
  have hrest := hs k hk
  rw [run_sequence_cons, h _ (by rwa [hrest]), hrest]

theorem sequence_append {ms : List Node} (h : (Node.sequence ns).Takes p q)
    (hs : (Node.sequence ms).Takes q r) : (Node.sequence (ns ++ ms)).Takes p r := by
  intro k hk
  have hrest := hs k hk
  rw [run_sequence_append, h _ (by rwa [hrest]), hrest]

theorem capture (group : Nat) (h : n.Takes p q) :
    (Node.capture group n).Takes p { q with groups := (group, p.upTo q) :: q.groups } :=
  fun k hk ↦ h (fun q ↦ k { q with groups := (group, p.upTo q) :: q.groups }) hk

theorem optional (h : n.Takes p q) : (Node.loop n 0 (some 1) .greedy).Takes p q := by
  intro k hk
  rw [run_optional, h k hk]
  cases hq : k q with
  | none =>
    rw [hq] at hk
    cases hk
  | some out => rfl

theorem skip (h : n.Fails p) : (Node.loop n 0 (some 1) .greedy).Takes p p := by
  intro k _
  rw [run_optional, h k]
  rfl

end Node.Takes

namespace Node.Fails

theorem char (hstop : ∀ c, p.after.head? = some c → set.contains c = false) :
    (Node.char set).Fails p := by
  intro k
  rw [run_char]
  split
  next => rfl
  next c rest ha => exact if_neg (by simp [hstop c (ha ▸ rfl)])

theorem run (hstop : ∀ c, p.after.head? = some c → set.contains c = false) :
    (Node.loop (.char set) 1 none .greedy).Fails p := by
  intro k
  have hone (k' : Continuation) : (Node.char set).run p k' = none := Fails.char hstop k'
  have hrun : (Node.loop (.char set) 1 none .greedy).run p k = (Node.char set).run p fun q ↦
      Matcher.loop (Node.char set).run 1 none false (loopFuel 1 p - 1) 1 none q k := rfl
  rw [hrun, hone]

theorem sequence (h : n.Fails p) : (Node.sequence (n :: ns)).Fails p := by
  intro k
  rw [run_sequence_cons]
  exact h _

theorem sequence_char (hafter : p.after = c :: rest)
    (hs : (Node.sequence ns).Fails (p.past [c])) :
    (Node.sequence (.char set :: ns)).Fails p := by
  intro k
  rw [run_sequence_cons, run_char, hafter]
  dsimp only
  split
  next => exact hs k
  next => rfl

theorem capture (group : Nat) (h : n.Fails p) : (Node.capture group n).Fails p :=
  fun _ ↦ h _

end Node.Fails

/-! ### The text around a place -/

/-- The text that a place is in. -/
def Place.whole (p : Place) : Text := p.before.reverse ++ p.after

/-- From a place with the property, the matcher goes on from such places only. -/
def Matcher.Keeps (I : Place → Prop) (m : Matcher) : Prop :=
  ∀ p k out, I p → m p k = some out → ∃ q, I q ∧ k q = some out

/-- The matcher goes on from places in the same text only. -/
def Matcher.Stays (m : Matcher) : Prop := ∀ t, m.Keeps fun p ↦ p.whole = t

theorem Place.whole_past (h : t <+: p.after) : (p.past t).whole = p.whole := by
  obtain ⟨rest, hrest⟩ := h
  rw [whole, whole, past, ← hrest]
  simp

theorem Place.same_of_past? {folding : Folding} (h : p.past? folding t = some q) :
    q.whole = p.whole ∧ q.groups = p.groups := by
  rw [past?] at h
  split at h
  next =>
    cases h
    exact ⟨by simp [whole], rfl⟩
  next => cases h

theorem Place.same_of_back? {count : Nat} (h : p.back? count = some q) :
    q.whole = p.whole ∧ q.groups = p.groups := by
  rw [back?] at h
  split at h
  next =>
    cases h
    refine ⟨?_, rfl⟩
    rw [whole, whole, ← List.append_assoc, ← List.reverse_append, List.take_append_drop]
  next => cases h

/-- The property belongs to the whole text and to the groups, wherever in the text the place is, and
the groups may come from another place. -/
structure Place.Lasts (I : Place → Prop) : Prop where
  moved : ∀ {p q : Place}, q.whole = p.whole → q.groups = p.groups → I p → I q
  merged : ∀ {p q : Place}, I p → I q → I { p with groups := q.groups }

namespace Matcher

variable {body : Matcher} {I : Place → Prop}

theorem keeps_loop (hbody : body.Keeps I) (least : Nat) (most : Option Nat) (hurry : Bool)
    (fuel count : Nat) (last : Option Nat) :
    (Matcher.loop body least most hurry fuel count last).Keeps I := by
  induction fuel generalizing count last with
  | zero => nofun
  | succ fuel ih =>
    intro p k out hp h
    have hagain {last : Option Nat} (h : (body p fun q ↦
        Matcher.loop body least most hurry fuel (count + 1) last q k) = some out) :
        ∃ q, I q ∧ k q = some out := by
      obtain ⟨q, hq, hrest⟩ := hbody p _ out hp h
      exact ih _ _ q k out hq hrest
    have hfurther (h : (if allowsMore count most && last != some p.after.length then body p fun q ↦
        Matcher.loop body least most hurry fuel (count + 1) (some p.after.length) q k
        else none) = some out) : ∃ q, I q ∧ k q = some out := by
      split at h
      next => exact hagain h
      next => cases h
    rw [Matcher.loop] at h
    split at h
    next => exact hagain h
    next =>
      dsimp only at h
      split at h
      next => exact (orElse_eq_some h).elim (fun hk ↦ ⟨p, hp, hk⟩) hfurther
      next => exact (orElse_eq_some h).elim hfurther fun hk ↦ ⟨p, hp, hk⟩

/-- What is matched in its first way only. -/
theorem Keeps.of_some (hbody : body.Keeps I) (hp : I p) (h : body p some = some q) : I q := by
  obtain ⟨_, hq, he⟩ := hbody p some q hp h
  cases he
  exact hq

theorem keeps_exhaust (hbody : body.Keeps I) {least fuel count : Nat} {most last : Option Nat}
    (hp : I p) (h : Matcher.exhaust body least most fuel count last p = some q) : I q := by
  induction fuel generalizing p count last with
  | zero => cases h
  | succ fuel ih =>
    rw [Matcher.exhaust] at h
    split at h
    next =>
      obtain ⟨r, hr, hrest⟩ := Option.bind_eq_some_iff.mp h
      exact ih (hbody.of_some hp hr) hrest
    next =>
      split at h
      next =>
        split at h
        next r hr => exact ih (hbody.of_some hp hr) h
        next =>
          cases h
          exact hp
      next =>
        cases h
        exact hp

end Matcher

theorem Node.keeps_loop {body : Node} {I : Place → Prop} (h : body.run.Keeps I) (least : Nat)
    (most : Option Nat) (appetite : Appetite) :
    (Node.loop body least most appetite).run.Keeps I := by
  intro p k out hp hrun
  cases appetite with
  | greedy => exact Matcher.keeps_loop h _ _ _ _ _ _ p k out hp hrun
  | lazy => exact Matcher.keeps_loop h _ _ _ _ _ _ p k out hp hrun
  | possessive =>
    obtain ⟨q, hq, hk⟩ := Option.bind_eq_some_iff.mp hrun
    exact ⟨q, Matcher.keeps_exhaust h hp hq, hk⟩

/-- All that is captured in the tree is captured by nodes of a kind, which may depend on the number
of the group. -/
def Node.Encloses (q : Nat → Node → Prop) : Node → Prop
  | .capture group body => q group body ∧ body.Encloses q
  | .seq first second => first.Encloses q ∧ second.Encloses q
  | .alt left right => left.Encloses q ∧ right.Encloses q
  | .choice _ present absent => present.Encloses q ∧ absent.Encloses q
  | .loop body _ _ _ | .atomic body | .ahead body _ | .behind body _ _ => body.Encloses q
  | .empty | .char _ | .anchor _ | .recall _ _ => True

theorem Node.encloses_of_forall {kind : Nat → Node → Prop} (h : ∀ group body, kind group body)
    (n : Node) : n.Encloses kind := by
  induction n with
  | capture group body ih => exact ⟨h group body, ih⟩
  | seq first second ihfirst ihsecond => exact ⟨ihfirst, ihsecond⟩
  | alt left right ihleft ihright => exact ⟨ihleft, ihright⟩
  | choice group present absent ihpresent ihabsent => exact ⟨ihpresent, ihabsent⟩
  | loop body least most appetite ih => exact ih
  | atomic body ih => exact ih
  | ahead body negated ih => exact ih
  | behind body width negated ih => exact ih
  | _ => trivial

/-- What is matched keeps a property of the whole text and of the groups, if what it captures
does. -/
theorem Node.keeps {I : Place → Prop} (hI : Place.Lasts I)
    (h : n.Encloses fun group body ↦ body.run.Keeps I → (Node.capture group body).run.Keeps I) :
    n.run.Keeps I := by
  induction n with
  | empty => exact fun p k out hp h ↦ ⟨p, hp, h⟩
  | char set =>
    intro p k out hp hrun
    obtain ⟨c, -, hprefix, hk⟩ := exists_of_char hrun
    exact ⟨_, hI.moved (Place.whole_past hprefix) rfl hp, hk⟩
  | anchor a =>
    intro p k out hp hrun
    obtain ⟨q, ⟨-, rfl⟩, hk⟩ := Node.Leads.anchor a p k out hrun
    exact ⟨q, hp, hk⟩
  | seq first second ihfirst ihsecond =>
    intro p k out hp hrun
    obtain ⟨q, hq, hrest⟩ := ihfirst h.1 p _ out hp hrun
    exact ihsecond h.2 q k out hq hrest
  | alt left right ihleft ihright =>
    intro p k out hp hrun
    exact (orElse_eq_some hrun).elim (ihleft h.1 p k out hp) (ihright h.2 p k out hp)
  | loop body least most appetite ih => exact Node.keeps_loop (ih h) least most appetite
  | capture group body ih => exact h.1 (ih h.2)
  | «recall» group folding =>
    intro p k out hp hrun
    obtain ⟨q, hq, hk⟩ := Option.bind_eq_some_iff.mp hrun
    obtain ⟨t, -, hpast⟩ := Option.bind_eq_some_iff.mp hq
    obtain ⟨hwhole, hgroups⟩ := Place.same_of_past? hpast
    exact ⟨q, hI.moved hwhole hgroups hp, hk⟩
  | atomic body ih =>
    intro p k out hp hrun
    obtain ⟨q, hq, hk⟩ := Option.bind_eq_some_iff.mp hrun
    exact ⟨q, (ih h).of_some hp hq, hk⟩
  | ahead body negated ih =>
    intro p k out hp hrun
    cases negated with
    | false =>
      obtain ⟨q, hq, hk⟩ := Option.bind_eq_some_iff.mp hrun
      exact ⟨_, hI.merged hp ((ih h).of_some hp hq), hk⟩
    | true =>
      change (if (body.run p some).isSome then none else k p) = some out at hrun
      split at hrun
      next => cases hrun
      next => exact ⟨p, hp, hrun⟩
  | behind body width negated ih =>
    intro p k out hp hrun
    cases negated with
    | false =>
      obtain ⟨q, hq, hk⟩ := Option.bind_eq_some_iff.mp hrun
      obtain ⟨r, hr, hbody⟩ := Option.bind_eq_some_iff.mp hq
      obtain ⟨hwhole, hgroups⟩ := Place.same_of_back? hr
      exact ⟨_, hI.merged hp ((ih h).of_some (hI.moved hwhole hgroups hp) hbody), hk⟩
    | true =>
      change (if ((p.back? width).bind fun q ↦ body.run q some).isSome then none else k p) =
        some out at hrun
      split at hrun
      next => cases hrun
      next => exact ⟨p, hp, hrun⟩
  | choice group present absent ihpresent ihabsent =>
    intro p k out hp hrun
    change (if (p.groups.lookup group).isSome then present.run p k else absent.run p k) =
      some out at hrun
    split at hrun
    next => exact ihpresent h.1 p k out hp hrun
    next => exact ihabsent h.2 p k out hp hrun

theorem Node.stays (n : Node) : n.run.Stays := by
  intro t
  refine n.keeps ⟨fun hwhole _ hp ↦ hwhole.trans hp, fun hp _ ↦ hp⟩ ?_
  refine n.encloses_of_forall fun group body hbody p k out hp hrun ↦ ?_
  obtain ⟨q, hq, hk⟩ := hbody p _ out hp hrun
  exact ⟨{ q with groups := (group, p.upTo q) :: q.groups }, hq, hk⟩

/-- A match is of the text that it starts in. -/
theorem Node.whole_of_run (h : n.run (Place.start t) some = some p) : p.whole = t :=
  (n.stays t).of_some rfl h

end UrlRouting.Regex

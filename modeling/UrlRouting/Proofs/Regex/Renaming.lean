import UrlRouting.Proofs.Regex.Matching

/-!
Matching after characters are renamed. If the sets of one expression contain the new names of the
characters that those of another one contain, then the one matches the renamed text as the other
matches the text. Only the characters of an alphabet count, of which all texts at hand are made.
-/

namespace UrlRouting.Regex

/-- The place in the text with renamed characters. -/
def Place.map (f : Char → Char) (p : Place) : Place where
  before := p.before.map f
  after := p.after.map f
  groups := p.groups.map fun (group, t) ↦ (group, t.map f)

/-- The second node does to texts with renamed characters what the first one does to texts over the
alphabet. -/
def Node.Mirrors (f : Char → Char) (alphabet : Char → Prop) (n m : Node) : Prop :=
  ∀ (p : Place) (k k' : Continuation), (∀ c ∈ p.after, alphabet c) →
    (∀ q : Place, (∀ c ∈ q.after, alphabet c) → k' (q.map f) = (k q).map (Place.map f)) →
    m.run (p.map f) k' = (n.run p k).map (Place.map f)

namespace Node.Mirrors

variable {f : Char → Char} {alphabet : Char → Prop} {n m : Node} {ns ms : List Node} {p : Place}

theorem map_orElse {x y : Option Place} : ((x.orElse fun _ ↦ y).map (Place.map f)) =
    (x.map (Place.map f)).orElse fun _ ↦ y.map (Place.map f) := by
  cases x <;> rfl

theorem char {set set' : CharSet}
    (h : ∀ c, alphabet c → set'.contains (f c) = set.contains c) :
    (Node.char set).Mirrors f alphabet (.char set') := by
  intro p k k' hp hk
  obtain ⟨before, after, groups⟩ := p
  rw [run_char, run_char]
  cases after with
  | nil => rfl
  | cons c rest =>
    obtain ⟨hc, hrest⟩ := List.forall_mem_cons.mp hp
    change (if set'.contains (f c) then _ else _) = Option.map _ (if set.contains c then _ else _)
    rw [h c hc]
    split
    · exact hk ⟨c :: before, rest, groups⟩ hrest
    · rfl

theorem textStart : (Node.anchor .textStart).Mirrors f alphabet (.anchor .textStart) := by
  intro p k k' hp hk
  have hfits : (p.map f).fits .textStart = p.fits .textStart := List.isEmpty_map
  change (if (p.map f).fits .textStart then _ else _) = Option.map _ (if _ then _ else _)
  rw [hfits]
  split
  · exact hk p hp
  · rfl

theorem closingEnd (h : ∀ c, alphabet c → (f c = '\n' ↔ c = '\n')) :
    (Node.anchor .closingEnd).Mirrors f alphabet (.anchor .closingEnd) := by
  intro p k k' hp hk
  have hfits : (p.map f).fits .closingEnd = p.fits .closingEnd := by
    obtain ⟨before, after, groups⟩ := p
    rw [Place.fits, Place.fits, Place.map, List.isEmpty_map]
    rcases after with _ | ⟨c, _ | ⟨x, rest⟩⟩
    · rfl
    · have hc : (f c == '\n') = (c == '\n') := by
        rw [Bool.eq_iff_iff, beq_iff_eq, beq_iff_eq]
        exact h c (hp c List.mem_cons_self)
      change (false || (f c == '\n' && true)) = (false || (c == '\n' && true))
      rw [hc]
    · simp
  change (if (p.map f).fits .closingEnd then _ else _) = Option.map _ (if _ then _ else _)
  rw [hfits]
  split
  · exact hk p hp
  · rfl

theorem sequence_nil : (Node.sequence []).Mirrors f alphabet (.sequence []) :=
  fun p _ _ hp hk ↦ hk p hp

theorem sequence_cons (h : n.Mirrors f alphabet m)
    (hs : (Node.sequence ns).Mirrors f alphabet (.sequence ms)) :
    (Node.sequence (n :: ns)).Mirrors f alphabet (.sequence (m :: ms)) := by
  intro p k k' hp hk
  rw [run_sequence_cons, run_sequence_cons]
  exact h p _ _ hp fun q hq ↦ hs q k k' hq hk

theorem sequence_append {ns' ms' : List Node}
    (h : (Node.sequence ns).Mirrors f alphabet (.sequence ms))
    (hs : (Node.sequence ns').Mirrors f alphabet (.sequence ms')) :
    (Node.sequence (ns ++ ns')).Mirrors f alphabet (.sequence (ms ++ ms')) := by
  intro p k k' hp hk
  rw [run_sequence_append, run_sequence_append]
  exact h p _ _ hp fun q hq ↦ hs q k k' hq hk

theorem capture (group : Nat) (h : n.Mirrors f alphabet m) :
    (Node.capture group n).Mirrors f alphabet (.capture group m) := by
  intro p k k' hp hk
  refine h p _ _ hp fun q hq ↦ ?_
  have hupTo : (p.map f).upTo (q.map f) = (p.upTo q).map f := by
    rw [Place.upTo, Place.upTo, Place.map, Place.map, List.length_map, List.length_map,
      List.map_take]
  have hplace : ({ q.map f with
      groups := (group, (p.map f).upTo (q.map f)) :: (q.map f).groups } : Place) =
      Place.map f { q with groups := (group, p.upTo q) :: q.groups } := by
    rw [hupTo]
    rfl
  exact (congrArg k' hplace).trans (hk _ hq)

theorem loop (least : Nat) (most : Option Nat) (h : n.Mirrors f alphabet m) :
    (Node.loop n least most .greedy).Mirrors f alphabet (.loop m least most .greedy) := by
  have hloop : ∀ fuel count last (p : Place) (k k' : Continuation), (∀ c ∈ p.after, alphabet c) →
      (∀ q : Place, (∀ c ∈ q.after, alphabet c) → k' (q.map f) = (k q).map (Place.map f)) →
      Matcher.loop m.run least most false fuel count last (p.map f) k' =
        (Matcher.loop n.run least most false fuel count last p k).map (Place.map f) := by
    intro fuel
    induction fuel with
    | zero => exact fun _ _ _ _ _ _ _ ↦ rfl
    | succ fuel ih =>
      intro count last p k k' hp hk
      have hlength : (p.map f).after.length = p.after.length := List.length_map ..
      rw [Matcher.loop, Matcher.loop, hlength]
      split
      · exact h p _ _ hp fun q hq ↦ ih _ _ q k k' hq hk
      · simp only [Bool.false_eq_true, if_false]
        rw [map_orElse, hk p hp]
        congr 1
        split
        · exact h p _ _ hp fun q hq ↦ ih _ _ q k k' hq hk
        · rfl
  intro p k k' hp hk
  have hfuel : loopFuel least (p.map f) = loopFuel least p := by
    rw [loopFuel, loopFuel, Place.map, List.length_map]
  change Matcher.loop m.run least most false (loopFuel least (p.map f)) 0 none (p.map f) k' = _
  rw [hfuel]
  exact hloop _ _ _ p k k' hp hk

end Node.Mirrors

end UrlRouting.Regex

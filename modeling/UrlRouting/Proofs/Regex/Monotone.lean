import UrlRouting.Proofs.Regex.Matching

/-!
Matches with less behind them. Where an expression matches before one continuation, it matches
before every other one that succeeds wherever the first one does (`Node.grows`): what a part of an
expression matches on its own, in a look-around or all at once, does not depend on what comes after.
-/

namespace UrlRouting.Regex

/-- Wherever the first continuation succeeds, the second one does. -/
def Continuation.Within (k k' : Continuation) : Prop :=
  ∀ q, (k q).isSome = true → (k' q).isSome = true

/-- The matcher succeeds before every continuation that succeeds where another one does before which
it succeeds. -/
def Matcher.Grows (m : Matcher) : Prop :=
  ∀ p k k', Continuation.Within k k' → (m p k).isSome = true → (m p k').isSome = true

variable {p : Place} {k k' : Continuation} {ns : List Node}

theorem isSome_orElse {α : Type} {x y : Option α} :
    (x.orElse fun _ ↦ y).isSome = true ↔ x.isSome = true ∨ y.isSome = true := by
  cases x <;> simp

theorem isSome_ite_mono {α : Type} {c : Prop} [Decidable c] {x x' y y' : Option α}
    (hx : x.isSome = true → x'.isSome = true) (hy : y.isSome = true → y'.isSome = true)
    (h : (if c then x else y).isSome = true) : (if c then x' else y').isSome = true := by
  split at h
  next hc =>
    rw [if_pos hc]
    exact hx h
  next hc =>
    rw [if_neg hc]
    exact hy h

theorem isSome_orElse_mono {α : Type} {x x' y y' : Option α}
    (hx : x.isSome = true → x'.isSome = true) (hy : y.isSome = true → y'.isSome = true)
    (h : (x.orElse fun _ ↦ y).isSome = true) : (x'.orElse fun _ ↦ y').isSome = true :=
  isSome_orElse.mpr ((isSome_orElse.mp h).imp hx hy)

/-- Where it has gone without regard to the continuation, a match goes on. -/
theorem Continuation.Within.bind (h : k.Within k') {found : Option Place}
    (hk : (found.bind k).isSome = true) : (found.bind k').isSome = true := by
  cases found with
  | none => cases hk
  | some q => exact h q hk

/-- A look-around that succeeds goes on from the same place with the groups that it has found. -/
theorem Continuation.Within.merged (h : k.Within k') : Continuation.Within
    (fun q ↦ k { p with groups := q.groups }) fun q ↦ k' { p with groups := q.groups } :=
  fun _ hq ↦ h _ hq

namespace Matcher

variable {body : Matcher}

theorem grows_loop (hbody : body.Grows) (least : Nat) (most : Option Nat) (hurry : Bool)
    (fuel count : Nat) (last : Option Nat) :
    (Matcher.loop body least most hurry fuel count last).Grows := by
  induction fuel generalizing count last with
  | zero => nofun
  | succ fuel ih =>
    intro p k k' hk h
    have hagain (last : Option Nat)
        (h : (body p fun q ↦
          Matcher.loop body least most hurry fuel (count + 1) last q k).isSome = true) :
        (body p fun q ↦
          Matcher.loop body least most hurry fuel (count + 1) last q k').isSome = true :=
      hbody p _ _ (fun q hq ↦ ih _ _ q k k' hk hq) h
    rw [Matcher.loop] at h ⊢
    refine isSome_ite_mono (hagain last) (isSome_ite_mono ?_ ?_) h
    · exact isSome_orElse_mono (hk p) (isSome_ite_mono (hagain _) id)
    · exact isSome_orElse_mono (isSome_ite_mono (hagain _) id) (hk p)

end Matcher

theorem Node.grows (n : Node) : n.run.Grows := by
  induction n with
  | empty => exact fun p k k' hk h ↦ hk p h
  | char set =>
    intro p k k' hk h
    rw [run_char] at h ⊢
    split at h
    next => cases h
    next => exact isSome_ite_mono (hk _) id h
  | anchor a => exact fun p k k' hk ↦ isSome_ite_mono (hk p) id
  | seq first second ihfirst ihsecond =>
    exact fun p k k' hk ↦ ihfirst p _ _ fun q hq ↦ ihsecond q k k' hk hq
  | alt left right ihleft ihright =>
    exact fun p k k' hk ↦ isSome_orElse_mono (ihleft p k k' hk) (ihright p k k' hk)
  | loop body least most appetite ih =>
    intro p k k' hk h
    cases appetite with
    | greedy => exact Matcher.grows_loop ih _ _ _ _ _ _ p k k' hk h
    | lazy => exact Matcher.grows_loop ih _ _ _ _ _ _ p k k' hk h
    | possessive => exact hk.bind h
  | capture group body ih => exact fun p k k' hk ↦ ih p _ _ fun q hq ↦ hk _ hq
  | «recall» group folding => exact fun p k k' hk h ↦ hk.bind h
  | atomic body ih => exact fun p k k' hk h ↦ hk.bind h
  | ahead body negated ih =>
    intro p k k' hk h
    cases negated with
    | false => exact hk.merged.bind h
    | true => exact isSome_ite_mono id (hk p) h
  | behind body width negated ih =>
    intro p k k' hk h
    cases negated with
    | false => exact hk.merged.bind h
    | true => exact isSome_ite_mono id (hk p) h
  | choice group present absent ihpresent ihabsent =>
    exact fun p k k' hk ↦ isSome_ite_mono (ihpresent p k k' hk) (ihabsent p k k' hk)

/-! ### Alternatives -/

theorem isSome_alternatives (hne : ns ≠ []) (p : Place) (k : Continuation) :
    ((Node.alternatives ns).run p k).isSome = true ↔ ∃ n ∈ ns, (n.run p k).isSome = true := by
  induction ns with
  | nil => exact absurd rfl hne
  | cons n ns ih =>
    cases ns with
    | nil => simp [Node.alternatives]
    | cons m ns =>
      have hrun : (Node.alternatives (n :: m :: ns)).run p k =
          (n.run p k).orElse fun _ ↦ (Node.alternatives (m :: ns)).run p k := rfl
      simp only [hrun, isSome_orElse, ih (List.cons_ne_nil _ _), List.mem_cons, exists_eq_or_imp]

/-- An expression matches where it does with more at the end of its last alternative. -/
theorem isSome_alternatives_of_longer {alternatives nodes more : List Node} {t : Text}
    (h : ((Node.alternatives (alternatives ++ [Node.sequence (nodes ++ more)])).run
      (Place.start t) some).isSome = true) :
    ((Node.alternatives (alternatives ++ [Node.sequence nodes])).run
      (Place.start t) some).isSome = true := by
  rw [isSome_alternatives (by simp)] at h ⊢
  obtain ⟨n, hn, hrun⟩ := h
  rcases List.mem_append.mp hn with hn | hn
  · exact ⟨n, List.mem_append_left _ hn, hrun⟩
  · rw [List.mem_singleton.mp hn, run_sequence_append] at hrun
    refine ⟨_, List.mem_append_right _ (List.mem_singleton_self _), ?_⟩
    exact (Node.sequence nodes).grows _ _ some (fun _ _ ↦ rfl) hrun

end UrlRouting.Regex

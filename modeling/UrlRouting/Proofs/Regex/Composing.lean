import UrlRouting.Proofs.Regex.Stopping

/-!
Expressions as parts of others. What is an expression on its own is read as the same tokens in front
of a closing parenthesis or the anchor of the end (`Reads.of_parse`); with the anchor behind it, its
last alternative is bound to the end (`exists_parse_anchored`).
-/

namespace UrlRouting.Regex

namespace Token

variable {modes : Modes} {outer : List Modes} {t u : Text} {tokens : List Token} {fuel : Nat}

/-- A text in which all parentheses are closed is read up to its end, under the modes outside all of
them. -/
theorem Yields.exists_scanFrom_append (h : Yields modes outer t tokens)
    (hclosed : tokens.foldl deepened outer.length = 0)
    (hbottom : (outer.getLastD modes).spaced = false) (base : List Modes) (hu : Stops u)
    (hfuel : t.length + u.length ≤ fuel) :
    ∃ fuel', u.length ≤ fuel' ∧ scanFrom fuel modes (outer ++ base) (t ++ u) =
      (scanFrom fuel' (outer.getLastD modes) base u).map (tokens ++ ·) := by
  induction h generalizing fuel with
  | nil =>
    obtain rfl := List.length_eq_zero_iff.mp hclosed
    exact ⟨fuel, by simpa using hfuel, congrFun Except.map_id.symm _⟩
  | hidden _ hspaced => exact absurd hclosed (length_ne_zero_of_spaced hspaced hbottom)
  | @step _ _ _ _ _ t rest front _ hstep _ ih =>
    rw [List.foldl_append, ← hstep.tracks.depth] at hclosed
    rw [← hstep.tracks.bottom] at hbottom ⊢
    rw [List.length_cons] at hfuel
    obtain ⟨less, rfl⟩ : ∃ less, fuel = less + 1 := ⟨fuel - 1, by omega⟩
    have hless : rest.length + u.length ≤ less := by
      have hrest := hstep.isSuffix.length_le
      omega
    obtain ⟨fuel', hfuel', hscan⟩ := ih hclosed hbottom hless
    refine ⟨fuel', hfuel', ?_⟩
    rw [(hstep.append hu base).scanFrom_succ, hscan]
    cases scanFrom fuel' _ base u with
    | error defect => rfl
    | ok last => exact congrArg Except.ok (List.append_assoc front _ last).symm

/-- What is an expression on its own is read as the same tokens where it is a part of another one.
-/
theorem Reads.of_parse {ignoreCase : Bool} {r : Regex} (h : parse ignoreCase t = .ok r) :
    ∃ tokens, Token.scan ignoreCase t = .ok tokens ∧
      ∀ base, Reads (.initial ignoreCase) base t tokens base Stops := by
  obtain ⟨tokens, p, hscan, hrun, hfinish⟩ := Progress.exists_of_parse h
  have hclosed := Progress.foldl_deepened_of_finish hrun hfinish
  refine ⟨tokens, hscan, fun base fuel u hu hfuel ↦ ?_⟩
  exact (yields_of_scanFrom hscan).exists_scanFrom_append hclosed rfl base hu hfuel

end Token

theorem Progress.finish_push {p : Progress} {r : Regex} (h : p.finish = .ok r) (node : Node)
    (repeatable : Bool) : (p.push node repeatable).finish =
      .ok ⟨(p.push node repeatable).current.node, p.names⟩ := by
  rw [finish] at h ⊢
  split at h
  next hclosed => exact if_pos hclosed
  next => cases h

/-- With the anchor of the end behind it, an expression is the same but for the last alternative,
which has the anchor at its end. -/
theorem exists_parse_anchored {ignoreCase : Bool} {t : Text} {r : Regex}
    (h : parse ignoreCase t = .ok r) : ∃ alternatives nodes names,
      r = ⟨Node.alternatives (alternatives ++ [Node.sequence nodes]), names⟩ ∧
      parse ignoreCase (t ++ ['$']) = .ok ⟨Node.alternatives
        (alternatives ++ [Node.sequence (nodes ++ [.anchor .closingEnd])]), names⟩ := by
  obtain ⟨tokens, p, hscan, hrun, hfinish⟩ := Progress.exists_of_parse h
  obtain ⟨tokens', hscan', hreads⟩ := Token.Reads.of_parse h
  obtain rfl := Except.ok.inj (hscan.symm.trans hscan')
  have hanchored := ((hreads []).append (Token.Reads.anchorEnd (.initial ignoreCase) [] (· = []))
    fun u hu c hc ↦ .inr (Option.some.inj hc).symm).scan rfl
  obtain ⟨houter, rfl⟩ := Progress.finish_eq_ok hfinish
  refine ⟨p.current.alternatives.reverse, p.current.pieces.reverse.map Piece.node, p.names,
    ?_, ?_⟩
  · simp [Level.node, Level.complete, Level.endAlternative]
  · rw [parse, hanchored]
    change (Progress.start.run _).bind Progress.finish = _
    rw [Progress.run_append_of_ok hrun]
    refine (Progress.finish_push hfinish _ _).trans ?_
    simp [Progress.push, Level.push, Level.node, Level.complete, Level.endAlternative,
      Modes.initial]

end UrlRouting.Regex

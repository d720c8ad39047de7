import UrlRouting.Proofs.Regex.Consumption
import UrlRouting.Proofs.Regex.Matching
import UrlRouting.Proofs.Regex.Reading

/-!
Expressions with an anchor at their end. Whatever comes before, the reader comes to the tail behind
the last parenthesis, step by step (`Steps.reaches`, `Yields.arrives`), and as an expression has to
close what it opens, the tail is read under the modes of the beginning. So the anchor ends the last
alternative of the whole expression: `exists_root_of_parse`.
-/

namespace UrlRouting.Regex

namespace Token

variable {modes modes' modes'' : Modes} {outer outer' outer'' : List Modes}
  {t u rest tail : Text} {token : Token}
  {tokens more : List Token} {fuel : Nat} {c x z : Char}

/-- The number of open parentheses behind a token, from the number before it. -/
def deepened (depth : Nat) : Token → Nat
  | .enter _ => depth + 1
  | .leave => depth - 1
  | _ => depth

theorem deepened_of_isFlat (h : token.isFlat = true) (depth : Nat) :
    deepened depth token = depth := by
  cases token <;> first | rfl | cases h

theorem foldl_deepened_of_isFlat (h : ∀ token ∈ tokens, token.isFlat = true) (depth : Nat) :
    tokens.foldl deepened depth = depth := by
  induction tokens with
  | nil => rfl
  | cons token tokens ih =>
    obtain ⟨htoken, htokens⟩ := List.forall_mem_cons.mp h
    rw [List.foldl_cons, deepened_of_isFlat htoken, ih htokens]

/-- The tokens lead from some open parentheses to others. The modes outside all of them stay as they
are. -/
structure Tracks (tokens : List Token) (modes : Modes) (outer : List Modes) (modes' : Modes)
    (outer' : List Modes) : Prop where
  depth : outer'.length = tokens.foldl deepened outer.length
  bottom : outer'.getLastD modes' = outer.getLastD modes

namespace Tracks

theorem nil (modes : Modes) (outer : List Modes) : Tracks [] modes outer modes outer := ⟨rfl, rfl⟩

theorem append (h : Tracks tokens modes outer modes' outer')
    (h' : Tracks more modes' outer' modes'' outer'') :
    Tracks (tokens ++ more) modes outer modes'' outer'' where
  depth := by rw [h'.depth, h.depth, List.foldl_append]
  bottom := h'.bottom.trans h.bottom

theorem flat (h : token.isFlat = true) (modes : Modes) (outer : List Modes) :
    Tracks [token] modes outer modes outer :=
  ⟨(deepened_of_isFlat h _).symm, rfl⟩

theorem enter (opening : Opening) (modes inner : Modes) (outer : List Modes) :
    Tracks [.enter opening] modes outer inner (modes :: outer) :=
  ⟨rfl, List.getLastD_cons⟩

theorem leave (modes inner : Modes) (outer : List Modes) :
    Tracks [.leave] inner (modes :: outer) modes outer :=
  ⟨rfl, List.getLastD_cons.symm⟩

end Tracks

theorem Steps.tracks (h : Steps modes outer t tokens modes' outer' rest) :
    Tracks tokens modes outer modes' outer' := by
  cases h with
  | spacing | comment | remark => exact .nil modes outer
  | flat _ _ _ h => exact .flat (isFlat_readFlat h) modes outer
  | enter _ h => exact .enter _ modes modes' outer
  | complete _ h => exact .flat (isFlat_complete h) modes outer
  | leave => exact .leave modes' modes outer'

/-- The tokens are those of a reading that has come to the beginning of the tail and goes on from
there. -/
def Arrives (tail : Text) (modes : Modes) (outer : List Modes) (tokens : List Token) : Prop :=
  ∃ front more fuel modes' outer', tokens = front ++ more ∧ tail.length ≤ fuel ∧
    scanFrom fuel modes' outer' tail = .ok more ∧ Tracks front modes outer modes' outer'

/-- The modes outside all parentheses are not spaced, so that comments hide the rest only within
parentheses, which stay open. -/
theorem length_ne_zero_of_spaced (hspaced : modes.spaced = true)
    (hbottom : (outer.getLastD modes).spaced = false) : outer.length ≠ 0 := by
  intro hclosed
  obtain rfl := List.length_eq_zero_iff.mp hclosed
  rw [List.getLastD_nil, hspaced] at hbottom
  cases hbottom

/-- A text of which all parentheses are closed is read up to the beginning of the tail. -/
theorem Yields.arrives (hs : Sealed tail) (h : Yields modes outer t tokens)
    (ht : (')' :: tail) <:+ t) (hclosed : tokens.foldl deepened outer.length = 0)
    (hbottom : (outer.getLastD modes).spaced = false) : Arrives tail modes outer tokens := by
  induction h with
  | nil => simp at ht
  | hidden _ hspaced => exact absurd hclosed (length_ne_zero_of_spaced hspaced hbottom)
  | step hstep hmore ih =>
    rw [List.foldl_append, ← hstep.tracks.depth] at hclosed
    rw [← hstep.tracks.bottom] at hbottom
    rcases hstep.reaches hs ht with rfl | ht
    · exact ⟨_, _, _, _, _, rfl, le_rfl, hmore.scanFrom_eq le_rfl, hstep.tracks⟩
    · obtain ⟨front, more, fuel, modes', outer', rfl, hfuel, hscan, htracks⟩ :=
        ih ht hclosed hbottom
      exact ⟨_, more, fuel, modes', outer', (List.append_assoc _ front more).symm, hfuel, hscan,
        hstep.tracks.append htracks⟩

/-! ### The tail -/

/-- The characters that under some modes do not stand for themselves, or that may end what is being
read. -/
def unfirm : Text := marks ++ "#]> \t\n\x0b\x0c\r".toList

def isFirm (c : Char) : Bool := !unfirm.contains c

/-- Characters that stand for themselves, some of them because of a backslash. -/
inductive Spelled : Text → Prop
  | nil : Spelled []
  | firm {c : Char} {t : Text} (hc : isFirm c = true) (h : Spelled t) : Spelled (c :: t)
  | escaped {c : Char} {t : Text} (hc : Text.isAlphanumeric c = false)
      (hclosed : c ∉ [']', '>', '?']) (h : Spelled t) : Spelled ('\\' :: c :: t)

/-- What comes after the last parenthesis: it may be optional what the parentheses enclose, then
there are characters that stand for themselves, and the end. -/
def ending (optional : Bool) (t : Text) : Text :=
  (if optional then ['?'] else []) ++ (t ++ ['$'])

theorem ne_of_isFirm (h : isFirm c = true) (hx : isFirm x = false) : c ≠ x := by
  rintro rfl
  rw [hx] at h
  cases h

theorem isFirm_of_forall {p : Char → Prop} (hunfirm : ∀ c ∈ unfirm, ¬p c) (hc : p c) :
    isFirm c = true := by
  rw [isFirm, Bool.not_eq_true', Bool.eq_false_iff, Ne, List.contains_iff_mem]
  exact fun hmem ↦ hunfirm c hmem hc

theorem isVerbatim_of_isFirm (h : isFirm c = true) : isVerbatim c = true :=
  isVerbatim_of_forall (p := fun c ↦ isFirm c = true) (by decide) h

theorem isSpacing_of_isFirm (h : isFirm c = true) : isSpacing c = false := by
  refine Bool.eq_false_iff.mpr fun hspacing ↦ ?_
  rw [isSpacing, Bool.or_eq_true, beq_iff_eq, Bool.and_eq_true, decide_eq_true_eq,
    decide_eq_true_eq] at hspacing
  rcases hspacing with rfl | hrange
  · exact absurd h (by decide)
  · have hcode : 9 ≤ c.toNat ∧ c.toNat ≤ 13 := hrange
    obtain hc | hc | hc | hc | hc : c.toNat = 9 ∨ c.toNat = 10 ∨ c.toNat = 11 ∨ c.toNat = 12 ∨
      c.toNat = 13 := by omega
    all_goals
      rw [← Char.ofNat_toNat c, hc] at h
      exact absurd h (by decide)

theorem dropThrough_cons (hc : c ≠ '\\') (hz : c ≠ z) (t : Text) :
    dropThrough z (c :: t) = dropThrough z t := by
  rw [dropThrough, if_neg hz]
  · exact fun he ↦ absurd he hc
  · exact fun _ _ he ↦ absurd he hc

namespace Spelled

theorem append (h : Spelled t) (h' : Spelled u) : Spelled (t ++ u) := by
  induction h with
  | nil => exact h'
  | firm hc _ ih => exact .firm hc ih
  | escaped hc hclosed _ ih => exact .escaped hc hclosed ih

theorem not_mem (h : Spelled t) (hz : z ∈ [']', '>', '?']) : z ∉ t := by
  have hfirm := (by decide : ∀ x ∈ [']', '>', '?'], isFirm x = false) z hz
  have hslash := (by decide : ∀ x ∈ [']', '>', '?'], x ≠ '\\') z hz
  induction h with
  | nil => exact List.not_mem_nil
  | firm hc _ ih =>
    rw [List.mem_cons, not_or]
    exact ⟨(ne_of_isFirm hc hfirm).symm, ih⟩
  | escaped _ hclosed _ ih =>
    rw [List.mem_cons, List.mem_cons, not_or, not_or]
    exact ⟨hslash, fun he ↦ hclosed (he ▸ hz), ih⟩

theorem dropThrough_eq_none (h : Spelled t) (hz : z ∈ [')', '\n']) :
    dropThrough z (t ++ ['$']) = .ok none := by
  have hfirm := (by decide : ∀ x ∈ [')', '\n'], isFirm x = false) z hz
  have hend := (by decide : ∀ x ∈ [')', '\n'], '$' ≠ x) z hz
  induction h with
  | nil => exact dropThrough_cons (by decide) hend []
  | firm hc _ ih =>
    rw [List.cons_append, dropThrough_cons (ne_of_isFirm hc (by decide)) (ne_of_isFirm hc hfirm),
      ih]
  | escaped _ _ _ ih => exact ih

theorem sealed (h : Spelled t) (optional : Bool) : Sealed (ending optional t) := by
  have hmem {z : Char} (hz : z ∈ [']', '>']) : z ∉ ending optional t := by
    have hends := (by decide : ∀ x ∈ [']', '>'], x ∈ [']', '>', '?'] ∧ x ∉ ['?'] ∧ x ∉ ['$']) z hz
    rw [ending, List.mem_append, List.mem_append, not_or, not_or]
    refine ⟨?_, h.not_mem hends.1, hends.2.2⟩
    cases optional with
    | false => exact List.not_mem_nil
    | true => exact hends.2.1
  have hdrop {z : Char} (hz : z ∈ [')', '\n']) : dropThrough z (ending optional t) = .ok none := by
    cases optional with
    | false => exact h.dropThrough_eq_none hz
    | true =>
      have hmark := (by decide : ∀ x ∈ [')', '\n'], '?' ≠ x) z hz
      exact (dropThrough_cons (by decide) hmark _).trans (h.dropThrough_eq_none hz)
  refine ⟨hmem (by decide), hmem (by decide), fun rest hrest ↦ ?_, fun rest hrest ↦ ?_⟩
  · rw [hdrop (by decide)] at hrest
    cases hrest
  · rw [hdrop (by decide)] at hrest
    cases hrest

theorem unmarked (h : Spelled t) : Reads.unmarked (t ++ ['$']) := by
  cases h with
  | nil => exact ⟨by decide, by decide⟩
  | firm hc _ =>
    exact ⟨fun he ↦ ne_of_isFirm hc (by decide) (Option.some.inj he),
      fun he ↦ ne_of_isFirm hc (by decide) (Option.some.inj he)⟩
  | escaped => exact ⟨by simp, by simp⟩

theorem exists_reads (h : Spelled t) (modes : Modes) (outer : List Modes) :
    ∃ tokens, (∀ token ∈ tokens, token.isFlat = true) ∧
      Reads modes outer t tokens outer fun _ ↦ True := by
  induction h with
  | nil => exact ⟨[], nofun, .nil _ _ _⟩
  | @firm c t hc _ ih =>
    obtain ⟨tokens, hflat, hreads⟩ := ih
    have hspaced : isSpacing c = false ∧ c ≠ '#' :=
      ⟨isSpacing_of_isFirm hc, ne_of_isFirm hc (by decide)⟩
    exact ⟨_ :: tokens, List.forall_mem_cons.mpr ⟨rfl, hflat⟩,
      (Reads.literal modes outer (isVerbatim_of_isFirm hc) (fun _ ↦ hspaced) fun _ ↦ True).append
        hreads fun _ _ ↦ trivial⟩
  | @escaped c t hc _ _ ih =>
    obtain ⟨tokens, hflat, hreads⟩ := ih
    exact ⟨_ :: tokens, List.forall_mem_cons.mpr ⟨rfl, hflat⟩,
      (Reads.escaped modes outer hc fun _ ↦ True).append hreads fun _ _ ↦ trivial⟩

/-- The last token of the tail is the anchor at its end. -/
theorem exists_scanFrom (h : Spelled t) (optional : Bool) (modes : Modes) (outer : List Modes)
    (hfuel : (ending optional t).length ≤ fuel) :
    ∃ tokens, (∀ token ∈ tokens, token.isFlat = true) ∧
      scanFrom fuel modes outer (ending optional t) =
        .ok (tokens ++ [.anchor (if modes.lines then .lineEnd else .closingEnd)]) := by
  obtain ⟨tokens, hflat, hreads⟩ := h.exists_reads modes outer
  have hend := hreads.append (Reads.anchorEnd modes outer (· = [])) fun _ _ ↦ trivial
  cases optional with
  | false => exact ⟨tokens, hflat, hend.scanFrom_eq rfl hfuel⟩
  | true =>
    refine ⟨_ :: tokens, List.forall_mem_cons.mpr ⟨rfl, hflat⟩,
      ((Reads.optional modes outer).append hend ?_).scanFrom_eq rfl hfuel⟩
    rintro _ rfl
    rw [List.append_nil]
    exact h.unmarked

end Spelled

end Token

namespace Progress

variable {p q : Progress} {tokens more : List Token} {token : Token} {a : Anchor} {r : Regex}

/-- The levels that are kept are those of the open parentheses. -/
theorem length_outer_step (h : p.step token = .ok q) :
    q.outer.length = Token.deepened p.outer.length token := by
  cases token with
  | enter opening =>
    change p.enter opening = .ok q at h
    rw [enter.eq_def] at h
    dsimp only at h
    repeat' split at h
    all_goals
      cases h
    all_goals rfl
  | leave =>
    change p.leave = .ok q at h
    rw [leave] at h
    split at h
    next => cases h
    next houter =>
      obtain ⟨_, -, rfl⟩ := Token.map_eq_ok h
      rw [houter]
      rfl
  | count least most appetite =>
    obtain ⟨_, -, rfl⟩ := Token.map_eq_ok h
    rfl
  | «recall» ref folding =>
    obtain ⟨_, -, rfl⟩ := Token.map_eq_ok h
    rfl
  | char set =>
    cases h
    rfl
  | anchor anchor =>
    cases h
    rfl
  | bar =>
    cases h
    rfl

theorem length_outer_run (h : p.run tokens = .ok q) :
    q.outer.length = tokens.foldl Token.deepened p.outer.length := by
  induction tokens generalizing p with
  | nil =>
    cases h
    rfl
  | cons token tokens ih =>
    obtain ⟨next, hstep, hrun⟩ := run_cons_eq_ok h
    rw [ih hrun, length_outer_step hstep, List.foldl_cons]

/-- An expression closes all the parentheses that it opens. -/
theorem foldl_deepened_of_finish (hrun : start.run tokens = .ok p) (h : p.finish = .ok r) :
    tokens.foldl Token.deepened 0 = 0 := by
  have hlength := length_outer_run hrun
  rw [(finish_eq_ok h).1] at hlength
  exact hlength.symm

theorem run_append_eq_ok (h : p.run (tokens ++ more) = .ok q) :
    ∃ middle, p.run tokens = .ok middle ∧ middle.run more = .ok q := by
  rw [run_append] at h
  exact Token.bind_eq_ok h

/-- An anchor that comes last ends the last alternative. -/
theorem exists_root (hrun : start.run (tokens ++ [.anchor a]) = .ok p) (h : p.finish = .ok r) :
    ∃ alternatives nodes,
      r.root = Node.alternatives (alternatives ++ [Node.sequence (nodes ++ [.anchor a])]) := by
  obtain ⟨q, -, hlast⟩ := run_append_eq_ok hrun
  cases hlast
  obtain ⟨-, rfl⟩ := finish_eq_ok h
  refine ⟨q.current.alternatives.reverse, q.current.pieces.reverse.map Piece.node, ?_⟩
  simp [push, Level.push, Level.node, Level.complete, Level.endAlternative]

end Progress

/-- An expression that ends in a parenthesis, characters that stand for themselves and an anchor is
a choice of alternatives, of which the last one is bound to the end. -/
theorem exists_root_of_parse {ignoreCase optional : Bool} {front t : Text} {r : Regex}
    (ht : Token.Spelled t)
    (h : parse ignoreCase (front ++ ')' :: Token.ending optional t) = .ok r) :
    ∃ alternatives nodes, r.root =
      Node.alternatives (alternatives ++ [Node.sequence (nodes ++ [.anchor .closingEnd])]) := by
  obtain ⟨tokens, p, hscan, hrun, hfinish⟩ := Progress.exists_of_parse h
  have hclosed := Progress.foldl_deepened_of_finish hrun hfinish
  obtain ⟨before, more, fuel, modes, outer, rfl, hfuel, hmore, htracks⟩ :=
    (Token.yields_of_scanFrom hscan).arrives (ht.sealed optional) (List.suffix_append _ _) hclosed
      rfl
  obtain ⟨tokens, hflat, hending⟩ := ht.exists_scanFrom optional modes outer hfuel
  obtain rfl := Except.ok.inj (hmore.symm.trans hending)
  -- no parenthesis is open at the end, so that the modes are those of the beginning
  have houter : outer = [] := by
    rw [List.foldl_append, List.foldl_append, Token.foldl_deepened_of_isFlat hflat] at hclosed
    exact List.length_eq_zero_iff.mp (htracks.depth.trans hclosed)
  subst houter
  obtain rfl : modes = _ := htracks.bottom
  rw [← List.append_assoc] at hrun
  exact Progress.exists_root hrun hfinish

/-- The match is one of an alternative before the last one. -/
def Strays (r : Regex) (t : Text) (p : Place) : Prop :=
  ∃ alternatives last, r.root = Node.alternatives (alternatives ++ [last]) ∧
    ∃ n ∈ alternatives, n.run (Place.start t) some = some p

theorem alternatives_cons_append (n : Node) (ns : List Node) (last : Node) :
    Node.alternatives (n :: ns ++ [last]) = .alt n (Node.alternatives (ns ++ [last])) := by
  cases ns <;> rfl

theorem run_alternatives {ns : List Node} {last : Node} {p out : Place} {k : Continuation}
    (h : (Node.alternatives (ns ++ [last])).run p k = some out) :
    last.run p k = some out ∨ ∃ n ∈ ns, n.run p k = some out := by
  induction ns with
  | nil => exact .inl h
  | cons n ns ih =>
    rw [alternatives_cons_append] at h
    rcases orElse_eq_some h with h | h
    · exact .inr ⟨n, List.mem_cons_self, h⟩
    · exact (ih h).imp_right fun ⟨m, hm, hrun⟩ ↦ ⟨m, List.mem_cons_of_mem _ hm, hrun⟩

/-- An expression that is one sequence has no other alternatives. -/
theorem not_strays_of_sequence {first last : Node} {nodes : List Node} {t : Text} {r : Regex}
    {p : Place} (hroot : r.root = Node.sequence (first :: (nodes ++ [last]))) :
    ¬r.Strays t p := by
  rintro ⟨alternatives, other, halternatives, n, hn, -⟩
  have hseq : r.root = .seq first (Node.sequence (nodes ++ [last])) := by
    rw [hroot]
    cases nodes <;> rfl
  cases alternatives with
  | nil => cases hn
  | cons n ns =>
    rw [alternatives_cons_append, hseq] at halternatives
    cases halternatives

/-- What a sequence with the anchor at its end matches is the whole text, or the whole text but for
a line feed at its end. -/
theorem whole_of_closingEnd {nodes : List Node} {t : Text} {p : Place}
    (h : (Node.sequence (nodes ++ [.anchor .closingEnd])).run (Place.start t) some = some p) :
    t = p.before.reverse ∨ t = p.before.reverse ++ ['\n'] := by
  have hwhole : p.whole = t := Node.whole_of_run h
  rw [run_sequence_append] at h
  obtain ⟨q, -, hend⟩ := (Node.sequence nodes).stays _ _ _ p rfl h
  obtain ⟨_, ⟨hfits, rfl⟩, he⟩ := Node.Leads.anchor .closingEnd q some p hend
  cases he
  rw [← hwhole, Place.whole]
  simp only [Place.fits, Bool.or_eq_true, List.isEmpty_iff, beq_iff_eq] at hfits
  rcases hfits with hafter | hafter
  · exact .inl (by rw [hafter, List.append_nil])
  · exact .inr (by rw [hafter])

theorem whole_of_matchStart? {alternatives nodes : List Node} {t : Text} {r : Regex} {p : Place}
    (hroot : r.root =
      Node.alternatives (alternatives ++ [Node.sequence (nodes ++ [.anchor .closingEnd])]))
    (h : r.matchStart? t = some p) :
    (t = p.before.reverse ∨ t = p.before.reverse ++ ['\n']) ∨ r.Strays t p := by
  rw [matchStart?, hroot] at h
  exact (run_alternatives h).imp whole_of_closingEnd fun hother ↦ ⟨_, _, hroot, hother⟩

end UrlRouting.Regex

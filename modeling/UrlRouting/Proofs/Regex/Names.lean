import UrlRouting.Proofs.Regex.Stepping
import UrlRouting.Regex.Match

/-!
The names of groups. The notation of expressions admits identifiers only, and no name twice:
`wellNamed_of_parse`. What the groups of a match hold is therefore bound under distinct names.
-/

namespace UrlRouting.Regex

/-- A name that the token gives to a group is an identifier. -/
def Token.WellNamed (token : Token) : Prop :=
  ∀ name, token = .enter (.capture (some name)) → Text.isIdentifier name = true

namespace Token

variable {modes modes' inner : Modes} {outer outer' : List Modes} {c : Char} {t rest : Text}
  {token : Token} {tokens : List Token} {opening : Opening}

theorem wellNamed_of_isFlat (h : token.isFlat = true) : token.WellNamed := by
  rintro name rfl
  cases h

theorem isIdentifier_of_readName {name : Text} (h : readName c t = .ok (name, rest)) :
    Text.isIdentifier name = true := by
  rw [readName] at h
  split at h
  next =>
    split at h
    next hname =>
      cases h
      exact hname
    next => cases h
  next => cases h

theorem wellNamed_readParenthesis
    (h : readParenthesis modes t = .ok (.group opening inner, rest)) :
    (Token.enter opening).WellNamed := by
  rintro name he
  cases he
  cases opened_of_readParenthesis h with
  | marked mark hmark => simp [markings] at hmark
  | named h => exact isIdentifier_of_readName h

theorem Steps.wellNamed (h : Steps modes outer t tokens modes' outer' rest) :
    ∀ token ∈ tokens, token.WellNamed := by
  cases h with
  | spacing | comment | remark => exact nofun
  | flat _ _ _ h =>
    exact List.forall_mem_singleton.mpr (wellNamed_of_isFlat (isFlat_readFlat h))
  | enter _ h => exact List.forall_mem_singleton.mpr (wellNamed_readParenthesis h)
  | complete _ h =>
    exact List.forall_mem_singleton.mpr (wellNamed_of_isFlat (isFlat_complete h))
  | leave => exact List.forall_mem_singleton.mpr nofun

theorem Yields.wellNamed (h : Yields modes outer t tokens) : ∀ token ∈ tokens, token.WellNamed := by
  induction h with
  | nil | hidden => exact nofun
  | step hstep _ ih => exact List.forall_mem_append.mpr ⟨hstep.wellNamed, ih⟩

end Token

/-- Names of groups are distinct identifiers. -/
structure WellNamed (names : List (Text × Nat)) : Prop where
  nodup : (names.map Prod.fst).Nodup
  isIdentifier : ∀ entry ∈ names, Text.isIdentifier entry.1 = true

namespace Progress

variable {p q : Progress} {token : Token} {tokens : List Token} {r : Regex}

theorem run_cons_eq_ok (h : p.run (token :: tokens) = .ok q) :
    ∃ next, p.step token = .ok next ∧ next.run tokens = .ok q :=
  Token.bind_eq_ok h

theorem run_append (p : Progress) (tokens more : List Token) :
    p.run (tokens ++ more) = (p.run tokens).bind (·.run more) := by
  induction tokens generalizing p with
  | nil => rfl
  | cons token tokens ih =>
    rw [List.cons_append, run, run]
    cases p.step token with
    | error defect => rfl
    | ok next => exact ih next

theorem run_append_of_ok (h : p.run tokens = .ok q) (more : List Token) :
    p.run (tokens ++ more) = q.run more := by
  rw [run_append, h]
  rfl

theorem finish_eq_ok (h : p.finish = .ok r) : p.outer = [] ∧ r = ⟨p.current.node, p.names⟩ := by
  rw [finish] at h
  split at h
  next hall =>
    cases h
    rw [Bool.and_eq_true, List.isEmpty_iff] at hall
    exact ⟨hall.1, rfl⟩
  next => cases h

theorem exists_of_parse {ignoreCase : Bool} {t : Text} (h : parse ignoreCase t = .ok r) :
    ∃ tokens p, Token.scan ignoreCase t = .ok tokens ∧ start.run tokens = .ok p ∧
      p.finish = .ok r := by
  obtain ⟨tokens, hscan, h⟩ := Token.bind_eq_ok h
  obtain ⟨p, hrun, hfinish⟩ := Token.bind_eq_ok h
  exact ⟨tokens, p, hscan, hrun, hfinish⟩

theorem names_leave (h : p.leave = .ok q) : q.names = p.names := by
  rw [leave] at h
  split at h
  · cases h
  · obtain ⟨_, -, rfl⟩ := Token.map_eq_ok h
    rfl

theorem names_enter {opening : Opening} (h : p.enter opening = .ok q) : q.names = p.names ∨
    ∃ name number, opening = .capture (some name) ∧ p.names.lookup name = none ∧
      q.names = p.names ++ [(name, number)] := by
  rw [enter.eq_def] at h
  dsimp only at h
  repeat' split at h
  all_goals cases h
  all_goals first
    | exact .inl rfl
    | exact .inr ⟨_, _, rfl, Option.not_isSome_iff_eq_none.mp ‹_›, rfl⟩

theorem names_step (h : p.step token = .ok q) : q.names = p.names ∨
    ∃ name number, token = .enter (.capture (some name)) ∧ p.names.lookup name = none ∧
      q.names = p.names ++ [(name, number)] := by
  cases token with
  | enter opening =>
    rcases names_enter h with hn | ⟨name, number, rfl, hn⟩
    · exact .inl hn
    · exact .inr ⟨name, number, rfl, hn⟩
  | leave => exact .inl (names_leave h)
  | count least most appetite =>
    obtain ⟨_, -, rfl⟩ := Token.map_eq_ok h
    exact .inl rfl
  | «recall» ref folding =>
    obtain ⟨_, -, rfl⟩ := Token.map_eq_ok h
    exact .inl rfl
  | char set =>
    cases h
    exact .inl rfl
  | anchor anchor =>
    cases h
    exact .inl rfl
  | bar =>
    cases h
    exact .inl rfl

theorem wellNamed_step (h : p.step token = .ok q) (ht : token.WellNamed)
    (hp : WellNamed p.names) : WellNamed q.names := by
  rcases names_step h with hn | ⟨name, number, rfl, hnew, hn⟩
  · rwa [hn]
  · rw [hn]
    refine ⟨?_, ?_⟩
    · rw [List.map_append, List.nodup_append]
      refine ⟨hp.nodup, by simp, ?_⟩
      rintro other hother _ hname rfl
      obtain ⟨entry, hmem, rfl⟩ := List.mem_map.mp hother
      have hne := List.lookup_eq_none_iff.mp hnew entry hmem
      simp only [List.map_cons, List.map_nil, List.mem_singleton] at hname
      simp [hname] at hne
    · intro entry hmem
      rcases List.mem_append.mp hmem with hmem | hmem
      · exact hp.isIdentifier entry hmem
      · rw [List.mem_singleton.mp hmem]
        exact ht name rfl

theorem wellNamed_run (h : p.run tokens = .ok q) (ht : ∀ token ∈ tokens, token.WellNamed)
    (hp : WellNamed p.names) : WellNamed q.names := by
  induction tokens generalizing p with
  | nil =>
    cases h
    exact hp
  | cons token rest ih =>
    obtain ⟨next, hstep, hrun⟩ := run_cons_eq_ok h
    exact ih hrun (fun other hmem ↦ ht other (List.mem_cons_of_mem _ hmem))
      (wellNamed_step hstep (ht token List.mem_cons_self) hp)

end Progress

/-- The groups of an expression that is read from a text have distinct identifiers for names. -/
theorem wellNamed_of_parse {ignoreCase : Bool} {t : Text} {r : Regex}
    (h : parse ignoreCase t = .ok r) : WellNamed r.names := by
  obtain ⟨tokens, p, hscan, hrun, hfinish⟩ := Progress.exists_of_parse h
  obtain ⟨-, rfl⟩ := Progress.finish_eq_ok hfinish
  exact Progress.wellNamed_run hrun (Token.yields_of_scanFrom hscan).wellNamed ⟨.nil, nofun⟩

end UrlRouting.Regex

import UrlRouting.Proofs.Table.Alike
import UrlRouting.Table.Matching

/-!
Actions that answer what a table determines. Such an action may compile nodes and keep expressions
on its way, but its answer is a function of the table that it starts from, and it leaves behind a
table that determines the same answers (`Action.Answers`). A fault is an answer like any other.
-/

namespace UrlRouting

theorem bind_eq_ok_iff {α β : Type} {x : Except Fault α} {f : α → Except Fault β} {b : β} :
    x >>= f = .ok b ↔ ∃ a, x = .ok a ∧ f a = .ok b := by
  cases x with
  | error e => exact ⟨nofun, nofun⟩
  | ok a => exact ⟨fun h ↦ ⟨a, rfl, h⟩, fun ⟨_, h, h'⟩ ↦ by cases h; exact h'⟩

theorem bind_eq_error_iff {α β : Type} {x : Except Fault α} {f : α → Except Fault β} {e : Fault} :
    x >>= f = .error e ↔ x = .error e ∨ ∃ a, x = .ok a ∧ f a = .error e := by
  cases x with
  | error e' =>
    have hbind : (Except.error e' : Except Fault α) >>= f = .error e' := rfl
    rw [hbind, Except.error.injEq, Except.error.injEq]
    exact ⟨.inl, fun h ↦ h.resolve_right nofun⟩
  | ok a =>
    refine ⟨fun h ↦ .inr ⟨a, rfl, h⟩, fun h ↦ ?_⟩
    obtain ⟨_, h, h'⟩ := h.resolve_left nofun
    cases h
    exact h'

theorem exists_ok_of_any {α : Type} {x : Except Fault α} {p : α → Bool}
    (h : x.toOption.any p = true) : ∃ a, x = .ok a ∧ p a = true := by
  cases x with
  | error e => cases h
  | ok a => exact ⟨a, rfl, h⟩

namespace Table

/-- A rule with all that is in effect at it, or why it cannot be compiled. -/
def ruleAt (t : Table) (id : NodeId) : Except Fault CompiledRule :=
  match t.inEffect? id with
  | none => .error .missingAttribute
  | some c =>
    if (t.node id).isCompiled then .ok c
    else if t.namesAreKeys (t.lineage id) then
      (c.regex (c.isComplete false)).map fun _ ↦ c
    else .error .wrongType

/-- The second table is sound, and determines the same answers as the first. -/
structure Same (t s : Table) : Prop where
  sound : s.Sound
  advanced : t.Advanced s
  ruleAt : ∀ id, s.ruleAt id = t.ruleAt id

variable {t s u : Table} {id : NodeId} {c : CompiledRule}

theorem inEffect?_of_ruleAt (h : t.ruleAt id = .ok c) : t.inEffect? id = some c := by
  rw [Table.ruleAt] at h
  split at h
  next => cases h
  next c' hc =>
    split at h
    next =>
      cases h
      exact hc
    next =>
      split at h
      next =>
        cases hr : c'.regex (c'.isComplete false) with
        | error e =>
          rw [hr] at h
          cases h
        | ok r =>
          rw [hr] at h
          cases h
          exact hc
      next => cases h

theorem ruleAt_of_inEffect? (hin : t.inEffect? id = some c)
    (h : (t.ruleAt id).toOption.isSome = true) : t.ruleAt id = .ok c := by
  cases hat : t.ruleAt id with
  | error fault =>
    rw [hat] at h
    cases h
  | ok c' =>
    cases hin.symm.trans (inEffect?_of_ruleAt hat)
    rfl

/-- The names of merged options are fit for keys at a rule that can be compiled. -/
theorem keys_of_ruleAt (ht : t.Grounded) (h : t.ruleAt id = .ok c) :
    t.namesAreKeys (t.lineage id) = true := by
  rw [Table.ruleAt] at h
  split at h
  next => cases h
  next =>
    split at h
    next hc => rw [namesAreKeys_lineage ht, hc, Bool.true_or]
    next =>
      split at h
      next hk => exact hk
      next => cases h

namespace Same

theorem refl (h : t.Sound) : t.Same t := ⟨h, .refl t, fun _ ↦ rfl⟩

theorem alike (h : t.Same s) : t.Alike s := h.advanced.toAlike

theorem trans (h : t.Same s) (h' : s.Same u) : t.Same u where
  sound := h'.sound
  advanced := h.advanced.trans h'.advanced
  ruleAt id := (h'.ruleAt id).trans (h.ruleAt id)

end Same

/-- Tables that show the same and have the same nodes compiled determine the same answers. -/
theorem Advanced.same (h : t.Advanced s) (hs : s.Sound)
    (hcompiled : ∀ id, (s.node id).isCompiled = (t.node id).isCompiled) : t.Same s where
  sound := hs
  advanced := h
  ruleAt id := by
    rw [Table.ruleAt, Table.ruleAt, h.inEffect?_eq, hcompiled, h.keys]

end Table

namespace Action

variable {α β : Type} {t s : Table} {x : Except Fault α} {a : Action α}

def answer? (a : Action α) (t : Table) : Option α :=
  match a.run t with
  | .ok y _ => some y
  | .error _ _ => none

def fault? (a : Action α) (t : Table) : Option Fault :=
  match a.run t with
  | .ok _ _ => none
  | .error e _ => some e

/-- What an action answers, whatever table it leaves behind. -/
def outcome (a : Action α) (t : Table) : Except Fault α :=
  match a.run t with
  | .ok y _ => .ok y
  | .error e _ => .error e

theorem outcome_of_answer? {y : α} (h : a.answer? t = some y) : a.outcome t = .ok y := by
  rw [answer?] at h
  rw [outcome]
  cases hr : a.run t with
  | ok z s =>
    rw [hr, Option.some.injEq] at h
    exact congrArg _ h
  | error e s =>
    rw [hr] at h
    cases h

theorem exists_run_of_answer? {y : α} (h : a.answer? t = some y) : ∃ s, a.run t = .ok y s := by
  rw [answer?] at h
  cases hr : a.run t with
  | ok z s =>
    rw [hr] at h
    exact ⟨s, by rw [Option.some.inj h]⟩
  | error e s =>
    rw [hr] at h
    cases h

theorem exists_run_of_fault? {e : Fault} (h : a.fault? t = some e) :
    ∃ s, a.run t = .error e s := by
  rw [fault?] at h
  cases hr : a.run t with
  | ok y s =>
    rw [hr] at h
    cases h
  | error e' s =>
    rw [hr] at h
    exact ⟨s, by rw [Option.some.inj h]⟩

theorem outcome_join {β : Type} {a : Action (Option β)} (h : (a.answer? t).isSome = true) :
    a.outcome t = .ok (a.answer? t).join := by
  obtain ⟨y, hy⟩ := Option.isSome_iff_exists.mp h
  rw [outcome_of_answer? hy, hy, Option.join_some]

/-- Started from a table, an action has a given answer and leaves behind a table that determines
the same answers; after a fault, further nodes may be compiled. -/
def Answers (a : Action α) (t : Table) (x : Except Fault α) : Prop :=
  match a.run t with
  | .ok y s => x = .ok y ∧ t.Same s
  | .error e s => x = .error e ∧ s.Sound ∧ t.Advanced s

theorem run_discard (a : Action α) (t : Table) : (discard a).run t =
    match a.run t with
    | .ok _ s => .ok () s
    | .error e s => .error e s := by
  have h : discard a = a >>= fun _ ↦ Pure.pure () := rfl
  rw [h, EStateM.run_bind]
  cases a.run t <;> rfl

namespace Answers

theorem of_run_ok {y : α} (hr : a.run t = .ok y s) (hx : x = .ok y) (hs : t.Same s) :
    a.Answers t x := by
  rw [Answers, hr]
  exact ⟨hx, hs⟩

theorem of_run_error {e : Fault} (hr : a.run t = .error e s) (hx : x = .error e) (hs : s.Sound)
    (ha : t.Advanced s) : a.Answers t x := by
  rw [Answers, hr]
  exact ⟨hx, hs, ha⟩

theorem run_ok (h : a.Answers t x) {y : α} (hr : a.run t = .ok y s) : x = .ok y ∧ t.Same s := by
  rwa [Answers, hr] at h

theorem run_error (h : a.Answers t x) {e : Fault} (hr : a.run t = .error e s) :
    x = .error e ∧ s.Sound ∧ t.Advanced s := by
  rwa [Answers, hr] at h

theorem exists_run_ok {y : α} (h : a.Answers t (.ok y)) : ∃ s, a.run t = .ok y s ∧ t.Same s := by
  cases hr : a.run t with
  | ok z s =>
    obtain ⟨hz, hs⟩ := h.run_ok hr
    cases hz
    exact ⟨s, rfl, hs⟩
  | error e s => cases (h.run_error hr).1

theorem exists_run_error {e : Fault} (h : a.Answers t (.error e)) :
    ∃ s, a.run t = .error e s ∧ s.Sound ∧ t.Advanced s := by
  cases hr : a.run t with
  | ok z s => cases (h.run_ok hr).1
  | error e' s =>
    obtain ⟨he, hs⟩ := h.run_error hr
    cases he
    exact ⟨s, rfl, hs⟩

theorem outcome_eq (h : a.Answers t x) : a.outcome t = x := by
  rw [outcome]
  cases hr : a.run t with
  | ok y s => exact (h.run_ok hr).1.symm
  | error e s => exact (h.run_error hr).1.symm

theorem pure (h : t.Sound) (y : α) : Answers (Pure.pure y) t (.ok y) :=
  of_run_ok (EStateM.run_pure y t) rfl (.refl h)

theorem throw (h : t.Sound) (e : Fault) : Answers (α := α) (MonadExcept.throw e) t (.error e) :=
  of_run_error rfl rfl h (.refl t)

theorem ofExcept (h : t.Sound) (x : Except Fault α) : (Action.ofExcept x).Answers t x := by
  cases x with
  | ok y => exact .pure h y
  | error e => exact .throw h e

/-- An action answers like one that starts from a table with the same answers, if it goes on like
it. -/
theorem after {b : Action α} (h : a.Answers s x) (hs : t.Same s) (hrun : b.run t = a.run s) :
    b.Answers t x := by
  cases hr : a.run s with
  | ok y u =>
    obtain ⟨hy, hu⟩ := h.run_ok hr
    exact of_run_ok (hrun.trans hr) hy (hs.trans hu)
  | error e u =>
    obtain ⟨hy, hu, ha⟩ := h.run_error hr
    exact of_run_error (hrun.trans hr) hy hu (hs.advanced.trans ha)

/-- The rest of an action answers for the table that its beginning leaves behind. -/
theorem run_bind {f : α → Action β} {g : α → Except Fault β} (h : a.Answers t x)
    (hf : ∀ y s, a.run t = .ok y s → x = .ok y → t.Same s → (f y).Answers s (g y)) :
    (a >>= f).Answers t (x >>= g) := by
  cases hr : a.run t with
  | error e s =>
    obtain ⟨rfl, hs, ha⟩ := h.run_error hr
    exact of_run_error (by rw [EStateM.run_bind, hr]) rfl hs ha
  | ok y s =>
    obtain ⟨rfl, hs⟩ := h.run_ok hr
    exact (hf y s hr rfl hs).after hs (by rw [EStateM.run_bind, hr])

theorem bind {f : α → Action β} {g : α → Except Fault β} (h : a.Answers t x)
    (hf : ∀ y s, x = .ok y → t.Same s → (f y).Answers s (g y)) : (a >>= f).Answers t (x >>= g) :=
  h.run_bind fun y s _ ↦ hf y s

theorem ignoring (h : a.Answers t x) : (discard a).Answers t (x.map fun _ ↦ ()) := by
  have hbind := h.bind (g := fun _ ↦ .ok ()) fun _ _ _ hs ↦ .pure hs.sound ()
  cases x with
  | ok y => exact hbind
  | error e => exact hbind

theorem get_bind {f : Table → Action β} {x : Except Fault β} (h : (f t).Answers t x) :
    (get >>= f).Answers t x := by
  have hrun : (get >>= f).run t = (f t).run t := by rw [EStateM.run_bind, EStateM.run_get]
  rwa [Answers, hrun]

theorem node_bind {id : NodeId} {f : Node → Action β} {x : Except Fault β}
    (h : (f (t.node id)).Answers t x) : (Action.node id >>= f).Answers t x := h

theorem router_bind {id : RouterId} {f : Router → Action β} {x : Except Fault β}
    (h : (f (t.router id)).Answers t x) : (Action.router id >>= f).Answers t x := h

theorem log (h : t.Sound) (entry : Text) : (Action.log entry).Answers t (.ok ()) := by
  obtain ⟨label, h⟩ := h
  have hadvanced : t.Advanced { t with log := entry :: t.log } :=
    Table.advanced_of_nodes rfl rfl rfl (fun _ ↦ rfl) fun _ hc ↦ hc
  exact of_run_ok rfl rfl (hadvanced.same ⟨label, h.log _⟩ fun _ ↦ rfl)

end Answers

theorem outcome_effectiveOptions_of_keys {id : NodeId}
    (h : t.namesAreKeys (t.lineage id) = true) :
    (effectiveOptions id).outcome t = .ok (t.effectiveOptions id) := by
  simp only [outcome, effectiveOptions, effectiveSlots, EStateM.run_bind, EStateM.run_get, h,
    ↓reduceIte, EStateM.run_pure]
  rfl

end Action

end UrlRouting

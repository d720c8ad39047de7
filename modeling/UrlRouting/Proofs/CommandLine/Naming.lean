import UrlRouting.CommandLine.Catalogue
import UrlRouting.Proofs.Table.Answers
import UrlRouting.Proofs.Text.Split

/-!
What texts of module and name stand for. A text stands for the router that its module holds under
its name, or that a factory there makes (`Catalogue.router_eq_ok`). Of a text that stands for no
router something is said, unless it leaves its module out (`Catalogue.exists_router`).
-/

namespace UrlRouting.CommandLine

namespace Entry

theorem made_eq_router {found : Entry} {id : RouterId} : found.made = .ok (.router id) ↔
    found = .router id ∨ found = .factory (.ok (.router id)) := by
  cases found with
  | router other => simp [made]
  | factory result => simp [made]
  | value v => cases v <;> simp [made]
  | _ => simp [made]

end Entry

namespace Catalogue

variable {c : Catalogue} {name t : Text} {entries : List (Text × Entry)} {found : Entry}
  {id : RouterId}

/-! ### Modules -/

theorem descend_of_not_mem (h : '.' ∉ name) :
    c.descend none (enclosing name) [] = .ok entries ↔ c.lookup name = some entries := by
  have henclosing : enclosing name = [name] := by
    rw [enclosing, Text.splitAt_of_not_mem h]
    rfl
  rw [henclosing, descend.eq_def]
  dsimp only
  cases c.lookup name with
  | none => simp
  | some found => simp [descend]

/-- No module lies inside another one. -/
theorem descend_of_mem (h : '.' ∈ name) : c.descend none (enclosing name) [] ≠ .ok entries := by
  have hlength : (enclosing name).length = name.countP (· == '.') + 1 := by
    rw [enclosing, List.length_map, List.length_range, Text.length_splitAt]
  have hpos : 0 < name.countP (· == '.') := List.countP_pos_iff.mpr ⟨'.', h, by decide⟩
  match henclosing : enclosing name with
  | [] | [_] =>
    rw [henclosing] at hlength
    simp only [List.length_nil, List.length_cons] at hlength
    omega
  | outer :: inner :: rest =>
    rw [descend.eq_def]
    dsimp only
    cases c.lookup outer with
    | none => simp
    | some found => simp [descend]

theorem module_eq_ok : c.module name = .ok (.ok entries) ↔
    (name ≠ [] ∧ '.' ∉ name) ∧ c.lookup name = some entries := by
  by_cases hname : name = []
  · subst hname
    exact ⟨nofun, fun hand ↦ absurd rfl hand.1.1⟩
  rw [module, if_neg (by simpa using hname), and_iff_right hname]
  by_cases hpoint : '.' ∈ name
  · refine ⟨fun hmodule ↦ ?_, fun hand ↦ absurd hpoint hand.1⟩
    split at hmodule
    · cases hmodule
    · exact absurd (Except.ok.inj hmodule) (descend_of_mem hpoint)
  · have hstarts : ¬Text.startsWith name "." = true := fun hstarts ↦
      hpoint ((Text.startsWith_iff.mp hstarts).subset List.mem_cons_self)
    rw [if_neg hstarts, Except.ok.injEq, descend_of_not_mem hpoint, and_iff_right hpoint]

theorem exists_module (c : Catalogue) (h : name ≠ []) : ∃ answer, c.module name = .ok answer := by
  rw [module, if_neg (by simpa using h)]
  split <;> exact ⟨_, rfl⟩

/-! ### Routers -/

/-- The module of a text, and the name that is looked up in it. -/
def parts (t : Text) : Text × Text :=
  let (name, member) := (Text.cut? ':' t).getD (t, [])
  (name, if member.isEmpty then defaultName else member)

/-- The module of the text holds the router under the name of the text, or a factory that makes
it. -/
structure Names (c : Catalogue) (t : Text) (id : RouterId) : Prop where
  module : (parts t).1 ≠ [] ∧ '.' ∉ (parts t).1
  entry : ∃ entries, c.lookup (parts t).1 = some entries ∧
    (entries.lookup (parts t).2 = some (.router id) ∨
      entries.lookup (parts t).2 = some (.factory (.ok (.router id))))

theorem entry_eq (c : Catalogue) (t : Text) : c.entry t = c.module (parts t).1 >>= fun
    | .error said => .ok (.error said)
    | .ok entries =>
      match entries.lookup (parts t).2 with
      | some found => .ok (.ok found)
      | none => .ok (.error (unknown (parts t).1 (parts t).2)) := rfl

theorem entry_eq_ok : c.entry t = .ok (.ok found) ↔ ∃ entries,
    c.module (parts t).1 = .ok (.ok entries) ∧ entries.lookup (parts t).2 = some found := by
  rw [entry_eq, bind_eq_ok_iff]
  constructor
  · rintro ⟨answer, hmodule, hfound⟩
    cases answer with
    | error said => cases hfound
    | ok entries =>
      dsimp only at hfound
      split at hfound
      next hlookup =>
        cases hfound
        exact ⟨entries, hmodule, hlookup⟩
      next => cases hfound
  · rintro ⟨entries, hmodule, hlookup⟩
    refine ⟨_, hmodule, ?_⟩
    dsimp only
    rw [hlookup]

theorem exists_entry (c : Catalogue) (h : (parts t).1 ≠ []) : ∃ answer, c.entry t = .ok answer := by
  obtain ⟨answer, hmodule⟩ := c.exists_module h
  rw [entry_eq, hmodule]
  cases answer with
  | error said => exact ⟨_, rfl⟩
  | ok entries =>
    dsimp only [bind, Except.bind]
    split <;> exact ⟨_, rfl⟩

/-- A text stands for the router that it names. -/
theorem router_eq_ok : c.router t = .ok (.ok id) ↔ c.Names t id := by
  have hmade : c.router t = .ok (.ok id) ↔
      ∃ found : Entry, c.entry t = .ok (.ok found) ∧ found.made = .ok (.router id) := by
    rw [router, bind_eq_ok_iff]
    constructor
    · rintro ⟨answer, hentry, hid⟩
      cases answer with
      | error said => cases hid
      | ok found =>
        dsimp only at hid
        split at hid
        next => cases hid
        next hfound =>
          cases hid
          exact ⟨found, hentry, hfound⟩
        next => cases hid
    · rintro ⟨found, hentry, hfound⟩
      refine ⟨_, hentry, ?_⟩
      dsimp only
      rw [hfound]
      rfl
  rw [hmade]
  simp only [entry_eq_ok, module_eq_ok, Entry.made_eq_router]
  constructor
  · rintro ⟨found, ⟨entries, ⟨hmodule, hentries⟩, hfound⟩, rfl | rfl⟩
    · exact ⟨hmodule, entries, hentries, .inl hfound⟩
    · exact ⟨hmodule, entries, hentries, .inr hfound⟩
  · rintro ⟨hmodule, entries, hentries, hfound | hfound⟩
    · exact ⟨_, ⟨entries, ⟨hmodule, hentries⟩, hfound⟩, .inl rfl⟩
    · exact ⟨_, ⟨entries, ⟨hmodule, hentries⟩, hfound⟩, .inr rfl⟩

/-- Of a text that stands for no router something is said, if it has a module. -/
theorem exists_router (c : Catalogue) (h : (parts t).1 ≠ []) :
    ∃ answer, c.router t = .ok answer := by
  obtain ⟨answer, hentry⟩ := c.exists_entry h
  rw [router, hentry]
  cases answer with
  | error said => exact ⟨_, rfl⟩
  | ok found =>
    dsimp only [bind, Except.bind]
    split <;> exact ⟨_, rfl⟩

theorem router_of_no_module (h : (parts t).1 = []) : c.router t = .error .wrongValue := by
  have hmodule : c.module (parts t).1 = .error .wrongValue := by
    rw [h]
    rfl
  rw [router, entry_eq, hmodule]
  rfl

end Catalogue

end UrlRouting.CommandLine

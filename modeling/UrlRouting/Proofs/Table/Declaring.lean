import UrlRouting.Proofs.Table.Reachable
import UrlRouting.Proofs.Template.Normalizing

/-!
Rules that are declared on a new router, one after the other. The nodes and cells that they are kept
in do not depend on the settings of the router (`afterAll_routeOn`), and in effect at each rule is
what it was declared with.
-/

namespace UrlRouting

variable {config : Config} {members : List NodeId} {rules : List Node} {cells : List Value}

/-! ### Rule strings -/

theorem Rule.mem_fullText {rule : Text} {x : Char} (h : x ∈ fullText [] rule) :
    x ∈ rule ∨ x ∈ ['<', '>', '?', '/'] := by
  rw [fullText] at h
  split at h
  · rw [List.mem_singleton.mp h]
    exact .inr (by decide)
  · rcases Template.mem_normalize h with h | h
    · refine .inl ?_
      change x ∈ if rule = ['/'] then rule else Text.trimLeft (· == '/') rule at h
      split at h
      · exact h
      · exact (List.dropWhile_suffix _).subset h
    · exact .inr ((by decide : ∀ y ∈ ['<', '>', '?'], y ∈ ['<', '>', '?', '/']) x h)

theorem Rule.mem_withoutEndMark {rule : Text} {x : Char} (h : x ∈ (withoutEndMark rule).1) :
    x ∈ rule := by
  rw [withoutEndMark] at h
  split at h
  · exact List.dropLast_subset _ h
  · exact h

/-! ### Tables of one router -/

/-- The node of a rule in the outermost group of the first router, with its options in slots. -/
def Declared.node (d : Declared) (slots : Entries Slot) : Node where
  router := some 0
  parent := some 0
  domain := .null
  options := Rule.declaredOptions slots (Rule.withoutEndMark d.rule).2
    (if d.method.isEmpty then ['*'] else d.method)
  patterns := d.patterns
  merged := []
  snapshot := none
  body := .rule
    { name := d.name
      text := Rule.fullText [] (Rule.withoutEndMark d.rule).1
      target := d.target
      method := .str (if d.method.isEmpty then ['*'] else d.method)
      aliases := Template.builtIn
      expressions := [] }

/-- A table of one open router with some rules, none of which is compiled. -/
def Table.listing (config : Config) (members : List NodeId) (rules : List Node)
    (cells : List Value) : Table where
  nodes :=
    { router := some 0
      parent := none
      domain := .null
      options := []
      patterns := []
      merged := []
      snapshot := none
      body := .group ⟨[], members⟩ } :: rules
  routers := [⟨config, 0, false, []⟩]
  cells := cells
  log := []

namespace Action

theorem run_keep (value : Value) (cells : List Value) : ∃ slot kept, ∀ t : Table,
    t.cells = cells → (keep value).run t = .ok slot { t with cells := kept } := by
  have hcell : ∃ slot kept, ∀ t : Table, t.cells = cells →
      (modifyGet fun t : Table ↦ (Slot.shared t.cells.length,
        { t with cells := t.cells ++ [value] }) : Action Slot).run t =
          .ok slot { t with cells := kept } := by
    refine ⟨.shared cells.length, cells ++ [value], fun t ht ↦ ?_⟩
    subst ht
    rfl
  have hfixed : ∃ slot kept, ∀ t : Table, t.cells = cells →
      (pure (Slot.fixed value) : Action Slot).run t = .ok slot { t with cells := kept } := by
    refine ⟨.fixed value, cells, fun t ht ↦ ?_⟩
    subst ht
    rfl
  cases value with
  | list items => exact hcell
  | map entries => exact hcell
  | _ => exact hfixed

/-- Which slots values are kept in depends on the cells of the table only. -/
theorem run_keepAll (m : Mapping) (cells : List Value) : ∃ slots kept,
    Entries.keys slots = m.keys ∧
      ∀ t : Table, t.cells = cells → (keepAll m).run t = .ok slots { t with cells := kept } := by
  induction m generalizing cells with
  | nil =>
    refine ⟨[], cells, rfl, fun t ht ↦ ?_⟩
    subst ht
    rfl
  | cons entry rest ih =>
    obtain ⟨name, value⟩ := entry
    obtain ⟨slot, kept, hslot⟩ := run_keep value cells
    obtain ⟨slots, kept', hkeys, hslots⟩ := ih kept
    refine ⟨(name, slot) :: slots, kept', congrArg (name :: ·) hkeys, fun t ht ↦ ?_⟩
    rw [keepAll, EStateM.run_bind, hslot t ht]
    dsimp only
    rw [EStateM.run_bind, hslots _ rfl]
    rfl

theorem run_routeOn (d : Declared) (members : List NodeId) (rules : List Node)
    (cells : List Value) : ∃ slots kept, Entries.keys slots = d.options.keys ∧ ∀ config,
      (routeOn 0 d).run (.listing config members rules cells) = .ok (rules.length + 1)
        (.listing config (members ++ [rules.length + 1]) (rules ++ [d.node slots]) kept) := by
  obtain ⟨slots, kept, hkeys, hslots⟩ := run_keepAll d.options cells
  refine ⟨slots, kept, hkeys, fun config ↦ ?_⟩
  have hrun : (routeOn 0 d).run (.listing config members rules cells) =
      (newRule (some 0) (some 0) d >>= fun member ↦ addMember 0 member >>= fun _ ↦
        pure member).run (.listing config members rules cells) := rfl
  have hnew : (newRule (some 0) (some 0) d).run (.listing config members rules cells) =
      .ok (rules.length + 1) (.listing config members (rules ++ [d.node slots]) kept) := by
    have hmake : (newRule (some 0) (some 0) d).run (.listing config members rules cells) =
        (keepAll d.options >>= fun slots ↦ addNode (d.node slots)).run
          (.listing config members rules cells) := rfl
    rw [hmake, EStateM.run_bind, hslots (.listing config members rules cells) rfl]
    rfl
  rw [hrun, EStateM.run_bind, hnew]
  rfl

end Action

namespace Table

/-- The node is that of a rule of a list. -/
def IsOf (ds : List Declared) (n : Node) : Prop :=
  ∃ d ∈ ds, ∃ slots, Entries.keys slots = d.options.keys ∧ n = d.node slots

theorem afterAll_routeOn (ds : List Declared) (members : List NodeId) (rules : List Node)
    (cells : List Value) : ∃ members' rules' kept, (∀ n ∈ rules', n ∈ rules ∨ IsOf ds n) ∧
      ∀ config, (listing config members rules cells).admits (ds.map (.routeOn 0)) = true ∧
        (listing config members rules cells).afterAll (ds.map (.routeOn 0)) =
          listing config members' rules' kept := by
  induction ds generalizing members rules cells with
  | nil => exact ⟨members, rules, cells, fun n hn ↦ .inl hn, fun config ↦ ⟨rfl, rfl⟩⟩
  | cons d rest ih =>
    obtain ⟨slots, kept, hkeys, hrun⟩ := Action.run_routeOn d members rules cells
    obtain ⟨members', rules', kept', hrules, hrest⟩ :=
      ih (members ++ [rules.length + 1]) (rules ++ [d.node slots]) kept
    refine ⟨members', rules', kept', fun n hn ↦ ?_, fun config ↦ ?_⟩
    · rcases hrules n hn with hn | ⟨d', hd', hn⟩
      · rcases List.mem_append.mp hn with hn | hn
        · exact .inl hn
        · exact .inr ⟨d, List.mem_cons_self, slots, hkeys, List.mem_singleton.mp hn⟩
      · exact .inr ⟨d', List.mem_cons_of_mem _ hd', hn⟩
    · have hafter : (Operation.routeOn 0 d).after (listing config members rules cells) =
          listing config (members ++ [rules.length + 1]) (rules ++ [d.node slots]) kept := by
        refine Operation.after_of_run (x := .node (rules.length + 1)) ?_
        rw [Operation.run, EStateM.run_bind, hrun]
        rfl
      rw [List.map_cons, admits, afterAll, List.foldl_cons, hafter]
      exact hrest config

/-- Rules that are declared on a new router are listed in the same nodes and cells, whatever its
settings. -/
theorem exists_listing (ds : List Declared) : ∃ members rules cells, (∀ n ∈ rules, IsOf ds n) ∧
    ∀ settings config, Config.ofMapping settings = .ok config →
      (listing config members rules cells).Reachable ∧
        empty.afterAll (.addRouter settings :: ds.map (.routeOn 0)) =
          listing config members rules cells := by
  obtain ⟨members, rules, cells, hrules, hlisting⟩ := afterAll_routeOn ds [] [] []
  refine ⟨members, rules, cells, fun n hn ↦ (hrules n hn).resolve_left List.not_mem_nil,
    fun settings config hsettings ↦ ?_⟩
  have hafter : (Operation.addRouter settings).after empty = listing config [] [] [] := by
    refine Operation.after_of_run (x := .router 0) ?_
    rw [Operation.run, Action.addRouter, hsettings]
    rfl
  have hall : empty.afterAll (.addRouter settings :: ds.map (.routeOn 0)) =
      listing config members rules cells := by
    rw [afterAll, List.foldl_cons, hafter]
    exact (hlisting config).2
  refine ⟨⟨_, ?_, hall.symm⟩, hall⟩
  rw [admits, hafter]
  exact (hlisting config).1

/-! ### What is in effect -/

variable {id : NodeId} {n : Node} {c : CompiledRule}

theorem node_listing (config : Config) (members : List NodeId) (rules : List Node)
    (cells : List Value) (id : NodeId) : (listing config members rules cells).node id ∈ rules ∨
      ((listing config members rules cells).node id).rule? = none := by
  cases id with
  | zero => exact .inr rfl
  | succ id =>
    change rules[id]?.getD default ∈ rules ∨ (rules[id]?.getD default).rule? = none
    cases hn : rules[id]? with
    | none => exact .inr rfl
    | some n => exact .inl (List.mem_of_getElem? hn)

/-- Nothing is merged with options that are not bound. -/
theorem combineSlots_nil (t : Table) (own : Entries Slot) (merged : List Value) :
    t.combineSlots [] own merged = Entries.ofPairs own := by
  rw [combineSlots]
  change List.foldl _ (Entries.ofPairs own) merged = _
  generalize Entries.ofPairs own = m
  induction merged with
  | nil => rfl
  | cons name rest ih => exact ih

/-- In effect at a listed rule are the options that it was declared with. -/
theorem effectiveOptions_listing (ht : (listing config members rules cells).Grounded)
    {d : Declared} {slots : Entries Slot}
    (hn : (listing config members rules cells).node id = d.node slots) :
    (listing config members rules cells).effectiveOptions id =
      (listing config members rules cells).readAll (Entries.ofPairs (d.node slots).options) := by
  have hroot : (listing config members rules cells).effectiveSlots 0 = [] := by
    rw [effectiveSlots_eq ht]
    rfl
  rw [effectiveOptions, effectiveSlots_eq ht, hn]
  change readAll _ (combineSlots _ (effectiveSlots _ 0) _ _) = _
  rw [hroot, combineSlots_nil]

theorem effectivePatterns_listing (ht : (listing config members rules cells).Grounded)
    {d : Declared} {slots : Entries Slot}
    (hn : (listing config members rules cells).node id = d.node slots) :
    (listing config members rules cells).effectivePatterns id = Entries.ofPairs d.patterns := by
  have hroot : (listing config members rules cells).effectivePatterns 0 = [] := by
    rw [effectivePatterns_eq ht]
    rfl
  rw [effectivePatterns_eq ht, hn]
  change Entries.overlay (effectivePatterns _ 0) _ = _
  rw [hroot]
  rfl

theorem get?_declaredOptions {given : Entries Slot} {name : Text}
    (h : given.get? (.str name) = none) (hcomplete : name ≠ "complete_match")
    (hmethod : name ≠ "method") (complete : Bool) (method : Text) :
    (Rule.declaredOptions given complete method).get? (.str name) = none := by
  have hset {key : Text} (hne : name ≠ key) (m : Entries Slot) (value : Value) :
      (m.set (.str key) (.fixed value)).get? (.str name) = m.get? (.str name) :=
    Entries.get?_set_of_ne (fun he ↦ hne (Value.str.inj he).symm) m _
  have hmarked : (if complete then given.set "complete_match" (.fixed (.bool true)) else given).get?
      (.str name) = none := by
    split
    · exact (hset hcomplete given _).trans h
    · exact h
  rw [Rule.declaredOptions]
  split
  · exact hmarked
  · exact (hset hmethod _ _).trans hmarked

/-- An option that a rule string and a method do not stand for is unbound unless it is declared. -/
theorem named?_options_listing (ht : (listing config members rules cells).Grounded)
    {d : Declared} {slots : Entries Slot} {name : Text}
    (hn : (listing config members rules cells).node id = d.node slots)
    (hkeys : Entries.keys slots = d.options.keys) (hname : d.options.named? name = none)
    (hcomplete : name ≠ "complete_match") (hmethod : name ≠ "method") :
    Entries.named? ((listing config members rules cells).effectiveOptions id) name = none := by
  have hslots : slots.get? (.str name) = none := by
    rw [Entries.get?_eq_none_iff, hkeys, ← Entries.get?_eq_none_iff]
    exact hname
  have hdeclared : (d.node slots).options.get? (.str name) = none :=
    get?_declaredOptions hslots hcomplete hmethod _ _
  rw [effectiveOptions_listing ht hn, Entries.named?, get?_readAll, Entries.ofPairs,
    Entries.get?_overlay_of_none hdeclared]
  rfl

end Table

end UrlRouting

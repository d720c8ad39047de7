import UrlRouting.Proofs.Options.Combining
import UrlRouting.Proofs.Table.Reachable

/-!
What options amount to along a line of ancestors. Each node lays its own options over those in
effect above it, and merges the ones that its router names or that it names itself; compiled nodes
keep what they had. The nearest definition wins unless an option is merged, lists are joined from
the outermost group on, and maps are united: `inherits_afterAll`.
-/

namespace UrlRouting

namespace Table

variable {t s : Table} {line ancestors : List Node} {n : Node} {name : Text} {id : NodeId}
  {rid : RouterId}

/-! ### Slots and the values in them -/

theorem readAll_set (t : Table) (m : Entries Slot) (key : Value) (slot : Slot) :
    t.readAll (m.set key slot) = (t.readAll m).set key (t.read slot) := by
  induction m with
  | nil => rfl
  | cons entry rest ih =>
    obtain ⟨k, b⟩ := entry
    by_cases hk : k.same key
    · simp [readAll, Entries.set, hk]
    · simpa [readAll, Entries.set, hk] using ih

theorem readAll_overlay (t : Table) (base top : Entries Slot) :
    t.readAll (base.overlay top) = Entries.overlay (t.readAll base) (t.readAll top) := by
  induction top generalizing base with
  | nil => rfl
  | cons entry rest ih =>
    have hfirst := readAll_set t base entry.1 entry.2
    exact (ih (base.set entry.1 entry.2)).trans
      (congrArg (Entries.overlay · (t.readAll rest)) hfirst)

/-- Combining slots is combining the values in them. -/
theorem readAll_combineSlots (t : Table) (base top : Entries Slot) (names : List Value) :
    t.readAll (t.combineSlots base top names) =
      Options.combine (t.readAll base) (t.readAll top) names := by
  rw [combineSlots, Options.combine_eq, ← readAll_overlay]
  generalize base.overlay top = m
  induction names generalizing m with
  | nil => rfl
  | cons name rest ih =>
    rw [List.foldl_cons, List.foldl_cons, ih]
    refine congrArg (rest.foldl _) ?_
    rw [Options.mergeInto, get?_readAll, get?_readAll]
    rcases base.get? name with _ | inherited
    · rfl
    · rcases top.get? name with _ | own
      · rfl
      · simp only [Option.map_some, Options.mergeValue]
        cases Options.merged? (t.read inherited) (t.read own) with
        | none => exact readAll_set t m name own
        | some value => exact readAll_set t m name (.fixed value)

theorem textKeys_readAll (t : Table) (m : Entries Slot) :
    (t.readAll m).textKeys = m.textKeys := by
  rw [readAll, Entries.textKeys, Entries.textKeys, List.filterMap_map]
  rfl

theorem keys_readAll (t : Table) (m : Entries Slot) : (t.readAll m).keys = m.keys := by
  rw [readAll, Entries.keys, Entries.keys, List.map_map]
  rfl

/-! ### Lines of nodes -/

/-- What a node itself binds an option to. -/
def ownValue (t : Table) (name : Text) (n : Node) : Option Value :=
  (t.readAll n.options).named? name

/-- A node merges the options that its router names and those that it names itself. -/
def merges (t : Table) (n : Node) (name : Text) : Bool :=
  (t.mergedNames n).any fun other ↦ other.same (.str name)

/-- What an option amounts to along a line, nearest node first: what it amounts to above a node,
merged with the own value where the node merges it, and overridden by it elsewhere. -/
def valueAlong (t : Table) (name : Text) : List Node → Option Value
  | [] => none
  | n :: ancestors =>
    Options.combined? (t.merges n name) (t.valueAlong name ancestors) (t.ownValue name n)

/-- A compiled node of the line keeps what would be in effect at it if it were open. -/
def Current (t : Table) : List Node → Prop
  | [] => True
  | n :: ancestors =>
    (∀ kept, n.snapshot = some kept →
      kept.options = t.inheritOptions ({ n with snapshot := none } :: ancestors) ∧
      kept.patterns = inheritPatterns ({ n with snapshot := none } :: ancestors)) ∧
    t.Current ancestors

theorem current_of_open (h : ∀ n ∈ line, n.isCompiled = false) : t.Current line := by
  induction line with
  | nil => trivial
  | cons n ancestors ih =>
    refine ⟨fun kept hkept ↦ ?_, ih fun m hm ↦ h m (List.mem_cons_of_mem _ hm)⟩
    have ho := h n List.mem_cons_self
    rw [isCompiled_of_snapshot hkept] at ho
    cases ho

theorem namesAreKeys_of_forall (h : ∀ n ∈ line, ∀ name ∈ t.mergedNames n, name.isKey = true) :
    t.namesAreKeys line = true := by
  induction line with
  | nil => rfl
  | cons n ancestors ih =>
    rw [namesAreKeys, ih fun m hm ↦ h m (List.mem_cons_of_mem _ hm),
      List.all_eq_true.mpr (h n List.mem_cons_self), Bool.and_self, Bool.or_true]

theorem inheritOptions_of_current (h : t.Current (n :: ancestors)) :
    t.inheritOptions (n :: ancestors) =
      if ancestors.isEmpty then n.options
      else t.combineSlots (t.inheritOptions ancestors) n.options (t.mergedNames n) := by
  rw [inheritOptions]
  cases hs : n.snapshot with
  | none => rfl
  | some kept => exact (h.1 kept hs).1

theorem inheritPatterns_of_current (h : t.Current (n :: ancestors)) :
    inheritPatterns (n :: ancestors) =
      if ancestors.isEmpty then n.patterns
      else (inheritPatterns ancestors).overlay n.patterns := by
  rw [inheritPatterns]
  cases hs : n.snapshot with
  | none => rfl
  | some kept => exact (h.1 kept hs).2

theorem named?_inheritOptions (h : t.Current line) (hkeys : ∀ n ∈ line, n.options.textKeys.Nodup)
    (name : Text) : (t.readAll (t.inheritOptions line)).named? name = t.valueAlong name line := by
  induction line with
  | nil => rfl
  | cons n ancestors ih =>
    have habove := ih h.2 fun m hm ↦ hkeys m (List.mem_cons_of_mem _ hm)
    rw [inheritOptions_of_current h, valueAlong]
    split
    next hempty =>
      rw [List.isEmpty_iff.mp hempty]
      cases hown : t.ownValue name n <;> exact hown
    next =>
      have hown : (t.readAll n.options).textKeys.Nodup := by
        rw [textKeys_readAll]
        exact hkeys n List.mem_cons_self
      rw [readAll_combineSlots, Options.named?_combine hown, habove]
      rfl

theorem exists_of_mem_inheritOptions (h : t.Current line) {key : Value}
    (hkey : key ∈ (t.readAll (t.inheritOptions line)).keys) : ∃ n ∈ line, key ∈ n.options.keys := by
  induction line with
  | nil => cases hkey
  | cons n ancestors ih =>
    rw [inheritOptions_of_current h] at hkey
    split at hkey
    next => exact ⟨n, List.mem_cons_self, by rwa [keys_readAll] at hkey⟩
    next =>
      rw [readAll_combineSlots] at hkey
      rcases Options.mem_keys_of_mem_combine hkey with hkey | hkey
      · obtain ⟨m, hm, hkey⟩ := ih h.2 hkey
        exact ⟨m, List.mem_cons_of_mem _ hm, hkey⟩
      · exact ⟨n, List.mem_cons_self, by rwa [keys_readAll] at hkey⟩

theorem named?_inheritPatterns (h : t.Current line)
    (hkeys : ∀ n ∈ line, n.patterns.textKeys.Nodup) (variableName : Text) :
    (inheritPatterns line).named? variableName =
      line.findSome? fun n ↦ n.patterns.named? variableName := by
  induction line with
  | nil => rfl
  | cons n ancestors ih =>
    have habove := ih h.2 fun m hm ↦ hkeys m (List.mem_cons_of_mem _ hm)
    rw [inheritPatterns_of_current h, List.findSome?_cons]
    split
    next hempty =>
      rw [List.isEmpty_iff.mp hempty]
      cases hown : n.patterns.named? variableName <;> rfl
    next =>
      rw [← habove, Entries.named?, Entries.get?_overlay (hkeys n List.mem_cons_self),
        Entries.named?, Entries.named?]
      cases n.patterns.get? (.str variableName) <;> rfl

/-! ### Options that are merged nowhere or everywhere -/

theorem valueAlong_of_unmerged (h : ∀ n ∈ line, t.merges n name = false) :
    t.valueAlong name line = line.findSome? (t.ownValue name) := by
  induction line with
  | nil => rfl
  | cons n ancestors ih =>
    rw [valueAlong, ih fun m hm ↦ h m (List.mem_cons_of_mem _ hm), h n List.mem_cons_self,
      List.findSome?_cons]
    cases t.ownValue name n <;> cases ancestors.findSome? (t.ownValue name) <;> rfl

theorem valueAlong_of_merged (h : ∀ n ∈ line, t.merges n name = true) :
    t.valueAlong name line = Options.mergeAll? (line.filterMap (t.ownValue name)) := by
  induction line with
  | nil => rfl
  | cons n ancestors ih =>
    rw [valueAlong, ih fun m hm ↦ h m (List.mem_cons_of_mem _ hm), h n List.mem_cons_self]
    cases hown : t.ownValue name n with
    | none =>
      rw [List.filterMap_cons_none hown]
      cases Options.mergeAll? (ancestors.filterMap (t.ownValue name)) <;> rfl
    | some own =>
      rw [List.filterMap_cons_some hown]
      cases habove : Options.mergeAll? (ancestors.filterMap (t.ownValue name)) with
      | none => exact (Options.mergeAll?_cons_of_none own habove).symm
      | some above => exact (Options.mergeAll?_cons_of_some own habove).symm

/-! ### What a node inherits -/

/-- Options and patterns in effect at a node whose line, nearest node first, belongs to a
router. -/
structure Inherits (t : Table) (rid : RouterId) (line : List Node) (options patterns : Mapping) :
    Prop where
  /-- The nearest definition wins where no node merges the option. -/
  nearest : ∀ name, (∀ n ∈ line, t.merges n name = false) →
    options.named? name = line.findSome? (t.ownValue name)
  /-- Lists of an option that the router merges are joined, the outermost first. -/
  joined : ∀ name lists, .str name ∈ (t.router rid).config.merged → lists ≠ [] →
    line.filterMap (t.ownValue name) = lists.map Value.list →
    options.named? name = some (.list lists.reverse.flatten)
  /-- Maps of an option that the router merges are united, and the nearest one wins. -/
  united : ∀ name maps, .str name ∈ (t.router rid).config.merged → maps ≠ [] →
    line.filterMap (t.ownValue name) = maps.map Value.map →
    (∀ m ∈ maps, Options.HasTextKeys m ∧ (Entries.textKeys m).Nodup) →
    ∃ m : Mapping, options.named? name = some (.map m) ∧ Options.HasTextKeys m ∧
      ∀ key, m.named? key = maps.findSome? fun m ↦ Entries.named? m key
  /-- Any other option is merged at the nodes that name it, and overridden elsewhere. -/
  mixed : ∀ name, options.named? name = t.valueAlong name line
  defined : ∀ key ∈ options.keys, ∃ n ∈ line, key ∈ n.options.keys
  patterns : ∀ name, patterns.named? name = line.findSome? fun n ↦ n.patterns.named? name

theorem merges_of_config (hrouter : n.router = some rid)
    (h : .str name ∈ (t.router rid).config.merged) : t.merges n name = true := by
  rw [merges, mergedNames, configOf, hrouter, List.any_append, Bool.or_eq_true]
  exact .inl (List.any_eq_true.mpr ⟨_, h, Value.str_same_iff.mpr rfl⟩)

theorem Current.inherits (h : t.Current line) (hrouter : ∀ n ∈ line, n.router = some rid)
    (hoptions : ∀ n ∈ line, n.options.textKeys.Nodup)
    (hpatterns : ∀ n ∈ line, n.patterns.textKeys.Nodup) :
    t.Inherits rid line (t.readAll (t.inheritOptions line)) (inheritPatterns line) where
  nearest name hname := by
    rw [named?_inheritOptions h hoptions, valueAlong_of_unmerged hname]
  joined name lists hname hlists hown := by
    rw [named?_inheritOptions h hoptions,
      valueAlong_of_merged fun n hn ↦ merges_of_config (hrouter n hn) hname, hown]
    exact Options.mergeAll?_lists hlists
  united name maps hname hne hown hmaps := by
    rw [named?_inheritOptions h hoptions,
      valueAlong_of_merged fun n hn ↦ merges_of_config (hrouter n hn) hname, hown]
    exact Options.mergeAll?_maps hne hmaps
  mixed := named?_inheritOptions h hoptions
  defined _ := exists_of_mem_inheritOptions h
  patterns := named?_inheritPatterns h hpatterns

/-! ### Compiling and asking -/

/-- A sound table that the first one has ahead of it. -/
structure Ahead (start t : Table) : Prop where
  sound : t.Sound
  advanced : start.Advanced t

theorem steady_ahead : Action.Steady s.Ahead :=
  Action.steady_of_advanced (fun _ h ↦ h.sound) fun _ _ h hs hadvanced ↦
    ⟨hs, h.advanced.trans hadvanced⟩

theorem Alike.asks_eq (h : t.Alike s) (op : Operation) : op.asks s = op.asks t := by
  cases op with
  | call node name args => rw [Operation.asks, Operation.asks, h.isRule_eq]
  | _ => rfl

/-- Operations that compile or ask leave in effect everywhere what was in effect. -/
theorem ahead_afterAll {ops : List Operation} (h : t.Sound)
    (hops : ∀ op ∈ ops, op.asks t = true) : t.Ahead (t.afterAll ops) := by
  suffices hahead : ∀ s, t.Ahead s → t.Ahead (s.afterAll ops) from hahead t ⟨h, .refl t⟩
  induction ops with
  | nil => exact fun s hs ↦ hs
  | cons op rest ih =>
    intro s hs
    have hop : op.asks s = true :=
      (hs.advanced.asks_eq op).trans (hops op List.mem_cons_self)
    exact ih (fun op hmem ↦ hops op (List.mem_cons_of_mem _ hmem)) _
      (Operation.after_of_ends (op.run_asking steady_ahead hop hs))

end Table

/-- Films in two groups, of which the inner one merges tags, and a rule that is no member of it. -/
def Table.filmRouter : Table := empty.afterAll
  [.addRouter [],
    .declareGroup 0 { rule := "films", options := [("middleware", .list ["auth"]),
      ("append", .map [("lang", "en"), ("page", "1")]), ("tags", .list ["film"])] } [],
    .declareGroup 1 { rule := "shorts", options := [("tags", .list ["short"])] } [],
    .call 2 "merge_options" ⟨["tags"], []⟩,
    .newRule (some 0) (some 2) { rule := "<id>", target := "films/show", options :=
      [("middleware", .list ["log"]), ("append", .map [("lang", "fr")])] }]

theorem reachable_filmRouter : Table.filmRouter.Reachable := ⟨_, by decide, rfl⟩

end UrlRouting

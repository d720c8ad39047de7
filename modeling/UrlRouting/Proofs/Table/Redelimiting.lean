import UrlRouting.Proofs.Table.Declaring
import UrlRouting.Proofs.Table.Delimiter

/-!
Routers under another delimiter. Where rules are written in plain parts of ASCII, a router routes a
request as it does with slashes, unless the path of the request holds the delimiter:
`outcome_route_between`.
-/

namespace UrlRouting

open Template Template.Part Text Http

variable {t s : Table} {rid : RouterId} {id : NodeId} {d : Char} {c : CompiledRule}
  {parts : List Part} {kind : Text → Kind} {url : Text} {request : Request}

namespace CompiledRule

theorem on_between (c : CompiledRule) (h : Config.isDelimiter d = true) (anyDomain : Bool) :
    (c.between d h).on anyDomain = (c.on anyDomain).between d h := by
  cases anyDomain <;> rfl

namespace Portable

theorem on (h : c.Portable parts kind) (anyDomain : Bool) :
    (c.on anyDomain).Portable parts kind := by
  cases anyDomain with
  | false => exact h
  | true =>
    have hparameter : (c.onAnyDomain.options.named "param_depr").isTruthy = false := by
      rw [named_onAnyDomain (by decide)]
      exact h.parameter
    exact { h with parameter := hparameter }

/-- A rule can be compiled under another delimiter if it can be compiled. -/
theorem regex_map_between (hd : Delimits d) (h : c.Portable parts kind) (complete : Bool) :
    ((c.between d hd.isDelimiter).regex complete).map (fun _ ↦ c.between d hd.isDelimiter) =
      ((c.regex complete).map fun _ ↦ c).map fun c ↦ c.between d hd.isDelimiter := by
  rw [h.regex_between hd, h.regex_eq_treeOf]
  split <;> rfl

end Portable

end CompiledRule

namespace Table

/-- The second table is the first one with another delimiter in place of the slashes of a router,
and all of its rules are portable. -/
structure Redelimited (t s : Table) (rid : RouterId) (d : Char)
    (hdelimiter : Config.isDelimiter d = true) : Prop where
  nodes : s.nodes = t.nodes
  router : s.router rid = { t.router rid with config := (t.router rid).config.between d hdelimiter }
  inEffect : ∀ id, s.inEffect? id = (t.inEffect? id).map fun c ↦ c.between d hdelimiter
  options : ∀ id, s.effectiveOptions id = t.effectiveOptions id
  keys : ∀ id, s.namesAreKeys (s.lineage id) = t.namesAreKeys (t.lineage id)
  delimiter : (t.router rid).config.delimiter = '/'
  portable : ∀ id c, t.inEffect? id = some c → ∃ parts kind, c.Portable parts kind

namespace Redelimited

variable {hdelimiter : Config.isDelimiter d = true} (hd : Delimits d)
  (h : t.Redelimited s rid d hdelimiter)

include h

theorem node_eq : s.node = t.node := by
  funext id
  rw [node, node, h.nodes]

theorem isRule_eq : s.isRule = t.isRule := by
  funext id
  rw [isRule, isRule, h.node_eq]

theorem subtree_eq (id : NodeId) : s.subtree id = t.subtree id := by
  rw [subtree, subtree, h.nodes]
  exact subtreeOf_eq_of_members (fun id _ ↦ by rw [h.node_eq]) _

theorem routes_eq : s.routes rid = t.routes rid := by
  rw [routes, routes, rulesIn, rulesIn, h.router, h.subtree_eq, h.isRule_eq]

theorem exists_portable (hat : t.ruleAt id = .ok c) : ∃ parts kind, c.Portable parts kind :=
  h.portable id c (inEffect?_of_ruleAt hat)

/-- The URL of a request has the delimiter in place of slashes. -/
theorem urlOf_eq (request : Request) :
    s.urlOf rid request = (t.urlOf rid request).map (delimit d) := by
  have hurl : s.urlOf rid request = replaceChar '/' [d] (trimLeft (· == '/') request.path) := by
    rw [urlOf, h.router]
    rfl
  rw [hurl, urlOf, Config.urlOf, Config.delimiterText, h.delimiter, replaceChar_eq_map,
    replaceChar_eq_map, delimit_slash_eq_id, List.map_id]

theorem apart_urlOf (hpath : ∀ x ∈ request.path, Apart d x) :
    ∀ x ∈ t.urlOf rid request, Apart d x := by
  rw [urlOf, Config.urlOf, Config.delimiterText, h.delimiter, replaceChar_eq_map,
    delimit_slash_eq_id, List.map_id]
  exact fun x hx ↦ hpath x ((List.dropWhile_suffix _).subset hx)

include hd

theorem ruleAt_eq (id : NodeId) :
    s.ruleAt id = (t.ruleAt id).map fun c ↦ c.between d hdelimiter := by
  rw [ruleAt, ruleAt, h.inEffect, h.node_eq, h.keys]
  cases hin : t.inEffect? id with
  | none => rfl
  | some c =>
    obtain ⟨parts, kind, hc⟩ := h.portable id c hin
    dsimp only [Option.map_some]
    split
    · rfl
    · split
      · exact hc.regex_map_between hd _
      · rfl

theorem capturesAt_eq (hurl : ∀ x ∈ url, Apart d x) (id : NodeId) (asked : Bool) :
    s.capturesAt id (url.map (delimit d)) asked = t.capturesAt id url asked := by
  rw [capturesAt, capturesAt, h.ruleAt_eq hd]
  cases hat : t.ruleAt id with
  | error fault => rfl
  | ok c =>
    obtain ⟨parts, kind, hc⟩ := h.exists_portable hat
    have htrimmed : (c.between d _).trimmed [] (url.map (delimit d)) =
        (c.trimmed [] url).map (delimit d) :=
      hc.trimmed_between hd (List.forall_mem_nil _) List.not_mem_nil hurl
    change (c.between d _).capture ((c.between d _).trimmed [] (url.map (delimit d))) _ = _
    rw [htrimmed]
    exact hc.capture_between hd (fun x hx ↦ hurl x (CompiledRule.mem_of_mem_trimmed hx)) _

theorem decisionAt_eq (hpath : ∀ x ∈ request.path, Apart d x) (hurl : ∀ x ∈ url, Apart d x)
    (id : NodeId) (asked anyDomain : Bool) :
    s.decisionAt id request (url.map (delimit d)) asked anyDomain =
      t.decisionAt id request url asked anyDomain := by
  rw [decisionAt, decisionAt, h.ruleAt_eq hd]
  cases hat : t.ruleAt id with
  | error fault => rfl
  | ok c =>
    obtain ⟨parts, kind, hc⟩ := h.exists_portable hat
    change ((c.between d _).on anyDomain).decide _ _ _ = _
    rw [c.on_between]
    exact (hc.on anyDomain).decide_between hd hpath hurl asked

theorem allowedOf_eq (hurl : ∀ x ∈ url, Apart d x) (ids : List NodeId) :
    s.allowedOf (url.map (delimit d)) ids = t.allowedOf url ids := by
  induction ids with
  | nil => rfl
  | cons id rest ih => rw [allowedOf, allowedOf, h.capturesAt_eq hd hurl, h.options, ih]

theorem compilingAll_eq (ids : List NodeId) : s.compilingAll ids = t.compilingAll ids := by
  have hcompiling : s.compiling = t.compiling := by
    funext id
    rw [compiling, compiling, h.isRule_eq, h.ruleAt_eq hd, h.keys]
    cases t.ruleAt id <;> rfl
  induction ids with
  | nil => rfl
  | cons id rest ih => rw [compilingAll, compilingAll, hcompiling, ih]

theorem answering_eq (hpath : ∀ x ∈ request.path, Apart d x) (hurl : ∀ x ∈ url, Apart d x) :
    s.answering rid request (url.map (delimit d)) = t.answering rid request url := by
  have hfirst (ids : List NodeId) : s.firstDecisionOf request (url.map (delimit d)) false ids =
      t.firstDecisionOf request url false ids := by
    simp only [firstDecisionOf, h.decisionAt_eq hd hpath hurl]
  have hanywhere (ids : List NodeId) : s.firstAnywhereOf request (url.map (delimit d)) ids =
      t.firstAnywhereOf request url ids := by
    simp only [firstAnywhereOf, anywhereAt, h.isRule_eq, h.decisionAt_eq hd hpath hurl]
  have heverywhere : (s.router rid).everywhere = (t.router rid).everywhere := by rw [h.router]
  rw [answering, answering, h.routes_eq, hfirst, heverywhere, hanywhere, h.allowedOf_eq hd hurl]

theorem routing_eq (hpath : ∀ x ∈ request.path, Apart d x) :
    s.routing rid request = t.routing rid request := by
  have hready : s.readying rid = t.readying rid := by
    rw [readying, readying, h.router, h.subtree_eq, h.compilingAll_eq hd]
  have hcompleted : s.completed rid request = t.completed rid request := by
    rw [completed, completed, h.router]
    rfl
  have hpath' : ∀ x ∈ (t.completed rid request).path, Apart d x := by
    obtain ⟨root, hroot⟩ := t.completed_eq rid request
    rw [hroot]
    exact hpath
  rw [routing, routing, routed, routed, hready, hcompleted, h.urlOf_eq,
    h.answering_eq hd hpath' (h.apart_urlOf hpath)]

end Redelimited

end Table

/-- The rule string is in ASCII and stands for plain parts, the variables have named patterns that
are built in, or none, and parameters are not separated in a way of their own. -/
structure Declared.IsPortable (rule : Declared) (parts : List Part) (kind : Text → Kind) :
    Prop where
  ascii : ∀ x ∈ rule.rule, IsAscii x
  text : Rule.fullText [] (Rule.withoutEndMark rule.rule).1 = written parts
  isPlain : ∀ part ∈ parts, part.isPlain (isSeparator ['/']) = true
  patterns : ∀ name ∈ names parts,
    (Entries.ofPairs rule.patterns).named? name = (kind name).name?.map Value.str
  parameter : rule.options.named? "param_depr" = none

namespace Table

variable {config : Config} {members : List NodeId} {rules : List Node} {cells : List Value}
  {ds : List Declared}

theorem portable_listing (ht : (listing config members rules cells).Grounded)
    (hdelimiter : config.delimiter = '/') (hfallback : config.fallback = defaultPattern)
    (hrules : ∀ n ∈ rules, IsOf ds n)
    (hds : ∀ rule ∈ ds, ∃ parts kind, rule.IsPortable parts kind)
    (hin : (listing config members rules cells).inEffect? id = some c) :
    ∃ parts kind, c.Portable parts kind := by
  rcases node_listing config members rules cells id with hn | hn
  · obtain ⟨rule, hrule, slots, hkeys, hn⟩ := hrules _ hn
    obtain ⟨parts, kind, hp⟩ := hds rule hrule
    have hparameter := named?_options_listing ht hn hkeys hp.parameter (by decide) (by decide)
    rw [inEffect?, hn] at hin
    cases hin
    refine ⟨parts, kind,
      { text := hp.text
        isPlain := hp.isPlain
        patterns := fun name hname ↦ ?_
        aliases := fun _ _ _ hgiven ↦ named?_builtIn hgiven
        fallback := hfallback
        delimiter := hdelimiter
        ascii := fun x hx ↦ ?_
        parameter := ?_ }⟩
    · change Entries.named? (effectivePatterns _ id) name = _
      rw [effectivePatterns_listing ht hn]
      exact hp.patterns name hname
    · rcases Rule.mem_fullText hx with hx | hx
      · exact hp.ascii x (Rule.mem_withoutEndMark hx)
      · exact (by decide : ∀ y ∈ ['<', '>', '?', '/'], IsAscii y) x hx
    · change (Mapping.named (effectiveOptions _ id) _).isTruthy = false
      rw [Mapping.named, hparameter]
      rfl
  · rw [inEffect?, hn] at hin
    cases hin

theorem redelimited_listing (hdelim : Config.isDelimiter d = true)
    (ht : (listing config members rules cells).Grounded)
    (hs : (listing (config.between d hdelim) members rules cells).Grounded)
    (hdelimiter : config.delimiter = '/') (hfallback : config.fallback = defaultPattern)
    (hrules : ∀ n ∈ rules, IsOf ds n)
    (hds : ∀ rule ∈ ds, ∃ parts kind, rule.IsPortable parts kind) :
    (listing config members rules cells).Redelimited
      (listing (config.between d hdelim) members rules cells) 0 d hdelim := by
  have hmerged (n : Node) : (listing (config.between d hdelim) members rules cells).mergedNames n =
      (listing config members rules cells).mergedNames n := by
    rw [mergedNames, mergedNames, configOf, configOf]
    rcases n.router with _ | _ | other <;> rfl
  have hnode (id : NodeId) : (listing (config.between d hdelim) members rules cells).node id =
      (listing config members rules cells).node id := rfl
  have hshows (id : NodeId) : (listing config members rules cells).Shows id
      ((listing (config.between d hdelim) members rules cells).node id) := .refl _ id
  have hslots := effectiveSlots_of_shows ht hs hshows rfl fun id ↦ hmerged _
  have hpatterns := effectivePatterns_of_shows ht hs hshows
  have hoptions (id : NodeId) :
      (listing (config.between d hdelim) members rules cells).effectiveOptions id =
        (listing config members rules cells).effectiveOptions id := by
    rw [effectiveOptions, effectiveOptions, hslots]
    rfl
  exact
    { nodes := rfl
      router := rfl
      inEffect := by
        intro id
        rw [inEffect?, inEffect?, hoptions, hpatterns, hnode]
        rcases node_listing config members rules cells id with hn | hn
        · obtain ⟨rule, -, slots, -, hn⟩ := hrules _ hn
          rw [configOf, configOf, hn]
          rfl
        · rw [hn]
          rfl
      options := hoptions
      keys := namesAreKeys_of_shows ht hs hshows fun id ↦ hmerged _
      delimiter := hdelimiter
      portable := fun id c ↦ portable_listing ht hdelimiter hfallback hrules hds }

end Table

theorem Config.between_slash {config : Config} (h : Config.isDelimiter '/' = true)
    (hdelimiter : config.delimiter = '/') : config.between '/' h = config := by
  cases config
  subst hdelimiter
  rfl

/-- A rule with variables of all places: behind a slash, behind a hyphen, and optional. -/
def Declared.shelf : Declared where
  rule := "<shelf>/[:genre]/issue-<id>/<page?>$"
  target := "issues/show"
  patterns := [("id", "int"), ("page", "int"), ("genre", "alphaDash")]

def Declared.about : Declared where
  rule := "about-us/"
  target := "pages/about"
  method := "POST"

namespace Declared

def partsOfShelf : List Part :=
  [slot none "shelf" false, literal '/', slot none "genre" true] ++
    "/issue-".toList.map literal ++ [slot none "id" false, literal '/', slot none "page" true]

def kindOfShelf (name : Text) : Kind :=
  if name ∈ ["id".toList, "page".toList] then .int
  else if name = "genre".toList then .alphaDash
  else .any

theorem isPortable_shelf : shelf.IsPortable partsOfShelf kindOfShelf where
  ascii := by decide +kernel
  text := by decide +kernel
  isPlain := by decide +kernel
  patterns := List.forall_mem_cons.mpr ⟨rfl, List.forall_mem_cons.mpr ⟨rfl,
    List.forall_mem_cons.mpr ⟨rfl, List.forall_mem_cons.mpr ⟨rfl, nofun⟩⟩⟩⟩
  parameter := rfl

theorem isPortable_about :
    about.IsPortable ("about-us/".toList.map literal) fun _ ↦ .any where
  ascii := by decide +kernel
  text := by decide +kernel
  isPlain := by decide +kernel
  patterns := nofun
  parameter := rfl

theorem portable_shelf_about :
    ∀ rule ∈ [shelf, about], ∃ parts kind, rule.IsPortable parts kind :=
  List.forall_mem_cons.mpr ⟨⟨_, _, isPortable_shelf⟩,
    List.forall_mem_cons.mpr ⟨⟨_, _, isPortable_about⟩, nofun⟩⟩

end Declared

end UrlRouting

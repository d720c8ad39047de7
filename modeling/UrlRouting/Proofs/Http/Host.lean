import UrlRouting.Http.Request
import UrlRouting.Proofs.Text.SmallForms

/-!
Hosts and their sub-domains. A sub-domain, a point and the root domain make up the name of a host,
and a host that is made up so has this sub-domain (`subDomain_append_root`), whether or not a socket
follows the name.
-/

namespace UrlRouting.Http.Request

open Text

variable {r : Request} {sub root name : Text}

/-- The root domain that a request is given, in small letters and without outer points. -/
def givenRoot (r : Request) : Text := trim (· == '.') (lower (r.rootDomain.getD []))

def lastTwoLabels (host : Text) : Text :=
  join "." ((splitAt '.' host).drop ((splitAt '.' host).length - 2))

/-- The root domain of a request: the one that it is given, or else the last two labels of its
host. -/
def rootName (r : Request) : Text :=
  if r.givenRoot.isEmpty then lastTwoLabels r.hostName else r.givenRoot

/-- The text can be a part of the name of a host: it is in small letters, and nothing in it ends or
encloses a name. -/
structure IsNamePart (t : Text) : Prop where
  ne_nil : t ≠ []
  small : lower t = t
  colon : ':' ∉ t
  bracket : '[' ∉ t

/-- The request is for a host of this name, with or without a socket. -/
def IsFor (r : Request) (name : Text) : Prop :=
  r.host = name ∨ ∃ socket, ':' ∉ socket ∧ r.host = name ++ ':' :: socket

/-! ### From the sub-domain to the host -/

theorem rootName_of_root? (h : r.root? = some root) : r.rootName = root := by
  rw [Request.root?] at h
  rw [rootName]
  change (if r.givenRoot.isEmpty then _ else _) = _ at h
  split at h
  next hempty =>
    rw [if_pos hempty]
    rw [lastLabels?] at h
    split at h
    · cases h
    · exact Option.some.inj h
  next hempty =>
    rw [if_neg hempty]
    exact Option.some.inj h

theorem hostName_of_subDomain (h : r.subDomain ≠ []) :
    r.subDomain ++ '.' :: r.rootName = r.hostName := by
  rw [subDomain] at h ⊢
  cases hroot : r.root? with
  | none =>
    rw [hroot] at h
    exact absurd rfl h
  | some root =>
    rw [hroot] at h
    rw [rootName_of_root? hroot]
    dsimp only at h ⊢
    split at h
    next hends =>
      rw [if_pos hends]
      obtain ⟨front, hfront⟩ := endsWith_iff.mp hends
      have hlength : r.hostName.length - root.length - 1 = front.length := by
        rw [← hfront, List.length_append, List.length_cons]
        omega
      rw [hlength, ← hfront, List.take_left]
    next => exact absurd rfl h

/-! ### From the host to the sub-domain -/

/-- The name of a host is the text before the socket. -/
theorem hostName_of_isFor (h : IsNamePart name) (hr : r.IsFor name) : r.hostName = name := by
  have hopen : startsWith (lower r.host) "[" = false := by
    obtain ⟨rest, hrest⟩ : ∃ rest, lower r.host = name ++ rest := by
      rcases hr with hhost | ⟨socket, -, hhost⟩
      · exact ⟨[], by rw [hhost, h.small, List.append_nil]⟩
      · exact ⟨_, by rw [hhost, lower, lowerAfter_append_of_lower h.small]⟩
    rw [Bool.eq_false_iff, ne_eq, startsWith_iff, hrest]
    cases hname : name with
    | nil => exact absurd hname h.ne_nil
    | cons c _ =>
      intro hprefix
      obtain ⟨rfl, -⟩ := List.cons_prefix_cons.mp hprefix
      exact h.bracket (hname ▸ List.mem_cons_self)
  rw [hostName, hopen, if_neg Bool.false_ne_true]
  rcases hr with hhost | ⟨socket, hsocket, hhost⟩
  · rw [hhost, h.small, cutLast?_of_not_mem h.colon]
  · have hcolon : IsPunctuation ':' := by decide
    rw [hhost, lower, lowerAfter_append_of_lower h.small, hcolon.lowerAfter_cons,
      cutLast?_append_cons (not_mem_lowerAfter hcolon hsocket _)]

theorem subDomain_of_root? (hroot : r.root? = some root) (hname : r.hostName = sub ++ '.' :: root) :
    r.subDomain = sub := by
  have hends : endsWith r.hostName ('.' :: root) = true := endsWith_iff.mpr ⟨sub, hname.symm⟩
  have hlength : r.hostName.length - root.length - 1 = sub.length := by
    rw [hname, List.length_append, List.length_cons]
    omega
  rw [subDomain, hroot]
  dsimp only
  rw [if_pos hends, hlength, hname, List.take_left]

/-- Without points at its ends, a root domain in small letters is taken as it is given. -/
theorem root?_of_given (h : IsNamePart root) (hhead : root.head? ≠ some '.')
    (hlast : root.getLast? ≠ some '.') (hr : r.rootDomain = some root) : r.root? = some root := by
  have hpoint {t : Text} (ht : t.head? ≠ some '.') : t.dropWhile (· == '.') = t := by
    cases t with
    | nil => rfl
    | cons c rest =>
      refine List.dropWhile_cons_of_neg fun hc ↦ ht ?_
      rw [List.head?_cons, beq_iff_eq.mp hc]
  have hgiven : trim (· == '.') (lower (r.rootDomain.getD [])) = root := by
    rw [hr, Option.getD_some, h.small, trim, trimLeft, hpoint hhead, trimRight,
      hpoint (by rwa [List.head?_reverse]), List.reverse_reverse]
  rw [Request.root?, hgiven, if_neg (mt List.isEmpty_iff.mp h.ne_nil)]

theorem root?_of_labels {first last : Text} (hfirst : '.' ∉ first) (hlast : '.' ∉ last)
    (hname : r.hostName = sub ++ '.' :: (first ++ '.' :: last)) (hr : r.rootDomain = none) :
    r.root? = some (first ++ '.' :: last) := by
  have hlabels : splitAt '.' r.hostName = splitAt '.' sub ++ [first, last] := by
    rw [hname, splitAt_append_cons, splitAt_append_cons, splitAt_of_not_mem hfirst,
      splitAt_of_not_mem hlast]
    rfl
  have hmore : (splitAt '.' sub).length ≠ 0 := mt List.length_eq_zero_iff.mp (splitAt_ne_nil _ _)
  have hgiven : trim (· == '.') (lower (r.rootDomain.getD [])) = [] := by
    rw [hr]
    rfl
  rw [Request.root?, hgiven, List.isEmpty_nil, if_pos rfl, lastLabels?, hlabels,
    List.length_append, List.length_cons, List.length_singleton, if_neg (by omega),
    Nat.add_sub_cancel, List.drop_left]
  exact congrArg some (List.append_assoc first ['.'] last)

theorem IsNamePart.join (hsub : IsNamePart sub) (hroot : IsNamePart root) :
    IsNamePart (sub ++ '.' :: root) where
  ne_nil := List.append_ne_nil_of_left_ne_nil hsub.ne_nil _
  small := by
    have hroot' := lowerAfter_append_of_lower hroot.small ('.' :: (sub.reverse ++ [])) []
    have hpoint : IsPunctuation '.' := by decide
    rw [List.append_nil root, lowerAfter, List.append_nil root] at hroot'
    rw [lower, lowerAfter_append_of_lower hsub.small, hpoint.lowerAfter_cons, hroot']
  colon := by
    rw [List.mem_append, List.mem_cons, not_or, not_or]
    exact ⟨hsub.colon, by decide, hroot.colon⟩
  bracket := by
    rw [List.mem_append, List.mem_cons, not_or, not_or]
    exact ⟨hsub.bracket, by decide, hroot.bracket⟩

/-- A sub-domain is what stands in the name of the host before a point and the root domain; and a
host whose name is made up of a text, a point and a root domain has that text for its sub-domain,
if the root domain is given, or if none is given and it consists of two labels. -/
theorem subDomain_append_root :
    (∀ r : Request, r.subDomain ≠ [] → r.subDomain ++ '.' :: r.rootName = r.hostName) ∧
    ∀ sub root : Text, IsNamePart sub → IsNamePart root → root.head? ≠ some '.' →
      root.getLast? ≠ some '.' → ∀ r : Request, r.IsFor (sub ++ '.' :: root) →
        (r.rootDomain = some root → r.subDomain = sub) ∧
        (r.rootDomain = none →
          (∃ first last, '.' ∉ first ∧ '.' ∉ last ∧ root = first ++ '.' :: last) →
          r.subDomain = sub) := by
  refine ⟨fun r h ↦ hostName_of_subDomain h, ?_⟩
  intro sub root hsub hroot hhead hlast r hr
  have hname : r.hostName = sub ++ '.' :: root := hostName_of_isFor (hsub.join hroot) hr
  constructor
  · intro hgiven
    exact subDomain_of_root? (root?_of_given hroot hhead hlast hgiven) hname
  · rintro hnone ⟨first, last, hpoint, hpoint', rfl⟩
    exact subDomain_of_root? (root?_of_labels hpoint hpoint' hname hnone) hname

/-- A request for a host, under a root domain or under none. -/
def under (host : Text) (rootDomain : Option Text) : Request where
  method := "GET"
  path := "/"
  host := host
  scheme := "http"
  headers := .none
  query := ⟨[], []⟩
  pathParams := []
  rootDomain := rootDomain

/-- A host with a socket, under a given root domain of three labels and under none. -/
theorem subDomain_append_root_shop : ∃ r s : Request,
    r = under "API.v2.shop.co.uk:8080" (some "shop.co.uk") ∧ r.subDomain ≠ [] ∧
    r.subDomain ++ '.' :: "shop.co.uk".toList = r.hostName ∧
    s = under "api.v2.shop.co.uk:8080" none ∧ IsNamePart "api.v2.shop" ∧ IsNamePart "co.uk" ∧
    s.IsFor "api.v2.shop.co.uk" ∧ s.subDomain = "api.v2.shop".toList := by
  let r : Request := under "API.v2.shop.co.uk:8080" (some "shop.co.uk")
  let s : Request := under "api.v2.shop.co.uk:8080" none
  have hsub : IsNamePart "api.v2.shop" := ⟨by decide, by decide, by decide, by decide⟩
  have hroot : IsNamePart "co.uk" := ⟨by decide, by decide, by decide, by decide⟩
  have hsome : r.subDomain ≠ [] := by decide
  have hs : s.IsFor "api.v2.shop.co.uk" := .inr ⟨"8080", by decide, rfl⟩
  obtain ⟨hhost, hparts⟩ := subDomain_append_root
  have hlabels := (hparts _ _ hsub hroot (by decide) (by decide) s hs).2 rfl
    ⟨"co", "uk", by decide, by decide, rfl⟩
  exact ⟨r, s, rfl, hsome, hhost r hsome, rfl, hsub, hroot, hs, hlabels⟩

end UrlRouting.Http.Request

import Mathlib.Data.List.Forall2
import UrlRouting.Proofs.Regex.Leading
import UrlRouting.Proofs.Regex.Monotone
import UrlRouting.Proofs.Table.Plain
import UrlRouting.Proofs.Template.Assignment

/-!
Rule strings that end in an optional variable and have no other. Their trees match where the
characters before the variable do (`isSome_matchStart?`), and where they match without a value for
it, nothing else is matched (`exists_of_absent`).
-/

namespace UrlRouting.Template

open Template.Part Regex

variable {t u front rest name : Text} {c d z : Char} {lead : Option Char} {g : Nat} {p : Place}
  {ignoreCase complete dropEnd : Bool} {kind : Text → Kind} {separates : Char → Bool}

/-- A text and an optional variable behind it. -/
def trailing (t : Text) (lead : Option Char) (name : Text) : List Part :=
  t.map literal ++ [slot lead name true]

/-! ### Parts -/

theorem names_trailing (t : Text) (lead : Option Char) (name : Text) :
    names (trailing t lead name) = [name] := by
  induction t with
  | nil => rfl
  | cons c t ih => exact ih

theorem gather_trailing (hz : separates z = true) (t name : Text) :
    gather separates (trailing (t ++ [z]) none name) = trailing t (some z) name := by
  induction t with
  | nil =>
    change attach separates z [slot none name true] = _
    rw [attach, if_pos hz]
    rfl
  | cons c t ih =>
    change attach separates c (gather separates (trailing (t ++ [z]) none name)) = _
    rw [ih]
    cases t <;> rfl

theorem rdropWhile_trailing (holds : Char → Bool) (t : Text) (lead : Option Char) (name : Text) :
    (trailing t lead name).rdropWhile (isLiteral holds) = trailing t lead name := by
  rw [trailing, List.rdropWhile_concat]
  rfl

theorem trailing_ne_singleton : trailing t lead name ≠ [literal c] := by
  intro h
  have hlast := congrArg List.getLast? h
  rw [trailing, List.getLast?_concat] at hlast
  cases hlast

/-- The slash before the variable belongs to it. -/
theorem pathParts_trailing (h : '/' :: u = t ++ ['/']) :
    pathParts dropEnd (trailing u none name) = trailing t (some '/') name := by
  have hcons : literal '/' :: trailing u none name = trailing (t ++ ['/']) none name := by
    rw [← h]
    rfl
  rw [pathParts, if_neg trailing_ne_singleton, rdropWhile_trailing, ite_self, hcons,
    gather_trailing (by decide)]

theorem delimited_trailing (t : Text) (name : Text) :
    delimited d (trailing t (some '/') name) = trailing (t.map (delimit d)) (some d) name := by
  simp [delimited, trailing, Part.map, Function.comp_def]

theorem settle_trailing (separates : Char → Bool) (t : Text) (lead : Option Char) (name : Text) :
    settle separates (trailing t lead name) = trailing t lead name := by
  induction t with
  | nil => rfl
  | cons c t ih => exact congrArg (literal c :: ·) ih

theorem standing_trailing (t : Text) (lead : Option Char) (name : Text) :
    standing d dropEnd (trailing t lead name) = trailing t lead name := by
  have hlast : (trailing t lead name).getLast? = some (slot lead name true) := by
    rw [trailing, List.getLast?_concat]
  have hslot : (some (slot lead name true) == some (literal d)) = false := beq_false_of_ne nofun
  rw [standing, if_neg trailing_ne_singleton, rdropWhile_trailing, settle_trailing, hlast, hslot,
    Bool.and_false, if_neg Bool.false_ne_true, List.append_nil]

theorem takeWhile_trailing (t : Text) (lead : Option Char) (name : Text) :
    written ((trailing t lead name).takeWhile (isLiteral fun _ ↦ true)) = t := by
  induction t with
  | nil => rfl
  | cons c t ih => exact congrArg (c :: ·) ih

/-! ### The tree -/

theorem nodes_trailing (t : Text) (lead : Option Char) (name : Text) :
    nodes ignoreCase kind g (trailing t lead name) =
      (t.map (single ignoreCase)).map .char ++ [(slot lead name true).node ignoreCase kind g] := by
  induction t with
  | nil => rfl
  | cons c t ih => exact congrArg (_ :: ·) ih

theorem groupNames_trailing (t : Text) (lead : Option Char) (name : Text) :
    groupNames g (trailing t lead name) = [(name, g + 2)] := by
  induction t with
  | nil => rfl
  | cons c t ih => exact ih

theorem namedGroups_trailing (p : Place) :
    (treeOf ignoreCase kind complete (trailing t lead name)).namedGroups p =
      [(name, p.groups.lookup 2)] := by
  rw [Regex.namedGroups, treeOf, groupNames_trailing]
  rfl

/-- Characters that match those of a text one by one. -/
def Fits (ignoreCase : Bool) (t front : Text) : Prop :=
  List.Forall₂ (fun x c ↦ (single ignoreCase x).contains c = true) t front

theorem root_trailing (t : Text) (lead : Option Char) (name : Text) :
    (treeOf ignoreCase kind complete (trailing t lead name)).root =
      Node.sequence (.anchor .textStart :: (t.map (single ignoreCase)).map .char ++
        (slot lead name true).node ignoreCase kind 0 ::
          if complete then [.anchor .closingEnd] else []) := by
  rw [treeOf, nodes_trailing, List.append_assoc]
  rfl

/-- The variable may take no part in the match. -/
theorem isSome_matchStart? (kind : Text → Kind) (lead : Option Char) (name : Text)
    (hfront : Fits ignoreCase t front) (hend : complete = true → rest = [] ∨ rest = ['\n']) :
    ((treeOf ignoreCase kind complete (trailing t lead name)).matchStart?
      (front ++ rest)).isSome = true := by
  have hafter : ((Place.start (front ++ rest)).past front).after = rest := Place.after_past rfl
  have hstart : (Node.anchor .textStart).Takes (Place.start (front ++ rest)) _ := .anchor rfl
  have hchars := hstart.sequence_cons
    (Node.Takes.chars (List.forall₂_map_left_iff.mpr hfront) (rfl : (Place.start _).after = _))
  have htail : ((Node.sequence ((slot lead name true).node ignoreCase kind 0 ::
      if complete then [.anchor .closingEnd] else [])).run
        ((Place.start (front ++ rest)).past front) some).isSome = true := by
    rw [run_sequence_cons]
    change (Node.run (.loop _ 0 (some 1) .greedy) _ _).isSome = true
    rw [run_optional, isSome_orElse]
    exact .inr (by rw [takes_end (by rwa [hafter]) some rfl]; rfl)
  rw [Regex.matchStart?, root_trailing, run_sequence_append, hchars _ htail]
  exact htail

/-- Without a value for the variable, nothing is matched behind the text. -/
theorem exists_of_absent
    (h : (treeOf ignoreCase kind complete (trailing t lead name)).matchStart? u = some p)
    (habsent : p.groups.lookup 2 = none) : ∃ front rest, u = front ++ rest ∧
      Fits ignoreCase t front ∧ (complete = true → rest = [] ∨ rest = ['\n']) := by
  rw [Regex.matchStart?, root_trailing] at h
  obtain ⟨out, ⟨_, ⟨_, ⟨-, rfl⟩, front, hfront, ⟨rest, hrest⟩, rfl⟩, _, hslot, rfl, hend⟩, hout⟩ :=
    ((Node.Leads.anchor .textStart).sequence_cons (.chars _)).sequence_append
      ((leads_slot ignoreCase kind 0 lead name true).sequence_cons (leads_end complete)) _ _ _ h
  cases hout
  rcases hslot with ⟨separator, v, -, -, -, rfl⟩ | ⟨-, rfl⟩
  · rw [lookup_pastValue] at habsent
    cases habsent
  · have hafter : ((Place.start u).past front).after = rest := Place.after_past hrest.symm
    rw [hafter] at hend
    exact ⟨front, rest, hrest.symm, List.forall₂_map_left_iff.mp hfront, hend⟩

/-- What is captured for the variable, if anything is matched. -/
theorem exists_captures (ignoreCase complete : Bool) (kind : Text → Kind) (t : Text)
    (lead : Option Char) (name u : Text) : ∃ found : Option (Option Text),
    (treeOf ignoreCase kind complete (trailing t lead name)).captures? u =
      found.map (fun value ↦ [(name, value)]) ∧
    (∀ front rest, u = front ++ rest → Fits ignoreCase t front →
      (complete = true → rest = [] ∨ rest = ['\n']) → found ≠ none) ∧
    (found = some none → ∃ front rest, u = front ++ rest ∧ Fits ignoreCase t front ∧
      (complete = true → rest = [] ∨ rest = ['\n'])) := by
  refine ⟨((treeOf ignoreCase kind complete (trailing t lead name)).matchStart? u).map
    (·.groups.lookup 2), ?_, ?_, ?_⟩
  · rw [Regex.captures?, Option.map_map]
    congr 1
    funext p
    exact namedGroups_trailing p
  · rintro front rest rfl hfront hend hnone
    have hsome := isSome_matchStart? kind lead name hfront hend
    rw [Option.map_eq_none_iff.mp hnone] at hsome
    cases hsome
  · intro habsent
    obtain ⟨p, hp, hgroup⟩ := Option.map_eq_some_iff.mp habsent
    exact exists_of_absent hp hgroup

end UrlRouting.Template

import Mathlib.Data.List.DropRight
import UrlRouting.Template.Token
import UrlRouting.Template.Shorthand

/-!
Rule strings in parts. A plain rule string is made of word characters, separators and variables. A
variable takes the separator that stands before it into its own part, so that the same string can
always be written in parts that are gathered in this way: `written_gather`, `gathered_gather`.
-/

namespace UrlRouting.Template

/-- A literal character, or a variable with the separator before it, if one stands there. -/
inductive Part where
  | literal (c : Char)
  | slot (lead : Option Char) (name : Text) (optional : Bool)
deriving DecidableEq

namespace Part

def text : Part → Text
  | literal c => [c]
  | slot lead name optional => lead.toList ++ Shorthand.canonical name optional

/-- Literals are word characters or separators, and names are words. -/
def isPlain (separates : Char → Bool) : Part → Bool
  | literal c => Text.isWord c || separates c
  | slot lead name _ => lead.all separates && (!name.isEmpty && name.all Text.isWord)

def isLiteral (holds : Char → Bool) : Part → Bool
  | literal c => holds c
  | slot _ _ _ => false

def map (f : Char → Char) : Part → Part
  | literal c => literal (f c)
  | slot lead name optional => slot (lead.map f) name optional

end Part

open Template.Part

/-- The text that parts make up. -/
def written (parts : List Part) : Text := parts.flatMap Part.text

/-- The parts with a separator taken into the variable that follows it. -/
def attach (separates : Char → Bool) (c : Char) : List Part → List Part
  | slot none name optional :: rest =>
    if separates c then slot (some c) name optional :: rest
    else literal c :: slot none name optional :: rest
  | parts => literal c :: parts

def gather (separates : Char → Bool) : List Part → List Part
  | [] => []
  | literal c :: rest => attach separates c (gather separates rest)
  | slot lead name optional :: rest => slot lead name optional :: gather separates rest

/-- No separator stands as a literal before a variable. -/
def Gathered (separates : Char → Bool) (parts : List Part) : Prop :=
  ∀ c name optional, [literal c, slot none name optional] <:+: parts → separates c = false

variable {separates : Char → Bool} {part : Part} {parts more : List Part} {c : Char} {name : Text}
  {optional : Bool}

@[simp] theorem written_nil : written [] = [] := rfl

@[simp] theorem written_cons (part : Part) (parts : List Part) :
    written (part :: parts) = part.text ++ written parts := List.flatMap_cons

@[simp] theorem written_append (parts more : List Part) :
    written (parts ++ more) = written parts ++ written more := List.flatMap_append

theorem Part.text_ne_nil (part : Part) : part.text ≠ [] := by
  cases part with
  | literal c => exact List.cons_ne_nil _ _
  | slot lead name optional =>
    exact List.append_ne_nil_of_right_ne_nil _ (List.cons_ne_nil _ _)

theorem mem_written (h : ∀ part ∈ parts, part.isPlain separates = true) (hc : c ∈ written parts) :
    Text.isWord c = true ∨ separates c = true ∨ c ∈ ['<', '>', '?'] := by
  obtain ⟨part, hpart, hc⟩ := List.mem_flatMap.mp hc
  have hplain := h part hpart
  cases part with
  | literal x =>
    rw [List.mem_singleton.mp hc]
    rw [isPlain, Bool.or_eq_true] at hplain
    exact hplain.imp_right .inl
  | slot lead name optional =>
    simp only [isPlain, Bool.and_eq_true, List.all_eq_true] at hplain
    rcases List.mem_append.mp hc with hc | hc
    · exact .inr (.inl (Option.all_eq_true .. |>.mp hplain.1 c (Option.mem_toList.mp hc)))
    rcases List.mem_append.mp hc with hc | hc
    · rcases List.mem_cons.mp hc with rfl | hc
      · exact .inr (.inr (by decide))
      · exact .inl (hplain.2.2 c hc)
    · refine .inr (.inr ?_)
      cases optional with
      | false =>
        rw [List.mem_singleton.mp hc]
        decide
      | true => rcases List.mem_pair.mp hc with rfl | rfl <;> decide

/-! ### Gathering -/

theorem written_attach (separates : Char → Bool) (c : Char) (parts : List Part) :
    written (attach separates c parts) = c :: written parts := by
  rw [attach.eq_def]
  split
  · split <;> rfl
  · rfl

theorem written_gather (separates : Char → Bool) (parts : List Part) :
    written (gather separates parts) = written parts := by
  induction parts with
  | nil => rfl
  | cons part rest ih =>
    cases part with
    | literal c => rw [gather, written_attach, ih, written_cons]; rfl
    | slot lead name optional => rw [gather, written_cons, written_cons, ih]

theorem isPlain_attach (hc : (literal c).isPlain separates = true)
    (h : ∀ part ∈ parts, part.isPlain separates = true) :
    ∀ part ∈ attach separates c parts, part.isPlain separates = true := by
  rw [attach.eq_def]
  split
  next name optional rest =>
    have hrest : ∀ part ∈ rest, part.isPlain separates = true :=
      fun part hmem ↦ h part (List.mem_cons_of_mem _ hmem)
    have hname := h _ List.mem_cons_self
    split
    next hs =>
      refine List.forall_mem_cons.mpr ⟨?_, hrest⟩
      simpa [isPlain, hs] using hname
    next => exact List.forall_mem_cons.mpr ⟨hc, h⟩
  next => exact List.forall_mem_cons.mpr ⟨hc, h⟩

theorem isPlain_gather (h : ∀ part ∈ parts, part.isPlain separates = true) :
    ∀ part ∈ gather separates parts, part.isPlain separates = true := by
  induction parts with
  | nil => exact h
  | cons part rest ih =>
    obtain ⟨hpart, hrest⟩ := List.forall_mem_cons.mp h
    cases part with
    | literal c => exact isPlain_attach hpart (ih hrest)
    | slot lead name optional => exact List.forall_mem_cons.mpr ⟨hpart, ih hrest⟩

namespace Gathered

theorem nil : Gathered separates [] := by
  intro c name optional h
  cases List.infix_nil.mp h

theorem of_infix (h : Gathered separates parts) (hsub : more <:+: parts) :
    Gathered separates more := fun c name optional hm ↦ h c name optional (hm.trans hsub)

theorem tail (h : Gathered separates (part :: parts)) : Gathered separates parts :=
  h.of_infix (List.suffix_cons _ _).isInfix

theorem separates_eq_false
    (h : Gathered separates (literal c :: slot none name optional :: more)) :
    separates c = false := h c name optional (List.prefix_append _ more).isInfix

theorem cons_slot (h : Gathered separates parts) (lead : Option Char) (name : Text)
    (optional : Bool) : Gathered separates (slot lead name optional :: parts) := by
  intro c name' optional' hm
  rcases List.infix_cons_iff.mp hm with hm | hm
  · cases (List.cons_prefix_cons.mp hm).1
  · exact h c name' optional' hm

theorem cons_literal (h : Gathered separates parts)
    (hc : ∀ name optional rest, parts = slot none name optional :: rest → separates c = false) :
    Gathered separates (literal c :: parts) := by
  intro c' name' optional' hm
  rcases List.infix_cons_iff.mp hm with hm | hm
  · obtain ⟨hc', rest, hrest⟩ := List.cons_prefix_cons.mp hm
    obtain rfl := Part.literal.inj hc'
    exact hc name' optional' rest hrest.symm
  · exact h c' name' optional' hm

theorem attach (h : Gathered separates parts) (c : Char) :
    Gathered separates (attach separates c parts) := by
  rw [Template.attach.eq_def]
  split
  next name optional rest =>
    split
    next => exact h.tail.cons_slot _ _ _
    next hs => exact h.cons_literal fun _ _ _ _ ↦ Bool.eq_false_iff.mpr hs
  next hne => exact h.cons_literal fun name optional rest he ↦ absurd he (hne name optional rest)

end Gathered

theorem gathered_gather (separates : Char → Bool) (parts : List Part) :
    Gathered separates (gather separates parts) := by
  induction parts with
  | nil => exact .nil
  | cons part rest ih =>
    cases part with
    | literal c => exact ih.attach c
    | slot lead name optional => exact ih.cons_slot lead name optional

/-! ### Ends -/

theorem trimRight_append_cons {p : Char → Bool} {c : Char} (h : p c = false) (t : Text) :
    Text.trimRight p (t ++ [c]) = t ++ [c] := by
  rw [Text.trimRight, List.reverse_append, List.reverse_singleton, List.singleton_append,
    List.dropWhile_cons_of_neg (by simp [h]), List.reverse_cons, List.reverse_reverse]

theorem trimRight_append_of_pos {p : Char → Bool} {c : Char} (h : p c = true) (t : Text) :
    Text.trimRight p (t ++ [c]) = Text.trimRight p t := by
  rw [Text.trimRight, List.reverse_append, List.reverse_singleton, List.singleton_append,
    List.dropWhile_cons_of_pos h, Text.trimRight]

/-- What is trimmed off the end of a text. -/
theorem exists_trimRight_append (p : Char → Bool) (t : Text) :
    ∃ ends, t = Text.trimRight p t ++ ends ∧ ∀ c ∈ ends, p c = true := by
  refine ⟨(t.reverse.takeWhile p).reverse, ?_, fun c hc ↦ ?_⟩
  · rw [Text.trimRight, ← List.reverse_append, List.takeWhile_append_dropWhile,
      List.reverse_reverse]
  · exact List.mem_takeWhile_imp (List.mem_reverse.mp hc)

theorem exists_text_slot (lead : Option Char) (name : Text) (optional : Bool) :
    ∃ front, (slot lead name optional).text = front ++ ['>'] := by
  cases optional with
  | false => exact ⟨lead.toList ++ '<' :: name, by simp [text, Shorthand.canonical]⟩
  | true => exact ⟨lead.toList ++ '<' :: name ++ ['?'], by simp [text, Shorthand.canonical]⟩

/-- Trimming a text at its end drops literal characters only. -/
theorem trimRight_written {p : Char → Bool} (hp : p '>' = false) (parts : List Part) :
    Text.trimRight p (written parts) = written (parts.rdropWhile (isLiteral p)) := by
  induction parts using List.reverseRecOn with
  | nil => rfl
  | append_singleton parts part ih =>
    rw [written_append, List.rdropWhile_concat, written_cons, written_nil, List.append_nil]
    cases part with
    | literal c =>
      rw [isLiteral]
      split
      next hc => rw [text, trimRight_append_of_pos hc, ih]
      next hc =>
        rw [text, trimRight_append_cons (Bool.eq_false_iff.mpr hc), written_append]
        rfl
    | slot lead name optional =>
      obtain ⟨front, hfront⟩ := exists_text_slot lead name optional
      rw [isLiteral, if_neg (by decide), hfront, ← List.append_assoc, trimRight_append_cons hp,
        written_append, written_cons, hfront, written_nil, List.append_nil, List.append_assoc]

/-! ### Other separators -/

theorem text_map {f : Char → Char}
    (hf : ∀ c, Text.isWord c = true ∨ c ∈ ['<', '>', '?'] → f c = c)
    (h : part.isPlain separates = true) : (part.map f).text = part.text.map f := by
  cases part with
  | literal c => rfl
  | slot lead name optional =>
    simp only [isPlain, Bool.and_eq_true, List.all_eq_true] at h
    have hname : name.map f = name := by
      rw [List.map_congr_left fun c hc ↦ hf c (.inl (h.2.2 c hc)), List.map_id']
    have hlead : (lead.map f).toList = lead.toList.map f := by cases lead <;> rfl
    have hopen := hf '<' (.inr (by simp))
    have hclose := hf '>' (.inr (by simp))
    have hmark := hf '?' (.inr (by simp))
    cases optional <;>
      simp [Part.map, text, Shorthand.canonical, hlead, hname, hopen, hclose, hmark]

theorem written_map {f : Char → Char}
    (hf : ∀ c, Text.isWord c = true ∨ c ∈ ['<', '>', '?'] → f c = c)
    (h : ∀ part ∈ parts, part.isPlain separates = true) :
    written (parts.map (Part.map f)) = (written parts).map f := by
  induction parts with
  | nil => rfl
  | cons part rest ih =>
    obtain ⟨hpart, hrest⟩ := List.forall_mem_cons.mp h
    rw [List.map_cons, written_cons, written_cons, text_map hf hpart, ih hrest, List.map_append]

theorem isPlain_map {separates' : Char → Bool} {f : Char → Char}
    (hword : ∀ c, Text.isWord c = true → f c = c)
    (hf : ∀ c, separates c = true → separates' (f c) = true)
    (h : part.isPlain separates = true) : (part.map f).isPlain separates' = true := by
  cases part with
  | literal c =>
    rw [isPlain, Bool.or_eq_true] at h
    rw [Part.map, isPlain, Bool.or_eq_true]
    exact h.imp (fun hc ↦ (hword c hc).symm ▸ hc) (hf c)
  | slot lead name optional =>
    rw [isPlain, Bool.and_eq_true] at h
    rw [Part.map, isPlain, Bool.and_eq_true]
    refine ⟨?_, h.2⟩
    cases lead with
    | none => rfl
    | some c => exact hf c h.1

theorem Gathered.map {separates' : Char → Bool} {f : Char → Char}
    (hword : ∀ c, Text.isWord c = true → f c = c ∧ separates' c = false)
    (h : ∀ part ∈ parts, part.isPlain separates = true) (hg : Gathered separates parts) :
    Gathered separates' (parts.map (Part.map f)) := by
  induction parts with
  | nil => exact .nil
  | cons part rest ih =>
    obtain ⟨hpart, hrest⟩ := List.forall_mem_cons.mp h
    rw [List.map_cons]
    cases part with
    | slot lead name optional => exact (ih hrest hg.tail).cons_slot _ _ _
    | literal c =>
      refine (ih hrest hg.tail).cons_literal fun name optional more he ↦ ?_
      cases rest with
      | nil => cases he
      | cons next more' =>
        obtain ⟨hnext, -⟩ := List.cons.inj he
        cases next with
        | literal c' => cases hnext
        | slot lead name' optional' =>
          cases lead with
          | some c' => cases hnext
          | none =>
            have hc : Text.isWord c = true := by
              simpa [isPlain, hg.separates_eq_false] using hpart
            obtain ⟨hfix, hsep⟩ := hword c hc
            rw [hfix]
            exact hsep

end UrlRouting.Template

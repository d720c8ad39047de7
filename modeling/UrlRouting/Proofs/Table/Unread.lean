import Mathlib.Data.List.Forall2
import UrlRouting.Proofs.Admission.Reading
import UrlRouting.Proofs.Table.Deciding
import UrlRouting.Proofs.Table.Later

/-!
The options that directives edit in place are not read by decisions, which only carry them along:
rules whose options differ in them alone decide alike, each with its own options
(`CompiledRule.decide_withOptions`).
-/

namespace UrlRouting

open Http

/-- The second map has the keys of the first one, and binds them to the same values, except for some
names. -/
def Mapping.SameApart (names : List Text) (m m' : Mapping) : Prop :=
  List.Forall₂ (fun entry entry' : Value × Value ↦
    entry'.1 = entry.1 ∧ (entry'.2 = entry.2 ∨ ∃ name ∈ names, entry.1 = .str name)) m m'

namespace Mapping.SameApart

variable {names : List Text} {m m' : Mapping}

theorem named?_eq (h : m.SameApart names m') (name : Text) (hname : name ∉ names) :
    Entries.named? m' name = Entries.named? m name := by
  rw [Entries.named?, Entries.named?]
  induction h with
  | nil => rfl
  | cons hentry _ ih =>
    obtain ⟨hkey, hvalue⟩ := hentry
    rw [Entries.get?, Entries.get?, hkey, ih]
    split
    next hsame =>
      rcases hvalue with hvalue | ⟨other, hother, hkey⟩
      · rw [hvalue]
      · rw [hkey, Value.same_str_iff, Value.str.injEq] at hsame
        exact absurd (hsame ▸ hother) hname
    next => rfl

theorem named_eq (h : m.SameApart names m') (name : Text) (hname : name ∉ names) :
    m'.named name = m.named name := by
  rw [named, named, h.named?_eq name hname]

theorem erase (h : m.SameApart names m') (key : Value) :
    Mapping.SameApart names (Entries.erase m key) (Entries.erase m' key) := by
  induction h with
  | nil => exact .nil
  | cons hentry _ ih =>
    rw [Entries.erase, Entries.erase, List.filter_cons, List.filter_cons, hentry.1]
    split
    · exact .cons hentry ih
    · exact ih

end Mapping.SameApart

variable {m : Mapping} {request : Request} {url : Text}

namespace CompiledRule

def withOptions (c : CompiledRule) (m : Mapping) : CompiledRule := { c with options := m }

variable {c : CompiledRule}

theorem rejection?_withOptions (h : c.options.SameApart Options.inPlace m) (rule : Option Text)
    (request : Request) :
    Admission.rejection? m rule request = Admission.rejection? c.options rule request := by
  have hreads : ∀ check : Check, ∀ name ∈ check.reads, name ∉ Options.inPlace := by
    intro check
    cases check <;> decide
  exact Admission.rejection?_congr fun check ↦
    Check.passes_congr (fun name hmem ↦ h.named_eq name (hreads check name hmem)) rule request

theorem dropsEnd_withOptions (h : c.options.SameApart Options.inPlace m) :
    (c.withOptions m).dropsEnd = c.dropsEnd := by
  simp only [dropsEnd, withOptions, h.named_eq "remove_slash" (by decide)]

theorem ignoresCase_withOptions (h : c.options.SameApart Options.inPlace m) :
    (c.withOptions m).ignoresCase = c.ignoresCase := by
  simp only [ignoresCase, withOptions, h.named_eq "case_sensitive" (by decide)]

theorem isComplete_withOptions (h : c.options.SameApart Options.inPlace m) (asked : Bool) :
    (c.withOptions m).isComplete asked = c.isComplete asked := by
  simp only [isComplete, withOptions, h.named_eq "complete_match" (by decide)]

theorem trimmed_withOptions (h : c.options.SameApart Options.inPlace m) (ext url : Text) :
    (c.withOptions m).trimmed ext url = c.trimmed ext url := by
  have hext : (c.withOptions m).options.named "ext" = c.options.named "ext" :=
    h.named_eq "ext" (by decide)
  rw [trimmed, trimmed, dropsEnd_withOptions h, hext]
  rfl

theorem capture_withOptions (h : c.options.SameApart Options.inPlace m) (url : Text)
    (complete : Bool) : (c.withOptions m).capture url complete = c.capture url complete := by
  have hpath : (c.withOptions m).path = c.path := by
    rw [path, path, dropsEnd_withOptions h]
    rfl
  have hdecided : (c.withOptions m).decided? url complete = c.decided? url complete := by
    simp only [decided?, matchesLiterally, hpath]
    rfl
  have htext : (c.withOptions m).text = c.text := rfl
  have hregex := regex_congr htext rfl rfl rfl (dropsEnd_withOptions h) (ignoresCase_withOptions h)
    complete
  rw [capture, capture, hdecided, hregex]
  rfl

theorem decide_withOptions (h : c.options.SameApart Options.inPlace m) (request : Request)
    (url : Text) (asked : Bool) : (c.withOptions m).decide request url asked =
      (c.decide request url asked).map (Option.map fun d ↦ { d with options := m }) := by
  have hreads : ∀ name ∈ decisionReads, name ∉ Options.inPlace := by decide
  refine decide_congr (rejection?_withOptions h (some c.text) request) ?_ fun captures _ ↦ ?_
  · rw [trimmed_withOptions h, isComplete_withOptions h, capture_withOptions h]
  · rw [trimmed_withOptions h]
    exact decision_congr (fun name hmem ↦ h.named_eq name (hreads name hmem)) c request _ _

end CompiledRule

end UrlRouting

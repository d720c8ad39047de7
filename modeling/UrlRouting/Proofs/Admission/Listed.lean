import UrlRouting.Proofs.Admission.Misshapen
import UrlRouting.Proofs.Text.Settled

/-!
Lists between bars. With a bar before and behind it, a list holds a text between bars where the text
is one of its entries, and nowhere else (`infix_barred_iff`). So looking for an extension in the
small form of a list comes to comparing it with the entries: `passesExt_iff_listed`.
-/

namespace UrlRouting

open Http Text

variable {t piece value listed : Text} {options : Mapping} {rule : Option Text} {request : Request}

namespace Text

/-- A piece of a list is between two bars if bars are put around the list. -/
theorem infix_of_piece (h : piece ∈ splitAt '|' t) :
    '|' :: piece ++ ['|'] <:+: '|' :: t ++ ['|'] := by
  revert piece
  refine splitAt_induction (motive := fun t ↦ ∀ {piece}, piece ∈ splitAt '|' t →
    '|' :: piece ++ ['|'] <:+: '|' :: t ++ ['|']) '|' (fun t ht piece h ↦ ?_)
    (fun t u ht ih piece h ↦ ?_) t
  · rw [splitAt_of_not_mem ht, List.mem_singleton] at h
    exact h ▸ List.infix_rfl
  · rw [splitAt_append_cons, splitAt_of_not_mem ht, List.mem_append, List.mem_singleton] at h
    rcases h with rfl | h
    · exact ⟨[], u ++ ['|'], by simp⟩
    · obtain ⟨front, back, hinfix⟩ := ih h
      exact ⟨'|' :: t ++ front, back, by simp [← hinfix]⟩

theorem eq_of_prefix_bar {rest : Text} (hpiece : '|' ∉ piece) (ht : '|' ∉ t)
    (h : piece ++ ['|'] <+: t ++ '|' :: rest) : piece = t := by
  obtain ⟨more, hmore⟩ := h
  rw [List.append_assoc, List.singleton_append] at hmore
  have hcut := congrArg (cut? '|') hmore
  rw [cut?_append_cons hpiece, cut?_append_cons ht] at hcut
  exact congrArg Prod.fst (Option.some.inj hcut)

/-- What stands between two bars and holds none is a piece of the list. -/
theorem piece_of_barred (hpiece : '|' ∉ piece) (h : '|' :: piece ++ ['|'] <:+: '|' :: t ++ ['|']) :
    piece ∈ splitAt '|' t := by
  revert h
  refine splitAt_induction (motive := fun t ↦ '|' :: piece ++ ['|'] <:+: '|' :: t ++ ['|'] →
    piece ∈ splitAt '|' t) '|' (fun t ht h ↦ ?_) (fun t u ht ih h ↦ ?_) t
  · have hprefix : '|' :: piece ++ ['|'] <+: '|' :: t ++ ['|'] := by
      rcases List.infix_cons_iff.mp h with hprefix | hlater
      · exact hprefix
      · -- the bar behind the list is the only other one, and nothing comes after it
        have hlast := (infix_of_infix_append ht hlater).length_le
        simp at hlast
    rw [splitAt_of_not_mem ht, eq_of_prefix_bar hpiece ht (List.cons_prefix_cons.mp hprefix).2]
    exact List.mem_singleton_self t
  · rw [splitAt_append_cons, splitAt_of_not_mem ht, List.mem_append, List.mem_singleton]
    rw [List.cons_append, List.cons_append, List.append_assoc] at h
    rcases List.infix_cons_iff.mp h with hprefix | hlater
    · exact .inl (eq_of_prefix_bar hpiece ht (List.cons_prefix_cons.mp hprefix).2)
    · exact .inr (ih (infix_of_infix_append ht hlater))

theorem infix_barred_iff (hpiece : '|' ∉ piece) :
    '|' :: piece ++ ['|'] <:+: '|' :: t ++ ['|'] ↔ piece ∈ splitAt '|' t :=
  ⟨piece_of_barred hpiece, infix_of_piece⟩

theorem lower_barred (t : Text) : lower ('|' :: t ++ ['|']) = '|' :: lower t ++ ['|'] := by
  have hbar : IsBoundary '|' := by decide
  rw [List.cons_append, lower_boundary_cons hbar, lower_append_boundary hbar]
  rfl

end Text

theorem Check.inList_lower (h : lower value ∈ (splitAt '|' listed).map lower) :
    inList (lower value) listed = true := by
  have hbar : IsBoundary '|' := by decide
  rw [inList, lower_barred, lower_barred, lower_lower, occursIn_iff]
  exact infix_of_piece ((splitAt_lower hbar listed).symm ▸ h)

namespace Check

/-- A text without a bar is found in a list if and only if it is an entry of the list, small letter
by small letter. -/
theorem inList_iff (hvalue : '|' ∉ value) :
    inList value listed = true ↔ ∃ entry ∈ splitAt '|' listed, lower value = lower entry := by
  have hbar : IsBoundary '|' := by decide
  have hsmall : '|' ∉ lower value := not_mem_lower hbar.1 hvalue
  rw [inList, lower_barred, lower_barred, occursIn_iff, infix_barred_iff hsmall,
    splitAt_lower hbar, List.mem_map]
  exact exists_congr fun entry ↦ and_congr_right fun _ ↦ eq_comm

theorem inOption_iff {option : Value} (hext : '|' ∉ request.ext) :
    inOption option request = true ↔ option.isNull = false ∧
      ∃ entry ∈ splitAt '|' option.plain, lower request.ext = lower entry := by
  rw [inOption, Bool.and_eq_true, Bool.not_eq_true', inList_iff hext]

theorem passesExt_eq_false_iff (options : Mapping) (hpath : request.path ≠ ['/']) :
    passesExt options request = false ↔
      ((options.named "ext").isNull = false ∧ inOption (options.named "ext") request = false) ∨
        inOption (options.named "deny_ext") request = true := by
  have hroot : (request.path == ['/']) = false := beq_false_of_ne hpath
  rw [passesExt, hroot, Bool.false_or, Bool.and_eq_false_iff, Bool.or_eq_false_iff,
    Bool.not_eq_false']

/-- Looking for a text in a list is looking among its entries. So a request for another path than
the root path, with an extension without a bar, is rejected for it if and only if there is a list of
those that are allowed and the extension is none of its entries, or there is a list of those that
are denied and the extension is one. -/
theorem passesExt_iff_listed :
    (∀ value listed, '|' ∉ value → (inList value listed = true ↔
      ∃ entry ∈ splitAt '|' listed, lower value = lower entry)) ∧
    ∀ (options : Mapping) (request : Request), '|' ∉ request.ext → request.path ≠ ['/'] →
      (passesExt options request = false ↔
        ((options.named "ext").isNull = false ∧
          ∀ entry ∈ splitAt '|' (options.named "ext").plain, lower request.ext ≠ lower entry) ∨
        ((options.named "deny_ext").isNull = false ∧
          ∃ entry ∈ splitAt '|' (options.named "deny_ext").plain,
            lower request.ext = lower entry)) := by
  refine ⟨fun value listed hvalue ↦ inList_iff hvalue, fun options request hext hpath ↦ ?_⟩
  have hallowed : ((options.named "ext").isNull = false ∧
      inOption (options.named "ext") request = false) ↔ ((options.named "ext").isNull = false ∧
        ∀ entry ∈ splitAt '|' (options.named "ext").plain, lower request.ext ≠ lower entry) := by
    refine and_congr_right fun hpresent ↦ ?_
    rw [Bool.eq_false_iff, Ne, inOption_iff hext, not_and]
    simp only [hpresent, true_imp_iff, not_exists, not_and, ne_eq]
  rw [passesExt_eq_false_iff options hpath, inOption_iff hext, hallowed]

/-- The last entry of the list is empty, and the extension is none of the entries before it. -/
theorem passesExt_iff_listed_page :
    let options : Mapping := [(.str "ext", .str "HTML|ΟΔΟΣ|")]
    let request : Request := .bare "GET" "/page.htm"
    '|' ∉ "οδος".toList ∧ inList "οδος" "HTML|ΟΔΟΣ|" = true ∧
      '|' ∉ request.ext ∧ request.path ≠ ['/'] ∧ passesExt options request = false := by
  intro options request
  have hvalue : '|' ∉ "οδος".toList := by decide
  have hext : '|' ∉ request.ext := by decide +kernel
  have hpath : request.path ≠ ['/'] := by decide
  refine ⟨hvalue, (passesExt_iff_listed.1 _ _ hvalue).mpr ⟨"ΟΔΟΣ".toList, ?_, ?_⟩, hext, hpath,
    (passesExt_iff_listed.2 options request hext hpath).mpr (.inl ⟨?_, ?_⟩)⟩
  all_goals decide +kernel

end Check

theorem Admission.firstFailure_of_forall {checks : List Check}
    (h : ∀ check ∈ checks, check.passes options rule request = .ok true) :
    firstFailure options rule request checks = .ok none := by
  induction checks with
  | nil => rfl
  | cons check rest ih =>
    obtain ⟨hcheck, hrest⟩ := List.forall_mem_cons.mp h
    rw [firstFailure, hcheck, ih hrest]
    rfl

end UrlRouting

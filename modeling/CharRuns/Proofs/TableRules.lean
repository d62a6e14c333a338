import CharRuns.Table
import CharRuns.Proofs.Boundary
import CharRuns.Proofs.Canonical

/-!
# What a table says of a code point

In a table whose runs ascend the search on the ends of the runs finds the run that going through
them in order finds (`ruleAt_eq_scan`). A run may stand just behind another unless it has a defect
there (`precedes_iff`), so a table that passes `check` is canonical (`check_eq_ok_iff`) and its runs
follow from its rules.
-/

namespace CharRuns.Table

open Run

theorem partitioned_last {runs : List Run} (h : runs.Pairwise Before) (n : Nat) :
    Search.Partitioned (fun run => decide (run.last < n)) runs := by
  refine h.imp fun {a b} hab hb => ?_
  have := b.start_le_last
  simp only [decide_eq_true_eq] at hb ⊢
  unfold Before at hab
  omega

/-- Of ascending runs only the first that does not end before a code point can cover it. -/
theorem scan_eq_filter_find : ∀ {runs : List Run}, runs.Pairwise Before → ∀ n : Nat,
    scan runs n = ((runs.find? fun run => !decide (run.last < n)).filter (·.covers n)).map (·.rule)
  | [], _, _ => rfl
  | r :: runs, h, n => by
    obtain ⟨hr, hruns⟩ := List.pairwise_cons.1 h
    have hcov := r.covers_iff n
    have hlast := r.last_add_one
    rw [scan_cons]
    by_cases hlt : r.last < n
    · rw [if_neg (by rw [hcov]; omega), scan_eq_filter_find hruns n]
      simp [hlt]
    · by_cases hc : r.covers n = true
      · simp [hlt, Option.filter_some, hc]
      · rw [if_neg hc, scan_eq_none_of_before hr (by omega)]
        simp [hlt, Option.filter_some, hc]

theorem ruleAt_eq_scan {t : Table} (h : t.runs.toList.Pairwise Before) (n : Nat) :
    t.ruleAt n = scan t.runs.toList n := by
  rw [ruleAt, scan_eq_filter_find h n, Search.getElem?_boundary (partitioned_last h n)]

section Check

variable {a b : Run} {defect : Defect}

/-- What is wrong with a run `b` just behind a run `a`. -/
inductive Misfit (a b : Run) : Defect → Prop where
  | overlap (h : b.start ≤ a.last) : Misfit a b (.overlap a.last b.start)
  | unmerged (hstart : b.start = a.last + 1) (hrule : b.rule = a.rule)
      (hshort : a.length < maxLength) : Misfit a b (.unmerged b.start b.rule)

theorem precedes_iff : a.Precedes b ↔ ¬ ∃ defect, Misfit a b defect := by
  constructor
  · rintro ⟨hbefore, hfull⟩ ⟨_, hoverlap | ⟨hstart, hrule, hshort⟩⟩
    · exact hbefore.not_ge hoverlap
    · exact hshort.ne (hfull hstart hrule)
  · intro hnone
    refine ⟨not_le.1 fun hoverlap => hnone ⟨_, .overlap hoverlap⟩, fun hstart hrule => ?_⟩
    by_contra hne
    exact hnone ⟨_, .unmerged hstart hrule (a.length_le.lt_of_ne hne)⟩

theorem checkAfter_cons_of_precedes (h : a.Precedes b) (runs : List Run) :
    checkAfter a (b :: runs) = checkAfter b runs := by
  obtain ⟨hbefore, hfull⟩ := h
  rw [checkAfter, if_neg hbefore.not_ge, if_neg]
  rintro ⟨hstart, hrule, hshort⟩
  exact hshort.ne (hfull hstart hrule)

theorem checkAfter_cons_of_misfit (h : Misfit a b defect) (runs : List Run) :
    checkAfter a (b :: runs) = .error defect := by
  cases h with
  | overlap h => rw [checkAfter, if_pos h]
  | unmerged hstart hrule hshort =>
    rw [checkAfter, if_neg (by omega), if_pos ⟨hstart, hrule, hshort⟩]

theorem checkAfter_eq_ok_iff : ∀ {previous : Run} {runs : List Run},
    checkAfter previous runs = .ok () ↔ (previous :: runs).IsChain Precedes
  | previous, [] => by simp [checkAfter]
  | previous, run :: runs => by
    rw [List.isChain_cons_cons]
    by_cases hmisfit : ∃ defect, Misfit previous run defect
    · obtain ⟨defect, hdefect⟩ := hmisfit
      have hnot : ¬ previous.Precedes run := fun h => precedes_iff.1 h ⟨defect, hdefect⟩
      simp [checkAfter_cons_of_misfit hdefect, hnot]
    · have hprecedes := precedes_iff.2 hmisfit
      rw [checkAfter_cons_of_precedes hprecedes, checkAfter_eq_ok_iff, and_iff_right hprecedes]

theorem check_eq_ok_iff {t : Table} : t.check = .ok () ↔ t.runs.toList.IsChain Precedes := by
  unfold check
  split
  · rename_i h
    simp [h]
  · rename_i run runs h
    rw [h, checkAfter_eq_ok_iff]

end Check

end CharRuns.Table

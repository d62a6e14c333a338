import CharRuns.Proofs.TableRules

/-!
# Defects of a table

`check` compares neighbours, and the defect that it reports is that of the first two that have one
(`check_eq_error_iff`). Neighbours are enough to tell of any two runs in a table that the first ends
before the second starts, for this passes from each run to the next (`check_outcome`).
-/

namespace CharRuns.Table

open Run

/-- The defect of the first two neighbours that have one. -/
def FirstDefect (runs : List Run) (defect : Defect) : Prop :=
  ∃ i a b, runs[i]? = some a ∧ runs[i + 1]? = some b ∧ Misfit a b defect
    ∧ ∀ j < i, ∀ c d, runs[j]? = some c → runs[j + 1]? = some d → ¬ ∃ other, Misfit c d other

variable {a b : Run} {runs : List Run} {defect : Defect}

theorem not_firstDefect_nil : ¬ FirstDefect [] defect := by
  rintro ⟨i, a, b, ha, -⟩
  cases ha

theorem not_firstDefect_singleton : ¬ FirstDefect [a] defect := by
  rintro ⟨i, c, d, -, hd, -⟩
  cases hd

theorem firstDefect_cons_cons : FirstDefect (a :: b :: runs) defect
    ↔ Misfit a b defect ∨ a.Precedes b ∧ FirstDefect (b :: runs) defect := by
  constructor
  · rintro ⟨i, c, d, hc, hd, hmisfit, hfront⟩
    cases i with
    | zero =>
      cases hc
      cases hd
      exact .inl hmisfit
    | succ i =>
      have hprecedes := precedes_iff.2 (hfront 0 (by omega) a b rfl rfl)
      exact .inr ⟨hprecedes, i, c, d, hc, hd, hmisfit, fun j hj => hfront (j + 1) (by omega)⟩
  · rintro (hmisfit | ⟨hprecedes, i, c, d, hc, hd, hmisfit, hfront⟩)
    · exact ⟨0, a, b, rfl, rfl, hmisfit, by omega⟩
    · refine ⟨i + 1, c, d, hc, hd, hmisfit, fun j hj => ?_⟩
      -- Of the neighbours in front, `a` and `b` are the only ones that the shorter list lacks.
      cases j with
      | zero =>
        rintro _ _ ⟨⟩ ⟨⟩
        exact precedes_iff.1 hprecedes
      | succ j => exact hfront j (by omega)

theorem checkAfter_eq_error_iff : ∀ {previous : Run} {runs : List Run},
    checkAfter previous runs = .error defect ↔ FirstDefect (previous :: runs) defect
  | previous, [] => by simp [checkAfter, not_firstDefect_singleton]
  | previous, run :: runs => by
    rw [firstDefect_cons_cons]
    by_cases hmisfit : ∃ found, Misfit previous run found
    · obtain ⟨found, hfound⟩ := hmisfit
      have hcheck := checkAfter_cons_of_misfit hfound runs
      constructor
      · intro herror
        obtain rfl := Except.error.inj (hcheck.symm.trans herror)
        exact .inl hfound
      · rintro (h | ⟨hprecedes, -⟩)
        · exact checkAfter_cons_of_misfit h runs
        · exact absurd ⟨found, hfound⟩ (precedes_iff.1 hprecedes)
    · have hprecedes := precedes_iff.2 hmisfit
      rw [checkAfter_cons_of_precedes hprecedes, checkAfter_eq_error_iff,
        or_iff_right fun h => hmisfit ⟨defect, h⟩, and_iff_right hprecedes]

theorem check_eq_error_iff {t : Table} :
    t.check = .error defect ↔ FirstDefect t.runs.toList defect := by
  unfold check
  split
  · rename_i h
    simp [h, not_firstDefect_nil]
  · rename_i run runs h
    rw [h, checkAfter_eq_error_iff]

/-- A table passes the check exactly if of any two runs the first ends before the second starts, and
no run that is not full has one of its rule just behind it. If it does not pass, the defect is that
of the first neighbours that overlap, descend or should have been one run. -/
theorem check_outcome (t : Table) :
    (t.check = .ok ()
        ↔ (∀ (i j : Nat) (_ : i < j) (_ : j < t.runs.size), t.runs[i].last < t.runs[j].start)
          ∧ ∀ (i : Nat) (_ : i + 1 < t.runs.size), ¬ (t.runs[i].length < maxLength
            ∧ t.runs[i + 1].rule = t.runs[i].rule ∧ t.runs[i + 1].start = t.runs[i].last + 1))
      ∧ ∀ defect, t.check = .error defect ↔ FirstDefect t.runs.toList defect := by
  refine ⟨?_, fun defect => check_eq_error_iff⟩
  rw [check_eq_ok_iff]
  constructor
  · intro hchain
    refine ⟨fun i j hij hj => ?_, fun i hi ⟨hshort, hrule, hstart⟩ => ?_⟩
    · have hbefore := List.pairwise_iff_getElem.1 (pairwise_before_of_isChain hchain)
      exact hbefore i j (hij.trans hj) hj hij
    · have hprecedes := List.isChain_iff_getElem.1 hchain i hi
      exact hshort.ne (hprecedes.2 hstart hrule)
  · rintro ⟨hbefore, hfull⟩
    refine List.isChain_iff_getElem.2 fun i hi => ⟨hbefore i (i + 1) (by omega) hi, ?_⟩
    intro hstart hrule
    by_contra hne
    exact hfull i hi ⟨(Run.length_le _).lt_of_ne hne, hrule, hstart⟩

example : check ⟨#[⟨0x41, 10, .identifierStart, by decide, by decide, by decide, by decide⟩,
    ⟨0x4B, 16, .identifierStart, by decide, by decide, by decide, by decide⟩,
    ⟨0x20, 1, .whitespace, by decide, by decide, by decide, by decide⟩], 0⟩
      = .error (.unmerged 0x4B .identifierStart) := by
  rfl

end CharRuns.Table

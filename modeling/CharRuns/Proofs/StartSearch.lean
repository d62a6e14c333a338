import CharRuns.Proofs.TableRules

/-!
# Searching a table by start

The ends of ascending runs ascend as their starts do, so a table may be searched by either. By end
the first run is taken that does not end before a code point, by start the last one that starts no
later, and if any run covers the code point it is both: the two searches find the same rule, which
is also that of the only run to cover the code point (`ruleAt_eq_scan_and_ruleByStart`).
-/

namespace CharRuns.Table

open Run

/-- The rule of a code point, found by binary search on the starts of the runs. -/
def ruleByStart (t : Table) (n : Nat) : Option Rule :=
  let run := Search.beforeBoundary? (fun run => run.start ≤ n) t.runs
  (run.filter (·.covers n)).map (·.rule)

theorem partitioned_start {runs : List Run} (h : runs.Pairwise Before) (n : Nat) :
    Search.Partitioned (fun run => decide (run.start ≤ n)) runs := by
  refine h.imp fun {a b} hab hb => ?_
  have := a.start_le_last
  simp only [decide_eq_true_eq] at hb ⊢
  unfold Before at hab
  omega

/-- Of ascending runs only the last that starts no later than a code point can cover it. -/
theorem scan_eq_filter_getLast {runs : List Run} (h : runs.Pairwise Before) (n : Nat) :
    scan runs n = ((runs.filter (·.start ≤ n)).getLast?.filter (·.covers n)).map (·.rule) := by
  induction runs using List.reverseRecOn with
  | nil => rfl
  | append_singleton runs r ih =>
    obtain ⟨hruns, -, hbefore⟩ := List.pairwise_append.1 h
    rw [scan_append, List.filter_append]
    by_cases hstart : r.start ≤ n
    · have hnone : scan runs n = none :=
        scan_eq_none_of_last_lt (fun s hs => hbefore s hs r (List.mem_singleton_self r)) hstart
      rw [hnone, Option.none_or, scan_cons]
      by_cases hc : r.covers n = true <;> simp [hstart, Option.filter_some, hc]
    · have hc : ¬ r.covers n = true := by
        rw [covers_iff]
        omega
      rw [scan_cons, if_neg hc, scan_nil, Option.or_none, ih hruns]
      simp [hstart]

/-- In a table whose runs ascend and do not overlap, merged or not, the search on ends gives the
rule of the first run that covers a code point, and no other run covers it. The search on starts
gives the same, which takes the last run that starts no later than the code point. -/
theorem ruleAt_eq_scan_and_ruleByStart {t : Table} (h : t.runs.toList.Pairwise Before) (n : Nat) :
    t.ruleAt n = scan t.runs.toList n
      ∧ (t.runs.toList.filter (·.covers n)).map (·.rule) = (t.ruleAt n).toList
      ∧ t.ruleAt n = t.ruleByStart n
      ∧ t.ruleByStart n = ((t.runs.toList.filter (·.start ≤ n)).getLast?.filter
        (·.covers n)).map (·.rule) := by
  have hend := ruleAt_eq_scan h n
  have hstart : t.ruleByStart n = ((t.runs.toList.filter (·.start ≤ n)).getLast?.filter
      (·.covers n)).map (·.rule) := by
    rw [ruleByStart, Search.beforeBoundary?_eq (partitioned_start h n)]
  refine ⟨hend, ?_, ?_, hstart⟩
  · rw [hend, map_rule_filter_covers h]
  · rw [hend, hstart, scan_eq_filter_getLast h]

/-- Where a run of one rule starts just behind another that is not full. -/
theorem ruleAt_eq_scan_and_ruleByStart_unmerged :
    let capitals : Run := ⟨0x41, 10, .identifierStart, by decide, by decide, by decide, by decide⟩
    let others : Run := ⟨0x4B, 16, .identifierStart, by decide, by decide, by decide, by decide⟩
    let marks : Run := ⟨0x300, 112, .identifierPart, by decide, by decide, by decide, by decide⟩
    let t : Table := ⟨#[capitals, others, marks], 112⟩
    t.runs.toList.Pairwise Before
      ∧ t.ruleAt 0x4B = scan t.runs.toList 0x4B
      ∧ (t.runs.toList.filter (·.covers 0x4B)).map (·.rule) = (t.ruleAt 0x4B).toList
      ∧ t.ruleAt 0x4B = t.ruleByStart 0x4B
      ∧ t.ruleByStart 0x4B = ((t.runs.toList.filter (·.start ≤ 0x4B)).getLast?.filter
        (·.covers 0x4B)).map (·.rule) := by
  intro capitals others marks t
  have hascend : t.runs.toList.Pairwise Before := by decide
  exact ⟨hascend, ruleAt_eq_scan_and_ruleByStart hascend 0x4B⟩

end CharRuns.Table

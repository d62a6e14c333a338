import CharRuns.Proofs.Encoding

/-!
# Encoding and expanding

What a table says of the pairs that were encoded is what they said (`ruleAt_encode`). Encoding what
a checked table says of the code space gives its runs back, and no two checked tables say the same
with different runs (`encode_expansion`): a checked table is canonical.
-/

namespace CharRuns

open Run

namespace Table

/-- Every code point of the code space with the rule that a table gives it. -/
def expansion (t : Table) : List (Nat × Option Rule) :=
  (List.range (CodePoint.max + 1)).map fun n => (n, t.ruleAt n)

theorem ruleAt_of_isChain {runs : List Run} (h : runs.IsChain Precedes) (longest n : Nat) :
    ruleAt ⟨runs.toArray, longest⟩ n = scan runs n :=
  ruleAt_eq_scan (t := ⟨runs.toArray, longest⟩) (pairwise_before_of_isChain h) n

theorem ruleAt_eq_scan_of_check {t : Table} (h : t.check = .ok ()) (n : Nat) :
    t.ruleAt n = scan t.runs.toList n :=
  ruleAt_eq_scan (pairwise_before_of_isChain (check_eq_ok_iff.1 h)) n

theorem ruleAt_eq_none_of_max_lt (t : Table) {n : Nat} (hn : CodePoint.max < n) :
    t.ruleAt n = none := by
  have hcovers (r : Run) : ¬ r.covers n = true := by
    have := r.last_le
    rw [covers_iff]
    omega
  simp only [ruleAt, Option.map_eq_none_iff, Option.filter_eq_none_iff]
  exact fun r _ => hcovers r

theorem runs_eq_of_ruleAt_eq {t u : Table} (ht : t.check = .ok ()) (hu : u.check = .ok ())
    (h : ∀ n ≤ CodePoint.max, t.ruleAt n = u.ruleAt n) : t.runs = u.runs := by
  have hcanonical := check_eq_ok_iff.1 ht
  refine Array.toList_inj.1 (eq_of_scan_eq hcanonical (check_eq_ok_iff.1 hu) fun n => ?_)
  rw [← ruleAt_eq_scan_of_check ht, ← ruleAt_eq_scan_of_check hu]
  by_cases hn : n ≤ CodePoint.max
  · exact h n hn
  · rw [ruleAt_eq_none_of_max_lt t (by omega), ruleAt_eq_none_of_max_lt u (by omega)]

end Table

/-- Ascending pairs are encoded, and the table gives each code point the rule it is paired with,
and no rule to the code points that are paired with none or passed over. -/
theorem ruleAt_encode {pairs : List (Nat × Option Rule)}
    (hascend : pairs.Pairwise fun p q => p.1 < q.1) (hmax : ∀ p ∈ pairs, p.1 ≤ CodePoint.max) :
    ∃ t, encode pairs = .ok t ∧ ∀ n, t.ruleAt n = (pairs.lookup n).join := by
  obtain ⟨runs, hencode, hcanonical, hscan⟩ := encode_eq_ok hascend hmax
  refine ⟨_, hencode, fun n => ?_⟩
  rw [Table.ruleAt_of_isChain hcanonical, hscan]

theorem ruleAt_encode_passing_over :
    ∃ t, encode [(0x41, some .identifierStart), (0x42, some .identifierStart), (0x43, none),
        (0x44, some .identifierStart), (CodePoint.max, some .identifierPart)] = .ok t
      ∧ ∀ n, t.ruleAt n = (List.lookup n [(0x41, some .identifierStart),
          (0x42, some .identifierStart), (0x43, none), (0x44, some .identifierStart),
          (CodePoint.max, some .identifierPart)]).join :=
  ruleAt_encode (by decide) (by decide)

/-- Encoding the expansion of a checked table gives its runs back, with the true longest length. So
checked tables that agree on the code space have the same runs. -/
theorem encode_expansion :
    (∀ t : Table, t.check = .ok () →
        encode t.expansion = .ok ⟨t.runs, longestOf t.runs.toList⟩)
      ∧ ∀ t u : Table, t.check = .ok () → u.check = .ok () →
        (∀ n ≤ CodePoint.max, t.ruleAt n = u.ruleAt n) → t.runs = u.runs := by
  refine ⟨fun t ht => ?_, fun t u => Table.runs_eq_of_ruleAt_eq⟩
  obtain ⟨runs, hencode, hcanonical, hscan⟩ := encode_codeSpace t.ruleAt
  have hruns : t.runs.toList = runs := by
    refine eq_of_scan_eq (Table.check_eq_ok_iff.1 ht) hcanonical fun n => ?_
    rw [hscan, ← Table.ruleAt_eq_scan_of_check ht]
    split_ifs with hn
    · rfl
    · exact t.ruleAt_eq_none_of_max_lt (by omega)
  rw [Table.expansion, hencode, ← hruns]

/-- A full run, its continuation, and a run at the end of the code space. -/
theorem encode_expansion_full_run :
    let full : Run := ⟨0x3400, 511, .identifierStart, by decide, by decide, by decide, by decide⟩
    let more : Run := ⟨0x35FF, 2, .identifierStart, by decide, by decide, by decide, by decide⟩
    let final : Run := ⟨0x10FFFE, 2, .whitespace, by decide, by decide, by decide, by decide⟩
    encode (Table.expansion ⟨#[full, more, final], 0⟩) = .ok ⟨#[full, more, final], 511⟩
      ∧ (⟨#[full, more, final], 0⟩ : Table).runs = (⟨#[full, more, final], 511⟩ : Table).runs :=
  ⟨encode_expansion.1 ⟨_, 0⟩ rfl, encode_expansion.2 ⟨_, 0⟩ ⟨_, 511⟩ rfl rfl fun _ _ => rfl⟩

end CharRuns

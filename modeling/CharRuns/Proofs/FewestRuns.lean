import CharRuns.Proofs.Expansion
import Mathlib.Combinatorics.Enumerative.DoubleCounting

/-!
# The fewest runs

From where one run of a canonical list starts to where a later one does, either the rule changes or
the code points are more than a run can take (`pairwise_apart`), so no run that keeps to the rules
covers both starts. Any runs that give the code points the same rules, in whatever order and however
they overlap, are therefore at least as many (`length_le_of_covers_iff`), and no list of runs says
with fewer what the encoder's table says (`size_encode_le`).
-/

namespace CharRuns

namespace Run

variable {runs others : List Run}

/-- Where one rule holds from the start of a run to the start of a later one, the first is full. -/
theorem pairwise_apart : ∀ {runs : List Run}, runs.IsChain Precedes →
    runs.Pairwise fun a b => ∀ rule,
      (∀ n, a.start ≤ n → n ≤ b.start → scan runs n = some rule) → a.start + maxLength ≤ b.start
  | [], _ => .nil
  | [_], _ => List.pairwise_singleton _ _
  | a :: c :: runs, h => by
    obtain ⟨⟨hac, hfull⟩, hchain⟩ := List.isChain_cons_cons.1 h
    unfold Before at hac
    have ha := a.start_le_last
    have hlast := a.last_add_one
    refine List.pairwise_cons.2 ⟨fun b hb rule hall => ?_, ?_⟩
    · have hcb : c.start ≤ b.start := start_le_of_isChain_cons hchain b hb
      -- There is no gap behind `a`, since nothing would give the code point there a rule.
      have hnext : c.start = a.last + 1 := by
        by_contra hne
        have := hall (a.last + 1) (by omega) (by omega)
        rw [scan_cons_of_last_lt (by omega), scan_eq_none_of_lt_start hchain (by omega)] at this
        cases this
      have harule := hall a.start le_rfl (by omega)
      have hcrule := hall c.start (by omega) hcb
      rw [scan_cons_start] at harule
      rw [scan_cons_of_last_lt hac, scan_cons_start] at hcrule
      have := hfull hnext (Option.some_inj.1 (hcrule.trans harule.symm))
      omega
    · refine (pairwise_apart hchain).imp_of_mem fun {b d} hb _ hapart rule hall => ?_
      refine hapart rule fun n hbn hnd => ?_
      have hab : a.last < b.start := before_of_isChain_cons h b hb
      rw [← hall n hbn hnd, scan_cons_of_last_lt (hab.trans_le hbn)]

/-- A run that keeps to the rules of a canonical list covers the start of at most one of its
runs. -/
theorem eq_of_covers_starts (h : runs.IsChain Precedes) {r a b : Run}
    (hr : ∀ n, r.covers n = true → scan runs n = some r.rule) (ha : a ∈ runs) (hb : b ∈ runs)
    (hra : r.covers a.start = true) (hrb : r.covers b.start = true) : a = b := by
  have hsymm : Std.Symm fun a b : Run => ¬ (r.covers a.start = true ∧ r.covers b.start = true) :=
    ⟨fun _ _ hab hba => hab hba.symm⟩
  have hpairwise : runs.Pairwise fun a b =>
      ¬ (r.covers a.start = true ∧ r.covers b.start = true) := by
    refine (pairwise_apart h).imp fun {a b} hapart hboth => ?_
    have hlength := r.length_le
    simp only [covers_iff] at hr hboth
    have := hapart r.rule fun n hn hm => hr n ⟨by omega, by omega⟩
    omega
  by_contra hne
  exact hpairwise.forall ha hb hne ⟨hra, hrb⟩

theorem nodup_of_isChain (h : runs.IsChain Precedes) : runs.Nodup := by
  refine (pairwise_before_of_isChain h).imp fun {a b} hab heq => ?_
  have := a.start_le_last
  subst heq
  unfold Before at hab
  omega

/-- Runs with the rules of a canonical list are at least as many: each run of that list needs one
of its own for its start. -/
theorem length_le_of_covers_iff (h : runs.IsChain Precedes)
    (hothers : ∀ n ≤ CodePoint.max, ∀ rule,
      (∃ r ∈ others, r.rule = rule ∧ r.covers n = true) ↔ scan runs n = some rule) :
    runs.length ≤ others.length := by
  have hkeeps : ∀ r ∈ others, ∀ n, r.covers n = true → scan runs n = some r.rule := by
    intro r hr n hn
    have hmax : n ≤ CodePoint.max := by
      have := r.last_le
      rw [covers_iff] at hn
      omega
    exact (hothers n hmax r.rule).1 ⟨r, hr, rfl, hn⟩
  have hstart : ∀ a ∈ runs.toFinset, ∃ r ∈ others.toFinset, r.covers a.start = true := by
    intro a ha
    have hfound : (runs.find? (·.covers a.start)).isSome = true :=
      List.find?_isSome.2 ⟨a, List.mem_toFinset.1 ha, a.covers_start⟩
    obtain ⟨b, hb⟩ := Option.isSome_iff_exists.1 hfound
    have hscan : scan runs a.start = some b.rule := by rw [scan, hb, Option.map_some]
    obtain ⟨r, hr, -, hcovers⟩ := (hothers a.start a.start_le b.rule).2 hscan
    exact ⟨r, List.mem_toFinset.2 hr, hcovers⟩
  have honce : ∀ r ∈ others.toFinset,
      {a | a ∈ runs.toFinset ∧ r.covers a.start = true}.Subsingleton := by
    rintro r hr a ⟨ha, hra⟩ b ⟨hb, hrb⟩
    exact eq_of_covers_starts h (hkeeps r (List.mem_toFinset.1 hr)) (List.mem_toFinset.1 ha)
      (List.mem_toFinset.1 hb) hra hrb
  calc runs.length = runs.toFinset.card :=
        (List.toFinset_card_of_nodup (nodup_of_isChain h)).symm
    _ ≤ others.toFinset.card :=
        Finset.card_le_card_of_forall_subsingleton (fun a r => r.covers a.start = true) hstart honce
    _ ≤ others.length := others.toFinset_card_le

end Run

/-- The table of ascending pairs has the fewest runs: a list of runs that gives every code point the
rule the table gives it is no shorter. -/
theorem size_encode_le {pairs : List (Nat × Option Rule)}
    (hascend : pairs.Pairwise fun p q => p.1 < q.1) (hmax : ∀ p ∈ pairs, p.1 ≤ CodePoint.max) :
    ∃ t, encode pairs = .ok t ∧ ∀ others : List Run,
      (∀ n ≤ CodePoint.max, ∀ rule,
        (∃ r ∈ others, r.rule = rule ∧ r.covers n = true) ↔ t.ruleAt n = some rule) →
      t.size ≤ others.length := by
  obtain ⟨runs, hencode, hcanonical, -⟩ := encode_eq_ok hascend hmax
  refine ⟨_, hencode, fun others hothers => ?_⟩
  simp only [Table.ruleAt_of_isChain hcanonical] at hothers
  exact Run.length_le_of_covers_iff hcanonical hothers

/-- Two runs that overlap and stand in the wrong order, for a stretch that no single run can
take. -/
theorem size_encode_le_overlapping :
    let pairs := (List.range' 0x4E00 600).map fun n => (n, some Rule.identifierStart)
    let back : Run := ⟨0x4E64, 500, .identifierStart, by decide, by decide, by decide, by decide⟩
    let front : Run := ⟨0x4E00, 511, .identifierStart, by decide, by decide, by decide, by decide⟩
    ∃ t, encode pairs = .ok t
      ∧ (∀ n ≤ CodePoint.max, ∀ rule,
        (∃ r ∈ [back, front], r.rule = rule ∧ r.covers n = true) ↔ t.ruleAt n = some rule)
      ∧ t.size ≤ [back, front].length := by
  intro pairs back front
  have hascend : pairs.Pairwise fun p q => p.1 < q.1 :=
    List.pairwise_map.2 (List.pairwise_lt_range' ..)
  have hmax : ∀ p ∈ pairs, p.1 ≤ CodePoint.max := by
    intro p hp
    obtain ⟨n, hn, rfl⟩ := List.mem_map.1 hp
    rw [List.mem_range'_1] at hn
    exact hn.2.le.trans (by decide)
  obtain ⟨t, ht, hleast⟩ := size_encode_le hascend hmax
  obtain ⟨runs, hruns, hcanonical, hscan⟩ := encode_eq_ok hascend hmax
  obtain rfl := Except.ok.inj (hruns.symm.trans ht)
  have hsame : ∀ n ≤ CodePoint.max, ∀ rule, (∃ r ∈ [back, front], r.rule = rule
      ∧ r.covers n = true) ↔ Table.ruleAt ⟨runs.toArray, Run.longestOf runs⟩ n = some rule := by
    intro n _ rule
    rw [Table.ruleAt_of_isChain hcanonical, hscan, lookup_map_pair]
    simp only [List.mem_cons, List.not_mem_nil, or_false, exists_eq_or_imp, exists_eq_left,
      Run.covers_iff, back, front, List.mem_range'_1, ← and_or_left]
    split_ifs with hn
    · rw [Option.join_some, Option.some_inj]
      exact and_iff_left (by omega)
    · simp only [Option.join_none, reduceCtorEq, iff_false]
      omega
  exact ⟨_, ht, hsame, hleast _ hsame⟩

end CharRuns

import CharRuns.Run
import Mathlib.Data.List.Chain

/-!
# Canonical lists of runs

A list of runs gives each code point the rule of the first run that covers it (`scan`). In a list
whose neighbours satisfy `Precedes` the runs ascend and no two neighbours could have been one run
more, and such a list is determined by the rules it gives (`eq_of_scan_eq`): the first code point
with a rule starts the first run, and the first one where the rule changes, or the cap, ends it.
-/

namespace CharRuns.Run

/-- `a` ends before `b` starts. -/
def Before (a b : Run) : Prop :=
  a.last < b.start

instance (a b : Run) : Decidable (a.Before b) :=
  inferInstanceAs (Decidable (a.last < b.start))

/-- `b` may stand behind `a`: it starts after `a` ends, and it continues `a` only if `a` is full. -/
def Precedes (a b : Run) : Prop :=
  a.Before b ∧ (b.start = a.last + 1 → b.rule = a.rule → a.length = maxLength)

/-- The rule of a code point, found by going through the runs in order. -/
def scan (runs : List Run) (n : Nat) : Option Rule :=
  (runs.find? (·.covers n)).map (·.rule)

/-- The length of the longest run, zero if there is none. -/
def longestOf (runs : List Run) : Nat :=
  runs.foldl (fun longest run => max longest run.length) 0

theorem ext_of_fields : ∀ {a b : Run}, a.start = b.start → a.length = b.length →
    a.rule = b.rule → a = b
  | ⟨_, _, _, _, _, _, _⟩, ⟨_, _, _, _, _, _, _⟩, rfl, rfl, rfl => rfl

theorem start_le_last (r : Run) : r.start ≤ r.last := by
  have := r.last_add_one
  have := r.length_pos
  omega

theorem covers_start (r : Run) : r.covers r.start = true := by
  have := r.length_pos
  rw [covers_iff]
  omega

theorem covers_last (r : Run) : r.covers r.last = true := by
  have := r.last_add_one
  have := r.start_le_last
  rw [covers_iff]
  omega

/-- The run of the single code point `n`. -/
def single (n : Nat) (rule : Rule) (hn : n ≤ CodePoint.max) : Run where
  start := n
  length := 1
  rule := rule
  start_le := hn
  length_pos := Nat.one_pos
  length_le := by decide
  last_le := by simpa using hn

@[simp] theorem single_last (n : Nat) (rule : Rule) (hn : n ≤ CodePoint.max) :
    (single n rule hn).last = n := by
  simp [last, single]

theorem covers_single_iff {n : Nat} {rule : Rule} {hn : n ≤ CodePoint.max} {m : Nat} :
    (single n rule hn).covers m = true ↔ m = n := by
  rw [covers_iff]
  simp only [single]
  omega

/-- A run that is not full, with the code point behind it. -/
def grown (r : Run) (hlength : r.length < maxLength) (hlast : r.last + 1 ≤ CodePoint.max) :
    Run where
  start := r.start
  length := r.length + 1
  rule := r.rule
  start_le := r.start_le
  length_pos := Nat.succ_pos _
  length_le := hlength
  last_le := by rw [r.last_add_one] at hlast; simpa using hlast

@[simp] theorem grown_last (r : Run) (hlength : r.length < maxLength)
    (hlast : r.last + 1 ≤ CodePoint.max) : (r.grown hlength hlast).last = r.last + 1 := by
  rw [r.last_add_one]
  simp [last, grown]

theorem covers_grown_iff {r : Run} {hlength : r.length < maxLength}
    {hlast : r.last + 1 ≤ CodePoint.max} {m : Nat} :
    (r.grown hlength hlast).covers m = true ↔ r.covers m = true ∨ m = r.last + 1 := by
  have := r.last_add_one
  have := r.length_pos
  rw [covers_iff, covers_iff]
  simp only [grown]
  omega

instance : Trans Before Before Before where
  trans {a b c} hab hbc := by
    have := b.start_le_last
    unfold Before at *
    omega

theorem pairwise_before_of_isChain {runs : List Run} (h : runs.IsChain Precedes) :
    runs.Pairwise Before :=
  List.isChain_iff_pairwise.1 (h.imp fun _ _ hab => hab.1)

theorem before_of_isChain_cons {a : Run} {as : List Run} (h : (a :: as).IsChain Precedes) :
    ∀ r ∈ as, a.Before r :=
  fun _ hr => List.rel_of_pairwise_cons (pairwise_before_of_isChain h) hr

theorem start_le_of_isChain_cons {a : Run} {as : List Run} (h : (a :: as).IsChain Precedes) :
    ∀ r ∈ a :: as, a.start ≤ r.start := by
  intro r hr
  rcases List.mem_cons.1 hr with rfl | hr
  · exact le_rfl
  · have hbefore : a.last < r.start := before_of_isChain_cons h r hr
    exact a.start_le_last.trans hbefore.le

section Scan

@[simp] theorem scan_nil (n : Nat) : scan [] n = none := rfl

theorem scan_cons (r : Run) (runs : List Run) (n : Nat) :
    scan (r :: runs) n = if r.covers n = true then some r.rule else scan runs n := by
  by_cases h : r.covers n = true <;> simp [scan, h]

@[simp] theorem scan_cons_start (r : Run) (runs : List Run) :
    scan (r :: runs) r.start = some r.rule := by
  rw [scan_cons, if_pos r.covers_start]

theorem scan_cons_of_last_lt {r : Run} {n : Nat} (h : r.last < n) (runs : List Run) :
    scan (r :: runs) n = scan runs n := by
  have hc : ¬ r.covers n = true := by
    rw [covers_iff, ← r.last_add_one]
    omega
  rw [scan_cons, if_neg hc]

theorem scan_append (runs more : List Run) (n : Nat) :
    scan (runs ++ more) n = (scan runs n).or (scan more n) := by
  simp only [scan, List.find?_append]
  cases runs.find? (·.covers n) <;> rfl

theorem scan_eq_none {runs : List Run} {n : Nat} (h : ∀ r ∈ runs, r.covers n ≠ true) :
    scan runs n = none := by
  rw [scan, List.find?_eq_none.2 h, Option.map_none]

/-- Behind a run, an ascending list gives no rule to what the run covers or what comes before. -/
theorem scan_eq_none_of_before {r : Run} {runs : List Run} (h : ∀ s ∈ runs, r.Before s) {n : Nat}
    (hn : n ≤ r.last) : scan runs n = none := by
  refine scan_eq_none fun s hs hc => ?_
  have hbefore : r.last < s.start := h s hs
  rw [covers_iff] at hc
  omega

/-- A canonical list gives no rule before its first run. -/
theorem scan_eq_none_of_lt_start {r : Run} {runs : List Run} (h : (r :: runs).IsChain Precedes)
    {n : Nat} (hn : n < r.start) : scan (r :: runs) n = none := by
  refine scan_eq_none fun s hs hc => ?_
  have := start_le_of_isChain_cons h s hs
  rw [covers_iff] at hc
  omega

theorem scan_eq_none_of_last_lt {runs : List Run} {n : Nat} (h : ∀ r ∈ runs, r.last < n) {m : Nat}
    (hm : n ≤ m) : scan runs m = none := by
  refine scan_eq_none fun r hr hc => ?_
  have := h r hr
  have := r.last_add_one
  rw [covers_iff] at hc
  omega

/-- In an ascending list the runs that cover a code point are one or none. -/
theorem map_rule_filter_covers : ∀ {runs : List Run}, runs.Pairwise Before → ∀ n : Nat,
    (runs.filter (·.covers n)).map (·.rule) = (scan runs n).toList
  | [], _, _ => rfl
  | r :: runs, h, n => by
    obtain ⟨hr, hruns⟩ := List.pairwise_cons.1 h
    have ih := map_rule_filter_covers hruns n
    rw [scan_cons]
    by_cases hc : r.covers n = true
    · have hn : n ≤ r.last := by
        rw [covers_iff] at hc
        have := r.last_add_one
        omega
      rw [scan_eq_none_of_before hr hn] at ih
      simp [hc, List.map_eq_nil_iff.1 ih]
    · simpa [hc] using ih

theorem scan_of_mem {runs : List Run} (h : runs.Pairwise Before) {r : Run}
    (hr : r ∈ runs) {n : Nat} (hc : r.covers n = true) : scan runs n = some r.rule := by
  have hmem : r.rule ∈ (scan runs n).toList := by
    rw [← map_rule_filter_covers h]
    exact List.mem_map_of_mem (List.mem_filter.2 ⟨hr, hc⟩)
  exact Option.mem_toList.1 hmem

end Scan

section Unique

variable {a b : Run} {as bs : List Run}

theorem start_le_start_of_scan_eq (hb : (b :: bs).IsChain Precedes)
    (h : ∀ n, scan (a :: as) n = scan (b :: bs) n) : b.start ≤ a.start := by
  by_contra hlt
  have := h a.start
  rw [scan_cons_start, scan_eq_none_of_lt_start hb (not_le.1 hlt)] at this
  cases this

/-- Where a run ends that is not full, the list does not go on with the same rule. -/
theorem length_le_length_of_scan_eq (ha : (a :: as).IsChain Precedes)
    (h : ∀ n, scan (a :: as) n = scan (b :: bs) n) (hstart : a.start = b.start)
    (hrule : a.rule = b.rule) : b.length ≤ a.length := by
  by_contra hlt
  have hla := a.last_add_one
  have hgo : scan as (a.last + 1) = some a.rule := by
    have hcb : b.covers (a.last + 1) = true := by rw [covers_iff]; omega
    have := h (a.last + 1)
    rw [scan_cons_of_last_lt (Nat.lt_succ_self _), scan_cons, if_pos hcb] at this
    rw [this, hrule]
  rcases as with _ | ⟨c, cs⟩
  · cases hgo
  obtain ⟨⟨hbefore, hfull⟩, hcs⟩ := List.isChain_cons_cons.1 ha
  unfold Before at hbefore
  have hc : c.covers (a.last + 1) = true := by
    by_contra hc
    have hle : a.last + 1 ≤ c.last := by
      have := c.start_le_last
      omega
    rw [scan_cons, if_neg hc, scan_eq_none_of_before (before_of_isChain_cons hcs) hle] at hgo
    cases hgo
  rw [scan_cons, if_pos hc] at hgo
  rw [covers_iff] at hc
  have := hfull (by omega) (Option.some_inj.1 hgo)
  have := b.length_le
  omega

theorem head_eq_of_scan_eq (ha : (a :: as).IsChain Precedes) (hb : (b :: bs).IsChain Precedes)
    (h : ∀ n, scan (a :: as) n = scan (b :: bs) n) : a = b := by
  have hstart : a.start = b.start :=
    le_antisymm (start_le_start_of_scan_eq ha fun n => (h n).symm) (start_le_start_of_scan_eq hb h)
  have hrule : a.rule = b.rule := by
    have := h a.start
    rw [scan_cons_start, hstart, scan_cons_start] at this
    exact Option.some_inj.1 this
  refine ext_of_fields hstart (le_antisymm ?_ ?_) hrule
  · exact length_le_length_of_scan_eq hb (fun n => (h n).symm) hstart.symm hrule.symm
  · exact length_le_length_of_scan_eq ha h hstart hrule

/-- A canonical list of runs is determined by the rules it gives. -/
theorem eq_of_scan_eq : ∀ {as bs : List Run}, as.IsChain Precedes → bs.IsChain Precedes →
    (∀ n, scan as n = scan bs n) → as = bs
  | [], [], _, _, _ => rfl
  | [], b :: bs, _, _, h => by
    have := h b.start
    rw [scan_cons_start] at this
    cases this
  | a :: as, [], _, _, h => by
    have := h a.start
    rw [scan_cons_start] at this
    cases this
  | a :: as, b :: bs, ha, hb, h => by
    obtain rfl := head_eq_of_scan_eq ha hb h
    have htail : ∀ n, scan as n = scan bs n := by
      intro n
      by_cases hn : n ≤ a.last
      · rw [scan_eq_none_of_before (before_of_isChain_cons ha) hn,
          scan_eq_none_of_before (before_of_isChain_cons hb) hn]
      · have := h n
        rwa [scan_cons_of_last_lt (not_le.1 hn), scan_cons_of_last_lt (not_le.1 hn)] at this
    rw [eq_of_scan_eq ha.of_cons hb.of_cons htail]

end Unique

end CharRuns.Run

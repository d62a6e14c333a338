import CharRuns.Proofs.EncodeOutcome

/-!
# Encoding in pieces

The runs of pairs in order are the canonical list that gives each code point the rule it is paired
with (`exists_encode_scan`), so they depend on the pairs with a rule alone
(`encode_eq_of_mem_iff`). Of two canonical lists, one behind the other, the neighbours where they
meet decide whether both together are canonical (`isChain_append_iff`): that is when encoding two
pieces and putting their runs together is encoding the whole (`runs_encode_append_iff`).
-/

namespace CharRuns

namespace Run

variable {runs more : List Run} {n : Nat} {rule : Rule}

theorem scan_append_eq_some_iff (h : ∀ r ∈ runs, ∀ s ∈ more, r.Before s) :
    scan (runs ++ more) n = some rule ↔ scan runs n = some rule ∨ scan more n = some rule := by
  rw [scan_append, Option.or_eq_some_iff]
  refine or_congr_right ⟨fun hmore => hmore.2, fun hmore => ⟨?_, hmore⟩⟩
  obtain ⟨s, hs, -⟩ := Option.map_eq_some_iff.1 hmore
  have hcovers : s.covers n = true := by simpa using List.find?_some hs
  exact scan_eq_none_of_last_lt (fun r hr => h r hr s (List.mem_of_find?_eq_some hs))
    ((s.covers_iff n).1 hcovers).1

/-- Only the last run of a canonical list can cover the code point where the list has ended. -/
theorem scan_eq_some_iff_of_last_le (h : runs.IsChain Precedes) (hlast : ∀ r ∈ runs, r.last ≤ n) :
    scan runs n = some rule ↔ ∃ r, runs.getLast? = some r ∧ r.last = n ∧ r.rule = rule := by
  rcases runs.eq_nil_or_concat' with rfl | ⟨init, r, rfl⟩
  · simp
  · have hr : r.last ≤ n := hlast r (by simp)
    have hinit : scan init n = none := by
      refine scan_eq_none_of_last_lt (n := n) (fun s hs => ?_) le_rfl
      have hbefore : s.last < r.start :=
        (List.pairwise_append.1 (pairwise_before_of_isChain h)).2.2 s hs r (by simp)
      exact hbefore.trans_le (r.start_le_last.trans hr)
    have hcovers : r.covers n = true ↔ r.last = n := by
      have := r.last_add_one
      have := r.start_le_last
      rw [covers_iff]
      omega
    rw [scan_append, hinit, Option.none_or, scan_cons]
    simp [hcovers]

/-- Only the first run of a canonical list can cover the code point where the list begins. -/
theorem scan_eq_some_iff_of_le_start (h : runs.IsChain Precedes)
    (hfirst : ∀ r ∈ runs, n ≤ r.start) :
    scan runs n = some rule ↔ ∃ r, runs.head? = some r ∧ r.start = n ∧ r.rule = rule := by
  rcases runs with _ | ⟨r, runs⟩
  · simp
  · rcases (hfirst r List.mem_cons_self).eq_or_lt with rfl | hlt
    · simp
    · rw [scan_eq_none_of_lt_start h hlt]
      simp [hlt.ne']

/-- A canonical list behind another makes a canonical list with it, unless its first run continues
the last run of the other and that is not full. -/
theorem isChain_append_iff {a b : Nat} (hruns : runs.IsChain Precedes)
    (hmore : more.IsChain Precedes) (hlast : ∀ r ∈ runs, r.last ≤ a)
    (hfirst : ∀ s ∈ more, b ≤ s.start) (hab : a < b) :
    (runs ++ more).IsChain Precedes ↔ ¬ (b = a + 1 ∧ ∃ rule, scan runs a = some rule
      ∧ scan more b = some rule ∧ ∃ r, runs.getLast? = some r ∧ r.length < maxLength) := by
  simp only [scan_eq_some_iff_of_last_le hruns hlast, scan_eq_some_iff_of_le_start hmore hfirst]
  rw [List.isChain_append]
  constructor
  · rintro ⟨-, -, hstep⟩ ⟨rfl, -, ⟨r, hr, rfl, rfl⟩, ⟨s, hs, hstart, hrule⟩, r', hr', hshort⟩
    obtain rfl := Option.some_inj.1 (hr.symm.trans hr')
    have := (hstep r hr s hs).2 hstart hrule
    omega
  · refine fun hnot => ⟨hruns, hmore, fun r hr s hs => ?_⟩
    have hra := hlast r (List.mem_of_mem_getLast? hr)
    have hbs := hfirst s (List.mem_of_mem_head? hs)
    refine ⟨hra.trans_lt (hab.trans_le hbs), fun hnext hrule => ?_⟩
    -- If they are next to each other, `r` ends at `a` and `s` starts at `b`.
    by_contra hne
    have := r.length_le
    exact hnot ⟨by omega, r.rule, ⟨r, hr, by omega, rfl⟩, ⟨s, hs, by omega, hrule⟩, r, hr,
      by omega⟩

theorem longestOf_append (runs more : List Run) :
    longestOf (runs ++ more) = max (longestOf runs) (longestOf more) := by
  induction more using List.reverseRecOn with
  | nil => simp [longestOf]
  | append_singleton init r ih =>
    rw [← List.append_assoc, Encoder.longestOf_append_singleton, ih,
      Encoder.longestOf_append_singleton, max_assoc]

end Run

open Run

variable {pairs xs ys : List (Nat × Option Rule)} {n a b : Nat} {rule : Rule} {ra rb : Option Rule}

theorem InOrder.of_append (h : InOrder (xs ++ ys)) : InOrder xs ∧ InOrder ys :=
  have hascend := List.isChain_append.1 h.ascend
  ⟨⟨hascend.1, fun p hp => h.le_max p (List.mem_append_left _ hp)⟩,
    ⟨hascend.2.1, fun p hp => h.le_max p (List.mem_append_right _ hp)⟩⟩

theorem InOrder.le_last (h : InOrder xs) (hlast : xs.getLast? = some (a, ra)) :
    ∀ p ∈ xs, p.1 ≤ a := by
  have hbehind : ∀ p ∈ xs, p.1 < a + 1 := by
    rw [h.forall_lt_iff, hlast]
    rintro m hm
    obtain rfl : a = m := by simpa using hm
    exact Nat.lt_succ_self a
  exact fun p hp => Nat.le_of_lt_succ (hbehind p hp)

theorem InOrder.first_le (h : InOrder ys) (hfirst : ys.head? = some (b, rb)) :
    ∀ p ∈ ys, b ≤ p.1 := by
  obtain ⟨rest, rfl⟩ := List.head?_eq_some_iff.1 hfirst
  intro p hp
  rcases List.mem_cons.1 hp with rfl | hp
  · exact le_rfl
  · exact (List.rel_of_pairwise_cons h.pairwise hp).le

theorem InOrder.lookup_eq_some_iff (h : InOrder pairs) :
    pairs.lookup n = some ra ↔ (n, ra) ∈ pairs := by
  rw [List.lookup_eq_some_iff]
  constructor
  · rintro ⟨front, back, rfl, -⟩
    simp
  · intro hmem
    obtain ⟨front, back, rfl⟩ := List.append_of_mem hmem
    refine ⟨front, back, rfl, fun p hp => ?_⟩
    have hlt : p.1 < n := (List.pairwise_append.1 h.pairwise).2.2 p hp _ List.mem_cons_self
    simpa using hlt.ne'

theorem InOrder.mem_iff_of_mem (h : InOrder pairs) (hmem : (n, ra) ∈ pairs) :
    (n, rb) ∈ pairs ↔ ra = rb := by
  rw [← h.lookup_eq_some_iff, h.lookup_eq_some_iff.2 hmem, Option.some_inj]

/-- The runs of pairs in order are canonical and give the rules that the pairs have. -/
theorem exists_encode_scan (h : InOrder pairs) :
    ∃ runs : List Run, encode pairs = .ok ⟨runs.toArray, longestOf runs⟩
      ∧ runs.IsChain Precedes ∧ ∀ n rule, scan runs n = some rule ↔ (n, some rule) ∈ pairs := by
  obtain ⟨runs, hencode, hcanonical, hscan⟩ := encode_eq_ok h.pairwise h.le_max
  refine ⟨runs, hencode, hcanonical, fun n rule => ?_⟩
  rw [hscan, Option.join_eq_some_iff, h.lookup_eq_some_iff]

/-- Pairs without a rule leave no trace: they may as well be passed over. -/
theorem encode_eq_of_mem_iff (hxs : InOrder xs) (hys : InOrder ys)
    (hsame : ∀ n rule, (n, some rule) ∈ xs ↔ (n, some rule) ∈ ys) :
    ∃ t, encode xs = .ok t ∧ encode ys = .ok t := by
  obtain ⟨runs, hruns, hcanonical, hscan⟩ := exists_encode_scan hxs
  obtain ⟨others, hothers, hcanonical', hscan'⟩ := exists_encode_scan hys
  obtain rfl : runs = others := by
    refine eq_of_scan_eq hcanonical hcanonical' fun n => Option.ext fun rule => ?_
    rw [hscan, hscan', hsame]
  exact ⟨_, hruns, hothers⟩

/-- One run is open over the gap where the other is closed, and both start anew behind it. -/
theorem encode_eq_of_mem_iff_passing_over :
    let xs : List (Nat × Option Rule) := [(0x40, none), (0x41, some .identifierStart),
      (0x42, none), (0x44, some .identifierStart), (0x45, some .identifierStart)]
    let ys : List (Nat × Option Rule) := [(0x41, some .identifierStart),
      (0x44, some .identifierStart), (0x45, some .identifierStart), (CodePoint.max, none)]
    InOrder xs ∧ InOrder ys ∧ (∀ n rule, (n, some rule) ∈ xs ↔ (n, some rule) ∈ ys)
      ∧ ∃ t, encode xs = .ok t ∧ encode ys = .ok t := by
  intro xs ys
  have hxs : InOrder xs := ⟨by decide, by decide⟩
  have hys : InOrder ys := ⟨by decide, by decide⟩
  have hsame : ∀ n rule, (n, some rule) ∈ xs ↔ (n, some rule) ∈ ys := by simp [xs, ys]
  exact ⟨hxs, hys, hsame, encode_eq_of_mem_iff hxs hys hsame⟩

/-- The runs of the whole are those of its two pieces, unless the code points where these meet are
neighbours with one rule and the run that ends there is not full. If they are, the longest is the
longer of the longest runs of the pieces. -/
theorem runs_encode_append_iff (h : InOrder (xs ++ ys)) (hlast : xs.getLast? = some (a, ra))
    (hfirst : ys.head? = some (b, rb)) :
    ∃ t u v, encode (xs ++ ys) = .ok t ∧ encode xs = .ok u ∧ encode ys = .ok v
      ∧ (t.runs = u.runs ++ v.runs ↔ ¬ (b = a + 1 ∧ ∃ rule, ra = some rule ∧ rb = some rule
        ∧ ∃ r, u.runs.back? = some r ∧ r.length < maxLength))
      ∧ (t.runs = u.runs ++ v.runs → t.longest = max u.longest v.longest) := by
  obtain ⟨hxs, hys⟩ := h.of_append
  obtain ⟨whole, hwhole, hcanonical, hscan⟩ := exists_encode_scan h
  obtain ⟨runs, hruns, hcanonical₁, hscan₁⟩ := exists_encode_scan hxs
  obtain ⟨more, hmore, hcanonical₂, hscan₂⟩ := exists_encode_scan hys
  have ha : (a, ra) ∈ xs := List.mem_of_getLast? hlast
  have hb : (b, rb) ∈ ys := List.mem_of_head? hfirst
  have hab : a < b := (List.pairwise_append.1 h.pairwise).2.2 _ ha _ hb
  have hends : ∀ r ∈ runs, r.last ≤ a := fun r hr =>
    hxs.le_last hlast _ ((hscan₁ _ _).1 (scan_of_mem (pairwise_before_of_isChain hcanonical₁) hr
      r.covers_last))
  have hstarts : ∀ s ∈ more, b ≤ s.start := fun s hs =>
    hys.first_le hfirst _ ((hscan₂ _ _).1 (scan_of_mem (pairwise_before_of_isChain hcanonical₂) hs
      s.covers_start))
  have hbefore : ∀ r ∈ runs, ∀ s ∈ more, r.Before s := fun r hr s hs =>
    (hends r hr).trans_lt (hab.trans_le (hstarts s hs))
  -- The pieces together give every code point the rule that the whole gives it.
  have htogether : whole = runs ++ more ↔ (runs ++ more).IsChain Precedes := by
    refine ⟨fun heq => heq ▸ hcanonical, fun hchain => eq_of_scan_eq hcanonical hchain fun n => ?_⟩
    refine Option.ext fun rule => ?_
    rw [hscan, scan_append_eq_some_iff hbefore, hscan₁, hscan₂, List.mem_append]
  have hruns_eq : whole.toArray = runs.toArray ++ more.toArray ↔ whole = runs ++ more := by
    rw [List.append_toArray, List.toArray_eq_iff]
  refine ⟨_, _, _, hwhole, hruns, hmore, ?_, fun heq => ?_⟩
  · rw [hruns_eq, htogether, isChain_append_iff hcanonical₁ hcanonical₂ hends hstarts hab]
    simp only [hscan₁, hscan₂, hxs.mem_iff_of_mem ha, hys.mem_iff_of_mem hb, List.back?_toArray]
  · rw [hruns_eq.1 heq, longestOf_append]

/-- A piece that ends with a full run, behind which the same rule goes on. -/
theorem runs_encode_append_iff_full_run :
    let xs := (List.range' 0x4E00 511).map fun n => (n, some Rule.identifierStart)
    let ys := [(0x4FFF, some Rule.identifierStart), (0x5000, none)]
    InOrder (xs ++ ys) ∧ xs.getLast? = some (0x4FFE, some .identifierStart)
      ∧ ys.head? = some (0x4FFF, some .identifierStart)
      ∧ ∃ t u v, encode (xs ++ ys) = .ok t ∧ encode xs = .ok u ∧ encode ys = .ok v
        ∧ (t.runs = u.runs ++ v.runs ↔ ¬ (0x4FFF = 0x4FFE + 1 ∧ ∃ rule,
          some Rule.identifierStart = some rule ∧ some Rule.identifierStart = some rule
            ∧ ∃ r, u.runs.back? = some r ∧ r.length < maxLength))
        ∧ (t.runs = u.runs ++ v.runs → t.longest = max u.longest v.longest) := by
  intro xs ys
  have h : InOrder (xs ++ ys) := ⟨by decide +kernel, by decide +kernel⟩
  have hlast : xs.getLast? = some (0x4FFE, some .identifierStart) := by decide +kernel
  exact ⟨h, hlast, rfl, runs_encode_append_iff h hlast rfl⟩

end CharRuns

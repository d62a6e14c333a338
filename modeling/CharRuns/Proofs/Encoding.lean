import CharRuns.Encoder
import CharRuns.Proofs.TableRules

/-!
# What the encoder holds

Between two code points an encoder holds a canonical list of runs, the closed ones and the one in
progress (`Holds`). So it can always close the latter (`Holds.close`). A code point in order leaves
the list alone, lets its last run grow, or adds a run of its own (`Takes`, `Holds.push`); whichever
it is, the list then gives that code point its rule and all others the rule they had
(`Takes.scan_eq`). Any other code point is refused before anything has changed (`Objection.push`).
-/

namespace CharRuns

open Run

namespace Encoder

/-- What a state says of the runs: none is in progress and all of them ended before the last code
point taken, or the last of them ends with it and is in progress. -/
def State.Fits (previous : Option Nat) (closed runs : List Run) : State → Prop
  | .idle => runs = closed ∧ ∀ r ∈ closed, ∃ m, previous = some m ∧ r.last < m
  | .within start rule length => ∃ r : Run, runs = closed ++ [r] ∧ previous = some r.last
    ∧ r.start = start ∧ r.rule = rule ∧ r.length = length

/-- The encoder has made these runs of the code points it took. -/
structure Holds (e : Encoder) (runs : List Run) : Prop where
  fits : e.state.Fits e.previous e.closed.toList runs
  canonical : runs.IsChain Precedes
  longest : e.longest = longestOf runs

/-- What a code point with its rule does to the runs. -/
inductive Takes (n : Nat) : Option Rule → List Run → List Run → Prop where
  | skip (runs : List Run) : Takes n none runs runs
  | grow (runs : List Run) (r : Run) (hlength : r.length < maxLength)
      (hlast : r.last + 1 ≤ CodePoint.max) (hn : n = r.last + 1) :
      Takes n (some r.rule) (runs ++ [r]) (runs ++ [r.grown hlength hlast])
  | start (runs : List Run) (rule : Rule) (hn : n ≤ CodePoint.max) :
      Takes n (some rule) runs (runs ++ [single n rule hn])

/-- The code point lies in the code space, behind the last one taken. -/
def Expects (e : Encoder) (n : Nat) : Prop :=
  n ≤ CodePoint.max ∧ ∀ m, e.previous = some m → m < n

/-- What stands in the way of a code point, the bound of the code space before the order. -/
inductive Objection (e : Encoder) (n : Nat) : Fault → Prop where
  | outOfRange (h : CodePoint.max < n) : Objection e n (.run (.startOutOfRange n))
  | outOfOrder {m : Nat} (hmax : n ≤ CodePoint.max) (hm : e.previous = some m) (h : n ≤ m) :
      Objection e n (.outOfOrder m n)

theorem longestOf_append_singleton (runs : List Run) (r : Run) :
    longestOf (runs ++ [r]) = max (longestOf runs) r.length := by
  simp [longestOf]

theorem empty_holds : empty.Holds [] where
  fits := ⟨rfl, by simp [empty]⟩
  canonical := .nil
  longest := rfl

/-- The run in progress is one that can be closed, whatever else the encoder remembers. -/
theorem State.Fits.close {state : State} {previous : Option Nat} {closed : Array Run}
    {runs : List Run} (h : state.Fits previous closed.toList runs) (memory : Option Nat)
    (longest : Nat) :
    Encoder.close ⟨state, closed, memory, longest⟩
      = (⟨.idle, runs.toArray, memory, longest⟩, .ok ()) := by
  cases state with
  | idle =>
    rw [h.1]
    rfl
  | within start rule length =>
    obtain ⟨r, rfl, -, rfl, rfl, rfl⟩ := h
    simp [Encoder.close, make_eq_ok, ← Array.toList_push]

theorem Holds.last_le {e : Encoder} {runs : List Run} (h : e.Holds runs) :
    ∀ r ∈ runs, ∃ m, e.previous = some m ∧ r.last ≤ m := by
  obtain ⟨state, closed, previous, longest⟩ := e
  intro r hr
  have hfits := h.fits
  cases state with
  | idle =>
    obtain ⟨rfl, hclosed⟩ := hfits
    obtain ⟨m, hm, hlt⟩ := hclosed r hr
    exact ⟨m, hm, hlt.le⟩
  | within start rule length =>
    obtain ⟨last, rfl, hprevious, -⟩ := hfits
    refine ⟨last.last, hprevious, ?_⟩
    rcases List.mem_append.1 hr with hr | hr
    · have hbefore := pairwise_before_of_isChain h.canonical
      have : r.last < last.start := (List.pairwise_append.1 hbefore).2.2 r hr last (by simp)
      have := last.start_le_last
      omega
    · rw [List.mem_singleton.1 hr]

/-- The code point that is taken gets its rule, and the others keep theirs. -/
theorem Takes.scan_eq {n : Nat} {rule : Option Rule} {runs runs' : List Run}
    (h : Takes n rule runs runs') (hlast : ∀ r ∈ runs, r.last < n) (m : Nat) :
    scan runs' m = if m = n then rule else scan runs m := by
  cases h with
  | skip =>
    split_ifs with hm
    · exact scan_eq_none_of_last_lt hlast hm.ge
    · rfl
  | grow runs r hlength hr hn =>
    have hinit : m = n → scan runs m = none := fun hm =>
      scan_eq_none_of_last_lt (fun s hs => hlast s (List.mem_append_left _ hs)) hm.ge
    simp only [scan_append, scan_cons, scan_nil, covers_grown_iff, ← hn]
    by_cases hm : m = n
    · rw [hinit hm]
      simp [hm, grown]
    · simp [hm, grown]
  | start runs q hn =>
    simp only [scan_append, scan_cons, scan_nil, covers_single_iff]
    split_ifs with hm
    · rw [scan_eq_none_of_last_lt hlast hm.ge]
      rfl
    · simp

/-- A code point that does not continue the last run starts a run of its own, or none. -/
theorem holds_start {runs : List Run} (hcanonical : runs.IsChain Precedes) {n : Nat}
    (hn : n ≤ CodePoint.max) (hlast : ∀ r ∈ runs, r.last < n) :
    ∀ {rule : Option Rule}, (∀ q ∈ rule, ∀ r ∈ runs.getLast?, n = r.last + 1 → q = r.rule →
        r.length = maxLength) →
      ∃ runs', Holds ⟨.start n rule, runs.toArray, some n,
          max (longestOf runs) (State.start n rule).length⟩ runs' ∧ Takes n rule runs runs'
  | none, _ => by
    refine ⟨runs, ⟨⟨rfl, fun r hr => ⟨n, rfl, hlast r hr⟩⟩, hcanonical, ?_⟩, .skip runs⟩
    exact Nat.max_zero _
  | some q, hfull => by
    refine ⟨_, ⟨⟨single n q hn, rfl, ?_, rfl, rfl, rfl⟩, ?_, ?_⟩, .start runs q hn⟩
    · rw [single_last]
    · refine List.isChain_append.2 ⟨hcanonical, .singleton _, fun r hr s hs => ?_⟩
      obtain rfl : single n q hn = s := by simpa using hs
      exact ⟨hlast r (List.mem_of_mem_getLast? hr), fun h₁ h₂ => hfull q rfl r hr h₁ h₂⟩
    · rw [longestOf_append_singleton]
      rfl

theorem holds_grow {runs : List Run} {r : Run} (hcanonical : (runs ++ [r]).IsChain Precedes)
    (hlength : r.length < maxLength) (hlast : r.last + 1 ≤ CodePoint.max) :
    Holds ⟨.within r.start r.rule (r.length + 1), runs.toArray, some (r.last + 1),
      max (longestOf (runs ++ [r])) (r.length + 1)⟩ (runs ++ [r.grown hlength hlast]) where
  fits := ⟨r.grown hlength hlast, rfl, by rw [grown_last], rfl, rfl, rfl⟩
  canonical := by
    obtain ⟨hruns, -, hstep⟩ := List.isChain_append.1 hcanonical
    refine List.isChain_append.2 ⟨hruns, .singleton _, fun a ha b hb => ?_⟩
    obtain rfl : r.grown hlength hlast = b := by simpa using hb
    -- The longer run starts where `r` does and has its rule.
    exact hstep a ha r rfl
  longest := by
    rw [longestOf_append_singleton, longestOf_append_singleton]
    simp only [grown]
    omega

/-- A code point that does not extend the run in progress continues the last run only if that is
full: without a run in progress the code point before it, if any, was passed without a rule. -/
theorem State.Fits.full_of_extend?_eq_none {s : State} {previous : Option Nat}
    {closed runs : List Run} {n : Nat} {rule : Option Rule} (h : s.Fits previous closed runs)
    (hprevious : ∀ m, previous = some m → m < n) (hnone : s.extend? n rule = none) :
    ∀ q ∈ rule, ∀ r ∈ runs.getLast?, n = r.last + 1 → q = r.rule → r.length = maxLength := by
  intro q hq r hr hnext hrule
  cases s with
  | idle =>
    obtain ⟨rfl, hclosed⟩ := h
    obtain ⟨m, hm, hlt⟩ := hclosed r (List.mem_of_mem_getLast? hr)
    have := hprevious m hm
    omega
  | within start current length =>
    obtain ⟨s, rfl, -, rfl, rfl, rfl⟩ := h
    obtain rfl : s = r := by simpa using hr
    by_contra hne
    have hle := s.length_le
    have hsum := s.last_add_one
    have hgrows : rule = some s.rule ∧ s.length < maxLength ∧ s.length = n - s.start :=
      ⟨by rw [hq, hrule], by omega, by omega⟩
    rw [State.extend?, if_pos hgrows] at hnone
    cases hnone

/-- A code point that extends the run in progress is the next one with its rule, and there is room
for it. -/
theorem State.Fits.grows_of_extend?_eq_some {s grown : State} {previous : Option Nat}
    {closed runs : List Run} {n : Nat} {rule : Option Rule} (h : s.Fits previous closed runs)
    (hlast : ∀ r ∈ runs, r.last < n) (hgrown : s.extend? n rule = some grown) :
    ∃ r : Run, runs = closed ++ [r] ∧ rule = some r.rule ∧ r.length < maxLength
      ∧ n = r.last + 1 ∧ grown = .within r.start r.rule (r.length + 1) := by
  cases s with
  | idle => cases hgrown
  | within start current length =>
    obtain ⟨r, rfl, -, rfl, rfl, rfl⟩ := h
    rw [State.extend?] at hgrown
    split_ifs at hgrown with hgrows
    cases hgrown
    have hsum := r.last_add_one
    have hpast := hlast r (by simp)
    exact ⟨r, rfl, hgrows.1, hgrows.2.1, by omega, rfl⟩

/-- A code point in order is recorded with its rule, and the runs stay canonical. -/
theorem Holds.record {e : Encoder} {runs : List Run} (h : e.Holds runs) {n : Nat}
    (hnext : e.Expects n) (rule : Option Rule) :
    ∃ e' runs', Encoder.record { e with previous := some n } n rule = (e', .ok ())
      ∧ e'.Holds runs' ∧ e'.previous = some n ∧ Takes n rule runs runs' := by
  obtain ⟨hn, hprevious⟩ := hnext
  have hlast : ∀ r ∈ runs, r.last < n := fun r hr => by
    obtain ⟨m, hm, hle⟩ := h.last_le r hr
    exact hle.trans_lt (hprevious m hm)
  obtain ⟨state, closed, previous, longest⟩ := e
  obtain ⟨hfits, hcanonical, rfl : longest = _⟩ := h
  dsimp only at hfits hprevious ⊢
  rcases hextend : state.extend? n rule with _ | grown
  · have hfull := hfits.full_of_extend?_eq_none hprevious hextend
    obtain ⟨runs', hholds, htakes⟩ := holds_start hcanonical hn hlast hfull
    have hclose := hfits.close (some n) (longestOf runs)
    simp only [Encoder.record, hextend, hclose]
    exact ⟨_, runs', rfl, hholds, rfl, htakes⟩
  · obtain ⟨r, rfl, rfl, hshort, rfl, rfl⟩ := hfits.grows_of_extend?_eq_some hlast hextend
    simp only [Encoder.record, hextend]
    exact ⟨_, _, rfl, holds_grow hcanonical hshort hn, rfl, .grow _ r hshort hn rfl⟩

theorem expects_or_objection (e : Encoder) (n : Nat) :
    e.Expects n ∨ ∃ fault, e.Objection n fault := by
  by_cases hmax : CodePoint.max < n
  · exact .inr ⟨_, .outOfRange hmax⟩
  have hle : n ≤ CodePoint.max := not_lt.1 hmax
  by_cases hbehind : ∀ m, e.previous = some m → m < n
  · exact .inl ⟨hle, hbehind⟩
  · push Not at hbehind
    obtain ⟨m, hm, hnm⟩ := hbehind
    exact .inr ⟨_, .outOfOrder hle hm hnm⟩

/-- A push is refused before anything has changed. -/
theorem Objection.push {e : Encoder} {n : Nat} {fault : Fault} (h : e.Objection n fault)
    (rule : Option Rule) : e.push n rule = (e, .error fault) := by
  cases h with
  | outOfRange hmax => rw [Encoder.push, if_pos hmax]
  | @outOfOrder m hmax hm hle =>
    have hfilter : e.previous.filter (n ≤ ·) = some m := by
      rw [hm, Option.filter_some, if_pos (decide_eq_true hle)]
    simp only [Encoder.push, if_neg hmax.not_gt, hfilter]

/-- A code point in order is taken. -/
theorem Holds.push {e : Encoder} {runs : List Run} (h : e.Holds runs) {n : Nat}
    (hnext : e.Expects n) (rule : Option Rule) :
    ∃ e' runs', e.push n rule = (e', .ok ()) ∧ e'.Holds runs' ∧ e'.previous = some n
      ∧ Takes n rule runs runs' := by
  have hfilter : e.previous.filter (n ≤ ·) = none :=
    Option.filter_eq_none_iff.2 fun m hm => by simpa using hnext.2 m hm
  simp only [Encoder.push, if_neg hnext.1.not_gt, hfilter]
  exact h.record hnext rule

/-- All that a push can do. -/
theorem Holds.push_cases {e : Encoder} {runs : List Run} (h : e.Holds runs) (n : Nat)
    (rule : Option Rule) :
    (∃ fault, e.Objection n fault ∧ e.push n rule = (e, .error fault))
      ∨ ∃ e' runs', e.Expects n ∧ e.push n rule = (e', .ok ()) ∧ e'.Holds runs'
        ∧ e'.previous = some n := by
  rcases e.expects_or_objection n with hnext | ⟨fault, hfault⟩
  · obtain ⟨e', runs', hpush, hholds, hprevious, -⟩ := h.push hnext rule
    exact .inr ⟨e', runs', hnext, hpush, hholds, hprevious⟩
  · exact .inl ⟨fault, hfault, hfault.push rule⟩

theorem feed_eq_ok_iff {e e' : Encoder} {n : Nat} {rule : Option Rule} :
    e.feed n rule = .ok e' ↔ e.push n rule = (e', .ok ()) := by
  unfold feed
  rcases e.push n rule with ⟨e₁, fault | ⟨⟩⟩ <;> simp

theorem feed_eq_error_iff {e : Encoder} {n : Nat} {rule : Option Rule} {fault : Fault} :
    e.feed n rule = .error fault ↔ (e.push n rule).2 = .error fault := by
  unfold feed
  rcases e.push n rule with ⟨e₁, cause | ⟨⟩⟩ <;> simp

theorem feedAll_cons (e : Encoder) (n : Nat) (rule : Option Rule)
    (pairs : List (Nat × Option Rule)) :
    e.feedAll ((n, rule) :: pairs) = (e.feed n rule).bind fun e => e.feedAll pairs := by
  rw [feedAll, List.foldlM_cons]
  rfl

theorem Holds.feedAll : ∀ {e : Encoder} {runs : List Run} {pairs : List (Nat × Option Rule)},
    e.Holds runs → pairs.Pairwise (fun p q => p.1 < q.1) → (∀ p ∈ pairs, p.1 ≤ CodePoint.max) →
      (∀ m, e.previous = some m → ∀ p ∈ pairs, m < p.1) →
    ∃ e' runs', e.feedAll pairs = .ok e' ∧ e'.Holds runs'
      ∧ ∀ n, scan runs' n = (pairs.lookup n).getD (scan runs n)
  | e, runs, [], h, _, _, _ => ⟨e, runs, rfl, h, fun _ => rfl⟩
  | e, runs, (n, rule) :: pairs, h, hascend, hmax, hprevious => by
    obtain ⟨hhead, htail⟩ := List.pairwise_cons.1 hascend
    have hnext : e.Expects n :=
      ⟨hmax (n, rule) (by simp), fun m hm => hprevious m hm (n, rule) (by simp)⟩
    obtain ⟨e₁, runs₁, hpush, h₁, hlast₁, htakes⟩ := h.push hnext rule
    obtain ⟨e', runs', hfeed, h', hscan⟩ := h₁.feedAll htail
      (fun p hp => hmax p (List.mem_cons_of_mem _ hp)) (fun m hm p hp => by
        obtain rfl : n = m := Option.some_inj.1 (hlast₁.symm.trans hm)
        exact hhead p hp)
    refine ⟨e', runs', ?_, h', fun m => ?_⟩
    · rw [feedAll_cons, feed_eq_ok_iff.2 hpush]
      exact hfeed
    · have hlast : ∀ r ∈ runs, r.last < n := fun r hr => by
        obtain ⟨k, hk, hle⟩ := h.last_le r hr
        exact hle.trans_lt (hnext.2 k hk)
      rw [hscan, htakes.scan_eq hlast, List.lookup_cons]
      by_cases hm : m = n
      · subst hm
        have : pairs.lookup m = none := by
          refine List.lookup_eq_none_iff.2 fun p hp => ?_
          have := hhead p hp
          simpa using this.ne
        simp [this]
      · simp [hm, beq_eq_false_iff_ne.2 hm]

theorem Holds.finish {e : Encoder} {runs : List Run} (h : e.Holds runs) :
    e.finish = .ok ⟨runs.toArray, longestOf runs⟩ := by
  rw [Encoder.finish, h.fits.close e.previous e.longest, h.longest]

end Encoder

/-- Encoding code points in order gives a canonical table with the rules they came with. -/
theorem encode_eq_ok {pairs : List (Nat × Option Rule)}
    (hascend : pairs.Pairwise fun p q => p.1 < q.1) (hmax : ∀ p ∈ pairs, p.1 ≤ CodePoint.max) :
    ∃ runs : List Run, encode pairs = .ok ⟨runs.toArray, longestOf runs⟩
      ∧ runs.IsChain Precedes ∧ ∀ n, scan runs n = (pairs.lookup n).join := by
  obtain ⟨e, runs, hfeed, hholds, hscan⟩ := Encoder.empty_holds.feedAll hascend hmax
    (fun m hm => by cases hm)
  refine ⟨runs, ?_, hholds.canonical, fun n => ?_⟩
  · rw [encode, hfeed]
    exact hholds.finish
  · rw [hscan, scan_nil]
    cases pairs.lookup n <;> rfl

theorem lookup_map_pair (verdict : Nat → Option Rule) (m : Nat) : ∀ l : List Nat,
    (l.map fun n => (n, verdict n)).lookup m = if m ∈ l then some (verdict m) else none
  | [] => rfl
  | n :: l => by
    rw [List.map_cons, List.lookup_cons, lookup_map_pair verdict m l]
    by_cases hm : m = n
    · simp [hm]
    · simp [hm, beq_eq_false_iff_ne.2 hm]

/-- Encoding the whole code space gives a canonical table with the rules of the verdicts. -/
theorem encode_codeSpace (verdict : Nat → Option Rule) :
    ∃ runs : List Run,
      encode ((List.range (CodePoint.max + 1)).map fun n => (n, verdict n))
          = .ok ⟨runs.toArray, longestOf runs⟩
        ∧ runs.IsChain Precedes
        ∧ ∀ n, scan runs n = if n ≤ CodePoint.max then verdict n else none := by
  have hascend : ((List.range (CodePoint.max + 1)).map fun n => (n, verdict n)).Pairwise
      fun p q => p.1 < q.1 :=
    List.pairwise_map.2 List.pairwise_lt_range
  have hmax : ∀ p ∈ (List.range (CodePoint.max + 1)).map fun n => (n, verdict n),
      p.1 ≤ CodePoint.max := by
    intro p hp
    obtain ⟨n, hn, rfl⟩ := List.mem_map.1 hp
    exact Nat.le_of_lt_succ (List.mem_range.1 hn)
  obtain ⟨runs, hencode, hcanonical, hscan⟩ := encode_eq_ok hascend hmax
  refine ⟨runs, hencode, hcanonical, fun n => ?_⟩
  rw [hscan, lookup_map_pair]
  simp only [List.mem_range, Nat.lt_succ_iff]
  split <;> rfl

end CharRuns

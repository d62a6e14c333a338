import CharRuns.Proofs.EncoderHistory

/-!
# What encoding comes to

Pairs are in order if their code points ascend within the code space (`InOrder`), and of pairs that
are not, a first one does not fit behind those in front of it (`inOrder_or_firstMisplaced`). What an
encoder refuses depends on the last code point it took and on nothing else
(`objection_iff_misplaced`), so it takes the pairs in front and refuses that one: encoding fails
for this reason alone, whatever the rules are (`encode_outcome`).
-/

namespace CharRuns

/-- No code point lies beyond the code space, and each exceeds the one just before it. -/
structure InOrder (pairs : List (Nat × Option Rule)) : Prop where
  ascend : pairs.IsChain fun p q => p.1 < q.1
  le_max : ∀ p ∈ pairs, p.1 ≤ CodePoint.max

/-- Why a code point may not stand behind the pairs in front of it. -/
inductive Misplaced (front : List (Nat × Option Rule)) (n : Nat) : Encoder.Fault → Prop where
  | outOfRange (h : CodePoint.max < n) : Misplaced front n (.run (.startOutOfRange n))
  | outOfOrder {m : Nat} (hmax : n ≤ CodePoint.max) (hlast : front.getLast?.map (·.1) = some m)
      (h : n ≤ m) : Misplaced front n (.outOfOrder m n)

/-- Why the first code point that is misplaced may not stand where it does. -/
def FirstMisplaced (pairs : List (Nat × Option Rule)) (fault : Encoder.Fault) : Prop :=
  ∃ front p back, pairs = front ++ p :: back ∧ InOrder front ∧ Misplaced front p.1 fault

variable {pairs front : List (Nat × Option Rule)} {p : Nat × Option Rule} {fault : Encoder.Fault}

theorem InOrder.pairwise (h : InOrder pairs) : pairs.Pairwise fun p q => p.1 < q.1 := by
  have hascend : (pairs.map (·.1)).IsChain (· < ·) := (List.isChain_map _).2 h.ascend
  exact List.pairwise_map.1 (List.isChain_iff_pairwise.1 hascend)

/-- What is behind the last of pairs in order is behind them all. -/
theorem InOrder.forall_lt_iff (h : InOrder pairs) {n : Nat} :
    (∀ p ∈ pairs, p.1 < n) ↔ ∀ m, pairs.getLast?.map (·.1) = some m → m < n := by
  rcases pairs.eq_nil_or_concat' with rfl | ⟨init, q, rfl⟩
  · simp
  · have hbefore : ∀ p ∈ init, p.1 < q.1 := fun p hp =>
      (List.pairwise_append.1 h.pairwise).2.2 p hp q (List.mem_singleton_self q)
    constructor
    · rintro hall m hm
      obtain rfl : q.1 = m := by simpa using hm
      exact hall q (by simp)
    · intro hlast p hp
      have hq : q.1 < n := hlast q.1 (by simp)
      rcases List.mem_append.1 hp with hp | hp
      · exact (hbefore p hp).trans hq
      · rwa [List.mem_singleton.1 hp]

theorem InOrder.concat (h : InOrder front) (hmax : p.1 ≤ CodePoint.max)
    (hlast : ∀ m, front.getLast?.map (·.1) = some m → m < p.1) : InOrder (front ++ [p]) where
  ascend := List.isChain_append.2 ⟨h.ascend, .singleton _, fun q hq r hr => by
    obtain rfl : p = r := by simpa using hr
    exact hlast q.1 (by rw [Option.mem_def.1 hq, Option.map_some])⟩
  le_max q hq := by
    rcases List.mem_append.1 hq with hq | hq
    · exact h.le_max q hq
    · rwa [List.mem_singleton.1 hq]

theorem FirstMisplaced.append (h : FirstMisplaced pairs fault) (more : List (Nat × Option Rule)) :
    FirstMisplaced (pairs ++ more) fault := by
  obtain ⟨front, p, back, rfl, hfront, hp⟩ := h
  exact ⟨front, p, back ++ more, by simp, hfront, hp⟩

theorem inOrder_or_firstMisplaced (pairs : List (Nat × Option Rule)) :
    InOrder pairs ∨ ∃ fault, FirstMisplaced pairs fault := by
  induction pairs using List.reverseRecOn with
  | nil => exact .inl ⟨.nil, by simp⟩
  | append_singleton front p ih =>
    rcases ih with hfront | ⟨fault, hfault⟩
    · by_cases hmax : CodePoint.max < p.1
      · exact .inr ⟨_, front, p, [], rfl, hfront, .outOfRange hmax⟩
      · by_cases hlast : ∀ m, front.getLast?.map (·.1) = some m → m < p.1
        · exact .inl (hfront.concat (not_lt.1 hmax) hlast)
        · push Not at hlast
          obtain ⟨m, hm, hle⟩ := hlast
          exact .inr ⟨_, front, p, [], rfl, hfront, .outOfOrder (not_lt.1 hmax) hm hle⟩
    · exact .inr ⟨fault, hfault.append [p]⟩

namespace Encoder

variable {e e' : Encoder} {runs : List Run} {n : Nat} {rule : Option Rule}

/-- An encoder that knows the last code point of the pairs in front objects to those that are
misplaced behind them, and can take all others. -/
theorem objection_iff_misplaced (hlast : e.previous = front.getLast?.map (·.1)) :
    e.Objection n fault ↔ Misplaced front n fault := by
  constructor
  · rintro (hmax | ⟨hmax, hm, hle⟩)
    · exact .outOfRange hmax
    · exact .outOfOrder hmax (hlast.symm.trans hm) hle
  · rintro (hmax | ⟨hmax, hm, hle⟩)
    · exact .outOfRange hmax
    · exact .outOfOrder hmax (hlast.trans hm) hle

/-- Pairs that can be fed without a refusal are all taken. -/
theorem pushAll_of_feedAll : ∀ {e : Encoder} {pairs : List (Nat × Option Rule)},
    e.feedAll pairs = .ok e' → e.pushAll pairs = e' ∧ e.accepted pairs = pairs
  | e, [], h => by
    cases h
    exact ⟨rfl, rfl⟩
  | e, (n, rule) :: pairs, h => by
    rw [feedAll_cons] at h
    rcases hfeed : e.feed n rule with fault | e₁
    · rw [hfeed] at h
      cases h
    · rw [hfeed] at h
      obtain ⟨hpushed, haccepted⟩ := pushAll_of_feedAll h
      simp only [pushAll, accepted, feed_eq_ok_iff.1 hfeed, hpushed, haccepted, and_self]

/-- Pairs in order are taken, and the encoder remembers the last of them. -/
theorem exists_feedAll (h : InOrder pairs) : ∃ e runs, empty.feedAll pairs = .ok e ∧ e.Holds runs
    ∧ e.previous = pairs.getLast?.map (·.1) := by
  obtain ⟨e, runs, hfeed, hholds, -⟩ := empty_holds.feedAll h.pairwise h.le_max
    (fun m hm => by cases hm)
  -- All pairs were taken, so the last one taken is the last of them.
  obtain ⟨rfl, haccepted⟩ := pushAll_of_feedAll hfeed
  obtain ⟨-, hprevious⟩ := empty_holds.pushAll pairs
  rw [haccepted] at hprevious
  exact ⟨_, runs, hfeed, hholds, hprevious.trans Option.or_none⟩

theorem feedAll_of_firstMisplaced (h : FirstMisplaced pairs fault) :
    empty.feedAll pairs = .error fault := by
  obtain ⟨front, ⟨n, rule⟩, back, rfl, hfront, hfault⟩ := h
  obtain ⟨e, runs, hfeed, hholds, hprevious⟩ := exists_feedAll hfront
  have hrefused : e.feed n rule = .error fault :=
    feed_eq_error_iff.2 (by rw [((objection_iff_misplaced hprevious).2 hfault).push])
  rw [feedAll_append, hfeed]
  change e.feedAll ((n, rule) :: back) = .error fault
  rw [feedAll_cons, hrefused]
  rfl

end Encoder

theorem exists_encode (h : InOrder pairs) : ∃ t, encode pairs = .ok t := by
  obtain ⟨runs, hencode, -⟩ := encode_eq_ok h.pairwise h.le_max
  exact ⟨_, hencode⟩

theorem encode_of_firstMisplaced (h : FirstMisplaced pairs fault) :
    encode pairs = .error fault := by
  rw [encode, Encoder.feedAll_of_firstMisplaced h]
  rfl

theorem encode_eq_error_iff : encode pairs = .error fault ↔ FirstMisplaced pairs fault := by
  refine ⟨fun herror => ?_, encode_of_firstMisplaced⟩
  rcases inOrder_or_firstMisplaced pairs with h | ⟨cause, h⟩
  · obtain ⟨t, ht⟩ := exists_encode h
    rw [herror] at ht
    cases ht
  · obtain rfl := Except.error.inj (herror.symm.trans (encode_of_firstMisplaced h))
    exact h

/-- Encoding fails if a code point lies beyond the code space or does not exceed the one just before
it, and only then. The first such code point is the one reported: that it is out of range, or else
which one it does not exceed. -/
theorem encode_outcome (pairs : List (Nat × Option Rule)) :
    ((∃ fault, encode pairs = .error fault) ↔ (∃ p ∈ pairs, CodePoint.max < p.1)
        ∨ ∃ front p q back, pairs = front ++ p :: q :: back ∧ q.1 ≤ p.1)
      ∧ ∀ fault, encode pairs = .error fault ↔ FirstMisplaced pairs fault := by
  refine ⟨⟨fun ⟨fault, herror⟩ => ?_, fun hbad => ?_⟩, fun fault => encode_eq_error_iff⟩
  · obtain ⟨front, p, back, rfl, -, hfault⟩ := encode_eq_error_iff.1 herror
    rcases hfault with hmax | ⟨-, hlast, hle⟩
    · exact .inl ⟨p, by simp, hmax⟩
    · obtain ⟨q, hq, rfl⟩ := Option.map_eq_some_iff.1 hlast
      obtain ⟨init, rfl⟩ := List.getLast?_eq_some_iff.1 hq
      exact .inr ⟨init, q, p, back, by simp, hle⟩
  · rcases inOrder_or_firstMisplaced pairs with h | ⟨fault, h⟩
    · rcases hbad with ⟨p, hp, hmax⟩ | ⟨front, p, q, back, rfl, hle⟩
      · exact absurd (h.le_max p hp) hmax.not_ge
      · exact absurd (List.isChain_append_cons_cons.1 h.ascend).2.1 hle.not_gt
    · exact ⟨fault, encode_of_firstMisplaced h⟩

example : encode [(9, none), (0x10FFFF, none), (3, some .whitespace), (0x110000, none)]
    = .error (.outOfOrder 0x10FFFF 3) := by
  rfl

end CharRuns

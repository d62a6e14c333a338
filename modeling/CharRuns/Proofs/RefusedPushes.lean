import CharRuns.Encoder
import CharRuns.Proofs.EncodeOutcome

/-!
# Pushes that are refused

A push counts a code point as taken before it closes a run for it, so a refusal might leave an
encoder behind that is half changed. It never does, since an encoder that holds runs can close them
and refuses a code point before anything has changed (`Holds.push_cases`). Pushing pairs of which
some are refused therefore comes to pushing the others (`pushAll_accepted`).
-/

namespace CharRuns.Encoder

variable {e e' : Encoder} {runs : List Run} {n : Nat} {rule : Option Rule} {fault : Fault}

theorem Holds.push_snd_eq_ok_iff (h : e.Holds runs) :
    (e.push n rule).2 = .ok () ↔ e.Expects n := by
  constructor
  · intro hok
    rcases h.push_cases n rule with ⟨fault, -, hpush⟩ | ⟨e', runs', hnext, -⟩
    · rw [hpush] at hok
      cases hok
    · exact hnext
  · intro hnext
    obtain ⟨e', -, hpush, -⟩ := h.push hnext rule
    rw [hpush]

/-- Fed alone, the pairs that are accepted are taken all. -/
theorem Holds.feedAll_accepted : ∀ {e : Encoder} {runs : List Run}
    (pairs : List (Nat × Option Rule)), e.Holds runs →
      e.feedAll (e.accepted pairs) = .ok (e.pushAll pairs)
  | _, _, [], _ => rfl
  | e, runs, (n, rule) :: pairs, h => by
    rcases h.push_cases n rule with ⟨fault, -, hpush⟩ | ⟨e', runs', -, hpush, hholds, -⟩
    · simp only [Encoder.pushAll, accepted, hpush]
      exact h.feedAll_accepted pairs
    · simp only [Encoder.pushAll, accepted, hpush, feedAll_cons, feed_eq_ok_iff.2 hpush]
      exact hholds.feedAll_accepted pairs

theorem inOrder_accepted (pairs : List (Nat × Option Rule)) :
    InOrder (empty.accepted pairs) := by
  rcases inOrder_or_firstMisplaced (empty.accepted pairs) with h | ⟨fault, h⟩
  · exact h
  · have hrefused := feedAll_of_firstMisplaced h
    rw [empty_holds.feedAll_accepted] at hrefused
    cases hrefused

/-- Pushing pairs comes to pushing those alone that are accepted, and of these none is refused. A
pair is accepted if its code point lies in the code space behind all that were accepted before. If
not, the push says that it is out of range, or else which code point was accepted last, and leaves
the encoder as it was. -/
theorem pushAll_accepted (pairs : List (Nat × Option Rule)) :
    let e := empty.pushAll pairs
    let before := empty.accepted pairs
    empty.pushAll before = e ∧ empty.accepted before = before
      ∧ ∀ n rule, ((e.push n rule).2 = .ok () ↔ n ≤ CodePoint.max ∧ ∀ p ∈ before, p.1 < n)
        ∧ ∀ fault, ((e.push n rule).2 = .error fault ↔ Misplaced before n fault)
          ∧ ((e.push n rule).2 = .error fault → (e.push n rule).1 = e) := by
  intro e before
  obtain ⟨hagain, hall⟩ := pushAll_of_feedAll (empty_holds.feedAll_accepted pairs)
  obtain ⟨⟨runs, hholds⟩, hprevious⟩ := empty_holds.pushAll pairs
  have hlast : e.previous = before.getLast?.map (·.1) := hprevious.trans Option.or_none
  refine ⟨hagain, hall, fun n rule => ⟨?_, fun fault => ⟨?_, fun hfault => ?_⟩⟩⟩
  · rw [hholds.push_snd_eq_ok_iff, Expects, hlast, (inOrder_accepted pairs).forall_lt_iff]
  · rw [hholds.push_snd_eq_error_iff, objection_iff_misplaced hlast]
  · rw [(hholds.push_snd_eq_error_iff.1 hfault).push]

example : empty.accepted [(5, some .identifierStart), (4, none), (0x110000, none),
    (6, some .identifierStart), (6, none)]
      = [(5, some .identifierStart), (6, some .identifierStart)] := by
  rfl

end CharRuns.Encoder

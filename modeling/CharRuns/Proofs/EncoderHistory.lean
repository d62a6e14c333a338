import CharRuns.Proofs.Encoding

/-!
# An encoder among refusals

An encoder may be pushed any pairs and goes on after those that it refuses (`pushAll`). A push that
is refused leaves the encoder as it was and one that is not finds canonical runs and leaves
canonical runs (`Holds.push_cases`), so they are canonical throughout (`Holds.pushAll`). At any time
the encoder can be finished, and the table holds what was closed and the run in progress
(`finish_pushAll`). The bounds of that run, and what they spare the arithmetic on it, are in
`within_pushAll`.
-/

namespace CharRuns

open Run

namespace Encoder

/-- The encoder that is left by pushing pairs in turn, whatever each push answers. -/
def pushAll (e : Encoder) : List (Nat × Option Rule) → Encoder
  | [] => e
  | (n, rule) :: pairs => (e.push n rule).1.pushAll pairs

/-- The pairs whose pushes are not refused. -/
def accepted (e : Encoder) : List (Nat × Option Rule) → List (Nat × Option Rule)
  | [] => []
  | (n, rule) :: pairs =>
    match e.push n rule with
    | (e', .ok ()) => (n, rule) :: e'.accepted pairs
    | (e', .error _) => e'.accepted pairs

/-- The run in progress, alone in its list, or no run. -/
inductive State.Shows : State → List Run → Prop where
  | idle : Shows .idle []
  | within (r : Run) : Shows (.within r.start r.rule r.length) [r]

variable {e : Encoder} {runs : List Run} {n : Nat} {rule : Option Rule} {fault : Fault}

/-- Whatever is refused in between, the runs stay canonical, and the encoder remembers the last code
point that it took. -/
theorem Holds.pushAll : ∀ {e : Encoder} {runs : List Run} (pairs : List (Nat × Option Rule)),
    e.Holds runs → (∃ runs', (e.pushAll pairs).Holds runs')
      ∧ (e.pushAll pairs).previous = ((e.accepted pairs).getLast?.map (·.1)).or e.previous
  | _, runs, [], h => ⟨⟨runs, h⟩, rfl⟩
  | e, _, (n, rule) :: pairs, h => by
    simp only [Encoder.pushAll, accepted]
    rcases h.push_cases n rule with ⟨fault, -, hpush⟩ | ⟨e', runs', -, hpush, hholds, hprevious⟩
    · rw [hpush]
      exact h.pushAll pairs
    · obtain ⟨hruns, hlast⟩ := hholds.pushAll pairs
      rw [hpush]
      refine ⟨hruns, ?_⟩
      rw [hlast, hprevious, List.getLast?_cons]
      cases (e'.accepted pairs).getLast? <;> rfl

example : (empty.pushAll [(5, some .identifierStart), (4, none), (0x110000, none),
    (6, some .identifierStart)]).state = .within 5 .identifierStart 2 := by
  rfl

theorem Holds.push_snd_eq_error_iff (h : e.Holds runs) :
    (e.push n rule).2 = .error fault ↔ e.Objection n fault := by
  refine ⟨fun hfault => ?_, fun hfault => by rw [hfault.push]⟩
  rcases h.push_cases n rule with ⟨cause, hcause, hpush⟩ | ⟨e', -, -, hpush, -⟩
  · rw [hpush] at hfault
    cases hfault
    exact hcause
  · rw [hpush] at hfault
    cases hfault

/-- What is refused is a code point beyond the code space or out of order. -/
theorem Objection.fault_eq (h : e.Objection n fault) :
    fault = .run (.startOutOfRange n) ∨ ∃ m, fault = .outOfOrder m n := by
  cases h with
  | outOfRange => exact .inl rfl
  | outOfOrder => exact .inr ⟨_, rfl⟩

theorem State.Fits.exists_shows {previous : Option Nat} {closed : List Run} : ∀ {s : State},
    s.Fits previous closed runs → ∃ current, s.Shows current ∧ runs = closed ++ current
  | .idle, h => ⟨[], .idle, by rw [h.1, List.append_nil]⟩
  | .within start rule length, h => by
    obtain ⟨r, hruns, -, rfl, rfl, rfl⟩ := h
    exact ⟨[r], .within r, hruns⟩

theorem pairwise_not_covers (h : runs.IsChain Precedes) :
    runs.Pairwise fun a b => ∀ n, ¬ (a.covers n = true ∧ b.covers n = true) := by
  refine (pairwise_before_of_isChain h).imp fun {a b} hab n ⟨ha, hb⟩ => ?_
  unfold Before at hab
  have := a.last_add_one
  rw [covers_iff] at ha hb
  omega

/-- Whatever pairs it was pushed, an encoder can be finished: the table passes its check and has the
closed runs and the run in progress, none of which cover a code point together, and knows how long
the longest of them is. -/
theorem finish_pushAll (pairs : List (Nat × Option Rule)) :
    let e := empty.pushAll pairs
    ∃ t current, e.finish = .ok t ∧ t.check = .ok ()
      ∧ e.state.Shows current ∧ t.runs.toList = e.closed.toList ++ current
      ∧ t.runs.toList.Pairwise (fun a b => ∀ n, ¬ (a.covers n = true ∧ b.covers n = true))
      ∧ t.longest = longestOf t.runs.toList := by
  intro e
  obtain ⟨⟨runs, hholds⟩, -⟩ := empty_holds.pushAll pairs
  obtain ⟨current, hshows, hruns⟩ := hholds.fits.exists_shows
  exact ⟨_, current, hholds.finish, Table.check_eq_ok_iff.2 hholds.canonical, hshows, hruns,
    pairwise_not_covers hholds.canonical, rfl⟩

theorem Holds.within (h : e.Holds runs) {start length : Nat} {rule : Rule}
    (hstate : e.state = .within start rule length) :
    0 < length ∧ length ≤ maxLength ∧ e.previous = some (start + length - 1)
      ∧ start + length - 1 ≤ CodePoint.max ∧ ∀ r ∈ e.closed.toList, r.last < start := by
  have hfits := h.fits
  rw [hstate] at hfits
  obtain ⟨r, rfl, hprevious, rfl, rfl, rfl⟩ := hfits
  have hbefore := pairwise_before_of_isChain h.canonical
  exact ⟨r.length_pos, r.length_le, hprevious, r.last_le,
    fun c hc => (List.pairwise_append.1 hbefore).2.2 c hc r (List.mem_singleton_self r)⟩

theorem length_le_of_extend? {s grown : State} (h : s.extend? n rule = some grown) :
    grown.length ≤ maxLength := by
  cases s with
  | idle => cases h
  | within start current length =>
    rw [State.extend?] at h
    split_ifs at h with hgrow
    cases h
    exact hgrow.2.1

/-- Whatever pairs an encoder was pushed, its run in progress ends with the last code point taken,
in the code space and behind all closed runs, and is not too long. So a code point that comes next
does not lie before that run, a run that grows stays short enough, the run can always be closed, and
only a code point beyond the code space or out of order is refused. -/
theorem within_pushAll (pairs : List (Nat × Option Rule)) :
    let e := empty.pushAll pairs
    (∀ start rule length, e.state = .within start rule length →
      1 ≤ length ∧ length ≤ maxLength
        ∧ (empty.accepted pairs).getLast?.map (·.1) = some (start + length - 1)
        ∧ start + length - 1 ≤ CodePoint.max ∧ ∀ r ∈ e.closed.toList, r.last < start)
    ∧ (∀ n, e.Expects n → ∀ start rule length, e.state = .within start rule length → start ≤ n)
    ∧ (∀ n rule grown, e.state.extend? n rule = some grown → grown.length ≤ maxLength)
    ∧ e.close.2 = .ok ()
    ∧ (∀ n rule fault, (e.push n rule).2 = .error fault →
      fault = .run (.startOutOfRange n) ∨ ∃ m, fault = .outOfOrder m n)
    ∧ ∃ t, e.finish = .ok t := by
  intro e
  obtain ⟨⟨runs, hholds⟩, hprevious⟩ := empty_holds.pushAll pairs
  have haccepted : e.previous = (empty.accepted pairs).getLast?.map (·.1) :=
    hprevious.trans Option.or_none
  refine ⟨fun start rule length hstate => ?_, fun n hnext start rule length hstate => ?_,
    fun n rule grown => length_le_of_extend?, ?_, fun n rule fault hfault => ?_,
    ⟨_, hholds.finish⟩⟩
  · rw [← haccepted]
    exact hholds.within hstate
  · obtain ⟨hpos, -, hlast, -, -⟩ := hholds.within hstate
    have := hnext.2 _ hlast
    omega
  · exact congrArg Prod.snd (hholds.fits.close e.previous e.longest)
  · exact (hholds.push_snd_eq_error_iff.1 hfault).fault_eq

end Encoder

end CharRuns

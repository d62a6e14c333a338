import CharRuns.CodePoint

/-!
# The positions of a cursor

Numbers may be passed over one by one or at once (`skip_eq_after`), and what has been taken away
from an interval beforehand is as good as passed over (`ofInterval_drop`). Wherever steps, jumps and
returns to saved copies lead, a position that has a number to give lies in the interval
(`Walk.Stays.after`). So how many are left settles which they are (`Along.advance_after`) and where
the cursor stands (`Along.eq_iff`), and no arithmetic on the position wraps around (`Along.exact`).
-/

namespace CharRuns

namespace Cursor

/-- The cursor `n` steps on. -/
def after (c : Cursor) : Nat → Cursor
  | 0 => c
  | n + 1 => c.advance.2.after n

/-- The differences and sums that are taken of a position are those of natural numbers. -/
structure Exact (c : Cursor) : Prop where
  count : c.drained = false → (c.last - c.next).toNat + c.next.toNat = c.last.toNat
  step : c.drained = false → c.next ≠ c.last → (c.next + 1).toNat = c.next.toNat + 1
  jump : c.drained = false → ∀ n < c.remaining,
    (c.next + UInt32.ofNat n).toNat = c.next.toNat + n

/-- The cursor stands in the interval from `first` to `last`. With nothing left it stands at the end
that it has come to, or at the start if there was nothing to give. -/
structure Along (first last : UInt32) (c : Cursor) : Prop where
  last_eq : c.last = last
  within : c.drained = false → first.toNat ≤ c.next.toNat ∧ c.next.toNat ≤ last.toNat
  rests : c.drained = true → c.next = if first ≤ last then last else first

variable {c c' : Cursor} {first last : UInt32} {n : Nat}

/-- A step gives nothing, or the last number, or a number that others follow. -/
theorem advance_cases (c : Cursor) :
    (c.drained = true ∧ c.advance = (none, c))
      ∨ (c.drained = false ∧ c.next = c.last
        ∧ c.advance = (some c.next, { c with drained := true }))
      ∨ (c.drained = false ∧ c.next ≠ c.last
        ∧ c.advance = (some c.next, { c with next := c.next + 1 })) := by
  unfold advance
  cases hdrained : c.drained with
  | true => exact .inl ⟨rfl, if_pos rfl⟩
  | false =>
    by_cases hlast : c.next = c.last
    · exact .inr (.inl ⟨rfl, hlast, by simp [hlast]⟩)
    · exact .inr (.inr ⟨rfl, hlast, by simp [hlast]⟩)

theorem remaining_of_drained (h : c.drained = true) : c.remaining = 0 := by
  rw [remaining, if_pos h]

theorem remaining_of_not_drained (h : c.drained = false) :
    c.remaining = (c.last - c.next).toNat + 1 := by
  simp only [remaining, h, Bool.false_eq_true, if_false]

theorem drained_iff : c.drained = true ↔ c.remaining = 0 := by
  refine ⟨remaining_of_drained, fun h => ?_⟩
  cases hdrained : c.drained with
  | true => rfl
  | false => cases (remaining_of_not_drained hdrained).symm.trans h

theorem advance_fst (c : Cursor) :
    c.advance.1 = if 0 < c.remaining then some c.next else none := by
  rcases advance_cases c with ⟨hdrained, hstep⟩ | ⟨-, -, hstep⟩ | ⟨-, -, hstep⟩
  · rw [hstep, remaining_of_drained hdrained, if_neg (Nat.lt_irrefl 0)]
  · rw [← remaining_of_advance hstep, hstep, if_pos (Nat.succ_pos _)]
  · rw [← remaining_of_advance hstep, hstep, if_pos (Nat.succ_pos _)]

theorem remaining_advance (c : Cursor) : c.advance.2.remaining = c.remaining - 1 := by
  rcases advance_cases c with ⟨hdrained, hstep⟩ | ⟨-, -, hstep⟩ | ⟨-, -, hstep⟩
  · rw [hstep, remaining_of_drained hdrained]
  · rw [← remaining_of_advance hstep, hstep, Nat.add_sub_cancel]
  · rw [← remaining_of_advance hstep, hstep, Nat.add_sub_cancel]

theorem remaining_after (c : Cursor) : ∀ n, (c.after n).remaining = c.remaining - n
  | 0 => rfl
  | n + 1 => by
    rw [after, remaining_after c.advance.2 n, remaining_advance, Nat.sub_sub, Nat.add_comm]

theorem not_drained_of_lt (h : n < c.remaining) : c.drained = false := by
  rw [← Bool.not_eq_true, drained_iff]
  omega

theorem skip_of_lt (h : n < c.remaining) :
    c.skip n = { c with next := c.next + UInt32.ofNat n } := by
  rw [skip, if_neg (by simp [not_drained_of_lt h]), if_pos h]

theorem skip_zero (c : Cursor) : c.skip 0 = c := by
  rcases Nat.eq_zero_or_pos c.remaining with hnone | hleft
  · rw [skip, if_pos (drained_iff.2 hnone)]
  · rw [skip_of_lt hleft]
    simp

theorem skip_succ (c : Cursor) (n : Nat) : c.skip (n + 1) = c.advance.2.skip n := by
  -- Sums and differences wrap around alike, so this holds of positions that are never reached too.
  have hstep := remaining_advance c
  rcases advance_cases c with ⟨hdrained, h⟩ | ⟨hdrained, hlast, h⟩ | ⟨hdrained, hlast, h⟩
  · simp [h, skip, hdrained]
  · have hone : c.remaining = 1 := by simp [remaining_of_not_drained hdrained, hlast]
    simp [h, skip, hdrained, hone, hlast]
  · rw [h] at hstep ⊢
    have hlive : ¬ c.drained = true := by simp [hdrained]
    have hnext : c.next + UInt32.ofNat (n + 1) = c.next + 1 + UInt32.ofNat n := by
      rw [UInt32.ofNat_add, UInt32.add_comm (UInt32.ofNat n), UInt32.add_assoc]
      rfl
    rw [skip, if_neg hlive, skip, if_neg hlive, hstep]
    by_cases hn : n + 1 < c.remaining
    · rw [if_pos hn, if_pos (by omega), hnext]
    · rw [if_neg hn, if_neg (by omega)]

theorem skip_eq_after (c : Cursor) : ∀ n, c.skip n = c.after n
  | 0 => skip_zero c
  | n + 1 => by rw [skip_succ, skip_eq_after c.advance.2 n, after]

theorem advance_after (c : Cursor) (n : Nat) : (c.after n).advance.1
    = if n < c.remaining then some (c.next + UInt32.ofNat n) else none := by
  rw [advance_fst, remaining_after]
  by_cases hn : n < c.remaining
  · rw [if_pos (Nat.sub_pos_of_lt hn), if_pos hn, ← skip_eq_after, skip_of_lt hn]
  · rw [if_neg (by omega), if_neg hn]

/-- A sum that does not go past a number is that of the natural numbers. -/
theorem toNat_add_ofNat {a b : UInt32} (h : a.toNat + n ≤ b.toNat) :
    (a + UInt32.ofNat n).toNat = a.toNat + n := by
  have hsum : a.toNat + n < UInt32.size := Nat.lt_of_le_of_lt h b.toNat_lt
  rw [UInt32.toNat_add, UInt32.toNat_ofNat_of_lt' (by omega)]
  exact Nat.mod_eq_of_lt hsum

/-- A number taken away from an interval is as good as passed over. -/
theorem ofInterval_dropFirst (i : Interval) :
    ofInterval i.dropFirst = (ofInterval i).advance.2 := by
  rcases advance_cases (ofInterval i) with
    ⟨hempty, hstep⟩ | ⟨hempty, hlast, hstep⟩ | ⟨hempty, hlast, hstep⟩
  · rw [hstep, Interval.dropFirst, if_pos (show i.isEmpty = true from hempty)]
  · -- Neither end moves for the last number; both are marked instead.
    replace hempty : i.isEmpty = false := hempty
    replace hlast : i.first = i.last := hlast
    have hstop : ¬ i.first < i.last := hlast ▸ UInt32.lt_irrefl i.first
    rw [hstep, Interval.dropFirst, if_neg (by simp [hempty]), if_neg hstop]
    rfl
  · -- What is left must not look empty to a cursor that is made of it.
    replace hempty : i.isEmpty = false := hempty
    replace hlast : i.first ≠ i.last := hlast
    obtain ⟨hused, hle⟩ := Interval.isEmpty_eq_false_iff.1 hempty
    have hlt : i.first.toNat < i.last.toNat :=
      Nat.lt_of_le_of_ne hle fun h => hlast (UInt32.toNat_inj.1 h)
    have hleft : ({ i with first := i.first + 1 } : Interval).isEmpty = false := by
      have hnext : (i.first + 1).toNat = i.first.toNat + 1 := toNat_add_ofNat (n := 1) hlt
      exact Interval.isEmpty_eq_false_iff.2 ⟨hused, hnext ▸ hlt⟩
    rw [hstep, Interval.dropFirst, if_neg (by simp [hempty]), if_pos (UInt32.lt_iff_toNat_lt.2 hlt)]
    simp only [ofInterval, hleft, hempty]

theorem ofInterval_drop (i : Interval) : ∀ n, ofInterval (i.drop n) = (ofInterval i).after n
  | 0 => rfl
  | n + 1 => by rw [Interval.drop, ofInterval_drop i.dropFirst n, ofInterval_dropFirst, after]

theorem ofInterval_between_drained_iff :
    (ofInterval (.between first last)).drained = false ↔ first.toNat ≤ last.toNat :=
  (Interval.isEmpty_eq_false_iff (i := .between first last)).trans ⟨And.right, fun h => ⟨rfl, h⟩⟩

theorem Along.ofInterval_between (first last : UInt32) :
    Along first last (ofInterval (.between first last)) := by
  refine ⟨rfl, fun hlive => ?_, fun hdrained => ?_⟩
  · exact ⟨Nat.le_refl _, ofInterval_between_drained_iff.1 hlive⟩
  · have hgap : ¬ first ≤ last := fun hle => by
      cases hdrained.symm.trans (ofInterval_between_drained_iff.2 (UInt32.le_iff_toNat_le.1 hle))
    rw [if_neg hgap]
    rfl

/-- As long as something is left, it reaches from the position to the end. -/
theorem Along.next_add_remaining (h : Along first last c) (hlive : c.drained = false) :
    c.next.toNat + c.remaining = last.toNat + 1 := by
  obtain ⟨-, hle⟩ := h.within hlive
  rw [remaining_of_not_drained hlive, h.last_eq,
    UInt32.toNat_sub_of_le last c.next (UInt32.le_iff_toNat_le.2 hle)]
  omega

theorem Along.next_lt (h : Along first last c) (hlive : c.drained = false) (hne : c.next ≠ c.last) :
    c.next.toNat < last.toNat :=
  Nat.lt_of_le_of_ne (h.within hlive).2 fun heq =>
    hne ((UInt32.toNat_inj.1 heq).trans h.last_eq.symm)

theorem Along.exact (h : Along first last c) : c.Exact where
  count hlive := by
    have hsum := h.next_add_remaining hlive
    rw [remaining_of_not_drained hlive, ← h.last_eq] at hsum
    omega
  step hlive hne := toNat_add_ofNat (n := 1) (h.next_lt hlive hne)
  jump hlive n hn := by
    have hsum := h.next_add_remaining hlive
    exact toNat_add_ofNat (b := last) (by omega)

theorem remaining_ofInterval_between (first last : UInt32) :
    (ofInterval (.between first last)).remaining = last.toNat + 1 - first.toNat := by
  cases hdrained : (ofInterval (.between first last)).drained with
  | true =>
    have hgap : ¬ first.toNat ≤ last.toNat := fun hle => by
      cases hdrained.symm.trans (ofInterval_between_drained_iff.2 hle)
    rw [remaining_of_drained hdrained]
    omega
  | false =>
    have hsum : first.toNat + (ofInterval (.between first last)).remaining = last.toNat + 1 :=
      (Along.ofInterval_between first last).next_add_remaining hdrained
    omega

theorem Along.advance (h : Along first last c) : Along first last c.advance.2 := by
  rcases advance_cases c with ⟨-, hstep⟩ | ⟨hlive, hlast, hstep⟩ | ⟨hlive, hlast, hstep⟩
  · rwa [hstep]
  · obtain ⟨hfirst, hle⟩ := h.within hlive
    rw [hstep]
    refine ⟨h.last_eq, nofun, fun _ => ?_⟩
    rw [if_pos (UInt32.le_iff_toNat_le.2 (Nat.le_trans hfirst hle))]
    exact hlast.trans h.last_eq
  · obtain ⟨hfirst, hle⟩ := h.within hlive
    have hlt := h.next_lt hlive hlast
    have hnext := h.exact.step hlive hlast
    rw [hstep]
    refine ⟨h.last_eq, fun _ => ?_, fun hdrained => ?_⟩
    · simp only [hnext]
      omega
    · cases hlive.symm.trans hdrained

theorem Along.after : ∀ {c : Cursor} (n : Nat), Along first last c → Along first last (c.after n)
  | _, 0, h => h
  | _, n + 1, h => h.advance.after n

/-- The numbers that a position still gives are the last ones of the interval. -/
theorem Along.advance_after (h : Along first last c) (n : Nat) : (c.after n).advance.1
    = if n < c.remaining then some (UInt32.ofNat (last.toNat + 1 - c.remaining + n)) else none := by
  rw [Cursor.advance_after]
  by_cases hn : n < c.remaining
  · have hlive := not_drained_of_lt hn
    have hsum := h.next_add_remaining hlive
    have hvalue : (c.next + UInt32.ofNat n).toNat = last.toNat + 1 - c.remaining + n := by
      rw [h.exact.jump hlive n hn]
      omega
    rw [if_pos hn, if_pos hn, ← hvalue, UInt32.ofNat_toNat]
  · rw [if_neg hn, if_neg hn]

theorem Along.eq_iff (h : Along first last c) (h' : Along first last c') :
    c = c' ↔ c.remaining = c'.remaining := by
  refine ⟨congrArg remaining, fun hsame => ?_⟩
  have hlast := h.last_eq.trans h'.last_eq.symm
  cases hdrained : c.drained with
  | true =>
    have hdrained' : c'.drained = true := drained_iff.2 (hsame ▸ drained_iff.1 hdrained)
    have hnext := (h.rests hdrained).trans (h'.rests hdrained').symm
    exact Cursor.ext hnext hlast (hdrained.trans hdrained'.symm)
  | false =>
    have hleft : 0 < c'.remaining := by
      rw [← hsame, remaining_of_not_drained hdrained]
      exact Nat.succ_pos _
    have hdrained' := not_drained_of_lt hleft
    have hsum := h.next_add_remaining hdrained
    have hsum' := h'.next_add_remaining hdrained'
    have hnext : c.next = c'.next := UInt32.toNat_inj.1 (by omega)
    exact Cursor.ext hnext hlast (hdrained.trans hdrained'.symm)

end Cursor

/-- What can be done with a cursor of which copies are kept. -/
inductive Move where
  | advance
  | nth (n : Nat)
  | save
  /-- Goes back to a copy. They are numbered from zero, in the order in which they were made. -/
  | restore (index : Nat)
  deriving DecidableEq, Repr

/-- A cursor in use and the copies made of it. -/
structure Walk where
  cursor : Cursor
  saved : List Cursor
  deriving DecidableEq, Repr

namespace Walk

/-- A cursor before any move. -/
def start (c : Cursor) : Walk :=
  { cursor := c, saved := [] }

/-- The walk after one move. Without a copy of that number the cursor stays. -/
def move (w : Walk) : Move → Walk
  | .advance => { w with cursor := w.cursor.advance.2 }
  | .nth n => { w with cursor := (w.cursor.nth n).2 }
  | .save => { w with saved := w.saved ++ [w.cursor] }
  | .restore index => { w with cursor := w.saved.getD index w.cursor }

/-- The walk after moves in turn. -/
def after (w : Walk) (moves : List Move) : Walk :=
  moves.foldl move w

/-- The cursor and its copies stand in the interval from `first` to `last`. -/
structure Stays (first last : UInt32) (w : Walk) : Prop where
  cursor : w.cursor.Along first last
  saved : ∀ c ∈ w.saved, c.Along first last

variable {w : Walk} {first last : UInt32}

theorem Stays.move (h : w.Stays first last) (m : Move) : (w.move m).Stays first last := by
  cases m with
  | advance => exact ⟨h.cursor.advance, h.saved⟩
  | nth n =>
    refine ⟨?_, h.saved⟩
    simp only [Walk.move, Cursor.nth, Cursor.skip_eq_after]
    exact (h.cursor.after n).advance
  | save =>
    refine ⟨h.cursor, fun c hc => ?_⟩
    rcases List.mem_append.1 hc with hold | hnew
    · exact h.saved c hold
    · rw [List.mem_singleton.1 hnew]
      exact h.cursor
  | restore index =>
    refine ⟨?_, h.saved⟩
    simp only [Walk.move, List.getD_eq_getElem?_getD]
    cases hcopy : w.saved[index]? with
    | none => exact h.cursor
    | some c => exact h.saved c (List.mem_of_getElem? hcopy)

theorem Stays.after : ∀ {w : Walk} (moves : List Move), w.Stays first last →
    (w.after moves).Stays first last
  | _, [], h => h
  | _, m :: moves, h => (h.move m).after moves

end Walk

/-- What is left of an interval is given upwards, number by number, and then nothing more. Wherever
steps, jumps and returns to saved copies lead, the cursor knows how many numbers are left, a jump
gives what as many steps would, no arithmetic wraps around, and two positions are equal just if as
many numbers are left at both. -/
theorem Cursor.ofInterval_outcome (first last : UInt32) (taken : Nat) :
    let fresh := ofInterval ((Interval.between first last).drop taken)
    let position (moves : List Move) := ((Walk.start fresh).after moves).cursor
    (∀ n, (fresh.after n).advance.1
        = if first.toNat + taken + n ≤ last.toNat
          then some (UInt32.ofNat (first.toNat + taken + n)) else none)
      ∧ (∀ moves, let c := position moves
        (∀ n, (c.after n).advance.1
            = if n < c.remaining
              then some (UInt32.ofNat (last.toNat + 1 - c.remaining + n)) else none)
          ∧ (∀ n, c.nth n = (c.after n).advance)
          ∧ c.Exact)
      ∧ ∀ moves moves', position moves = position moves'
        ↔ (position moves).remaining = (position moves').remaining := by
  intro fresh position
  have hpassed : fresh = (ofInterval (.between first last)).after taken := ofInterval_drop _ taken
  have hfresh : Along first last fresh := by
    rw [hpassed]
    exact (Along.ofInterval_between first last).after taken
  have hleft : fresh.remaining = last.toNat + 1 - first.toNat - taken := by
    rw [hpassed, remaining_after, remaining_ofInterval_between]
  have hposition (moves : List Move) : Along first last (position moves) :=
    (Walk.Stays.after moves ⟨hfresh, List.forall_mem_nil _⟩).cursor
  refine ⟨fun n => ?_, fun moves => ?_, fun moves moves' => ?_⟩
  · rw [hfresh.advance_after n]
    by_cases hn : n < fresh.remaining
    · have hvalue : last.toNat + 1 - fresh.remaining + n = first.toNat + taken + n := by omega
      rw [if_pos hn, if_pos (by omega), hvalue]
    · rw [if_neg hn, if_neg (by omega)]
  · exact ⟨(hposition moves).advance_after, fun n => by rw [nth, skip_eq_after],
      (hposition moves).exact⟩
  · exact (hposition moves).eq_iff (hposition moves')

/-- The greatest number of 32 bits is given too, and only once. -/
example :
    let c := Cursor.ofInterval ((Interval.between 0xFFFFFFFC 0xFFFFFFFF).drop 1)
    let w := (Walk.start c).after [.save, .nth 1, .save, .advance, .advance, .restore 1]
    w.cursor.remaining = 1 ∧ w.cursor.advance.1 = some 0xFFFFFFFF
      ∧ w.cursor.advance.2.advance = (none, c.skip 3) := by
  decide

end CharRuns

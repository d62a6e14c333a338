import CharRuns.Generation
import CharRuns.Proofs.CursorPositions
import CharRuns.Proofs.Expansion

/-!
# The table of a database is complete

A cursor gives the encoder the numbers that are left to it, up to the end of its interval and in
order (`feedAlong_eq_feedAll`), so a table is made of the code points of the code space and of
nothing else (`feedAlong_codeSpace`). Whatever a database holds, also at numbers beyond the code
space or inside its blocks, a classifier has a table for it: encoding the code space in order is
never refused and the check always passes. The table gives each code point its verdict and no rule
to anything else (`ruleAt_tabulate`).
-/

namespace CharRuns

namespace Encoder

variable {c c' : Cursor} {first last n : UInt32} {verdict : Nat → Option Rule}

theorem feedAlong_of_none (e : Encoder) (h : c.advance = (none, c')) :
    e.feedAlong verdict c = .ok e := by
  unfold feedAlong
  split
  · rfl
  · rename_i hstep
    cases h.symm.trans hstep

theorem feedAlong_of_some (e : Encoder) (h : c.advance = (some n, c')) :
    e.feedAlong verdict c
      = (e.feed n.toNat (verdict n.toNat)).bind fun e => e.feedAlong verdict c' := by
  rw [feedAlong]
  split
  · rename_i hstep
    cases h.symm.trans hstep
  · rename_i hstep
    cases h.symm.trans hstep
    cases e.feed n.toNat (verdict n.toNat) <;> rfl

/-- What the encoder takes along a cursor are the numbers up to the end of its interval, as many as
are left. -/
theorem feedAlong_eq_feedAll (verdict : Nat → Option Rule) {left : Nat} (e : Encoder)
    (h : c.Along first last) (hleft : c.remaining = left) : e.feedAlong verdict c
      = e.feedAll ((List.range' (last.toNat + 1 - left) left).map fun n => (n, verdict n)) := by
  induction left generalizing e c with
  | zero =>
    have hdrained := Cursor.drained_iff.2 hleft
    rw [feedAlong_of_none e (by rw [Cursor.advance, if_pos hdrained])]
    rfl
  | succ left ih =>
    have hlive : c.drained = false := Cursor.not_drained_of_lt (n := 0) (by omega)
    have hsum := h.next_add_remaining hlive
    have hstep : c.advance = (some c.next, c.advance.2) :=
      Prod.ext (by rw [Cursor.advance_fst, if_pos (by omega)]) rfl
    have hnext : last.toNat + 1 - (left + 1) = c.next.toNat := by omega
    rw [feedAlong_of_some e hstep, hnext, List.range'_succ, List.map_cons, feedAll_cons]
    congr 1
    funext e'
    rw [ih e' h.advance (by rw [Cursor.remaining_advance, hleft]; rfl)]
    congr 3
    omega

/-- The cursor of the code space gives all its code points, from zero to the last. -/
theorem feedAlong_codeSpace (verdict : Nat → Option Rule) (e : Encoder) :
    e.feedAlong verdict .codeSpace
      = e.feedAll ((List.range (CodePoint.max + 1)).map fun n => (n, verdict n)) := by
  have hleft : Cursor.codeSpace.remaining = CodePoint.max + 1 := by decide
  have halong : Cursor.codeSpace.Along 0 (UInt32.ofNat CodePoint.max) := .ofInterval_between _ _
  have hzero : (UInt32.ofNat CodePoint.max).toNat + 1 - (CodePoint.max + 1) = 0 := by decide
  rw [feedAlong_eq_feedAll verdict e halong hleft, hzero, List.range_eq_range']

end Encoder

namespace Classifier

open Run

theorem tabulate_eq_ok (c : Classifier) (db : Database) :
    ∃ runs : List Run, c.tabulate db = .ok ⟨runs.toArray, longestOf runs⟩
      ∧ runs.IsChain Precedes
      ∧ ∀ n, scan runs n = if n ≤ CodePoint.max then c.verdict db n else none := by
  obtain ⟨runs, hencode, hcanonical, hscan⟩ := encode_codeSpace (c.verdict db)
  refine ⟨runs, ?_, hcanonical, hscan⟩
  have hcheck : Table.check ⟨runs.toArray, longestOf runs⟩ = .ok () :=
    Table.check_eq_ok_iff.2 hcanonical
  rw [encode] at hencode
  rw [tabulate, Encoder.feedAlong_codeSpace, hencode]
  simp only [hcheck]

/-- A database always has a table, and it gives the code points the rules that the classifier gives
them with their categories in the database. -/
theorem ruleAt_tabulate (c : Classifier) (db : Database) :
    ∃ t, c.tabulate db = .ok t
      ∧ ∀ n, t.ruleAt n = if n ≤ CodePoint.max then c.classify n (db.categoryAt? n) else none := by
  obtain ⟨runs, htable, hcanonical, hscan⟩ := c.tabulate_eq_ok db
  refine ⟨_, htable, fun n => ?_⟩
  rw [Table.ruleAt_of_isChain hcanonical, hscan, verdict]

end Classifier

end CharRuns

import CharRuns.Database
import CharRuns.Proofs.Boundary
import Mathlib.Data.List.Pairwise

/-!
# What a database says of a code point

In a database whose blocks ascend, the search on their starts finds the one block around a code
point (`blockAt?_eq_find?`). A database that holds ascending entries, blocks as blocks and single
ones as such, gives a code point the character of the entry that covers it
(`Holds.characterAt?_eq`).
-/

namespace CharRuns

namespace Entry

/-- The code point is one of those that the entry defines. -/
def covers (e : Entry) (n : Nat) : Bool :=
  e.first ≤ n && n ≤ e.last

theorem covers_iff {e : Entry} {n : Nat} : e.covers n = true ↔ e.first ≤ n ∧ n ≤ e.last := by
  simp [covers]

theorem find?_covers_eq_none {entries : List Entry} {n : Nat}
    (h : ∀ e ∈ entries, e.first ≤ n → e.last < n) : entries.find? (·.covers n) = none := by
  refine List.find?_eq_none.2 fun e he hcovers => ?_
  rw [covers_iff] at hcovers
  have := h e he hcovers.1
  omega

/-- The entries ascend, none is empty and no two meet. -/
structure Ascending (entries : List Entry) : Prop where
  pairwise : entries.Pairwise fun a b => a.last < b.first
  first_le_last : ∀ e ∈ entries, e.first ≤ e.last

theorem Ascending.nil : Ascending [] :=
  ⟨.nil, by simp⟩

theorem Ascending.cons {e : Entry} {entries : List Entry} (h : Ascending entries)
    (he : e.first ≤ e.last) (hbefore : ∀ a ∈ entries, e.last < a.first) :
    Ascending (e :: entries) :=
  ⟨h.pairwise.cons hbefore, List.forall_mem_cons.2 ⟨he, h.first_le_last⟩⟩

theorem Ascending.of_cons {e : Entry} {entries : List Entry} (h : Ascending (e :: entries)) :
    Ascending entries :=
  ⟨h.pairwise.of_cons, fun a ha => h.first_le_last a (List.mem_cons_of_mem _ ha)⟩

theorem Ascending.filter {entries : List Entry} (h : Ascending entries) (p : Entry → Bool) :
    Ascending (entries.filter p) :=
  ⟨h.pairwise.filter p, fun a ha => h.first_le_last a (List.mem_filter.1 ha).1⟩

theorem Ascending.not_covers {e : Entry} {entries : List Entry} (h : Ascending (e :: entries))
    {n : Nat} (hn : n ≤ e.last) : ∀ a ∈ entries, ¬ a.first ≤ n := by
  intro a ha
  have := List.rel_of_pairwise_cons h.pairwise ha
  omega

theorem Ascending.pairwise_disjoint {entries : List Entry} (h : Ascending entries) :
    entries.Pairwise fun a b => ∀ n, ¬ (a.covers n = true ∧ b.covers n = true) := by
  refine h.pairwise.imp fun {a b} hab n hboth => ?_
  simp only [covers_iff] at hboth
  omega

theorem Ascending.eq_of_covers {entries : List Entry} (h : Ascending entries) {a b : Entry}
    (ha : a ∈ entries) (hb : b ∈ entries) {n : Nat} (han : a.covers n = true)
    (hbn : b.covers n = true) : a = b := by
  have hsymm : Std.Symm fun a b : Entry => ∀ n, ¬ (a.covers n = true ∧ b.covers n = true) :=
    ⟨fun _ _ hab n hba => hab n hba.symm⟩
  by_contra hne
  exact h.pairwise_disjoint.forall ha hb hne n ⟨han, hbn⟩

/-- Entries that ascend have different starts. -/
theorem Ascending.eq_of_first_eq {entries : List Entry} (h : Ascending entries) {a b : Entry}
    (ha : a ∈ entries) (hb : b ∈ entries) (hfirst : a.first = b.first) : a = b := by
  have hastart : a.covers a.first = true := covers_iff.2 ⟨le_rfl, h.first_le_last a ha⟩
  have hbstart : b.covers b.first = true := covers_iff.2 ⟨le_rfl, h.first_le_last b hb⟩
  exact h.eq_of_covers ha hb hastart (hfirst ▸ hbstart)

end Entry

namespace Database

open Entry

theorem partitioned_first {blocks : List Entry} (h : Ascending blocks) (n : Nat) :
    Search.Partitioned (fun block => decide (block.first ≤ n)) blocks := by
  refine h.pairwise.imp_of_mem fun {a b} ha _ hab hb => ?_
  have := h.first_le_last a ha
  simp only [decide_eq_true_eq] at hb ⊢
  omega

/-- The last block that does not start after a code point is the only one that may cover it. -/
theorem find?_covers_append_cons {front back : List Entry} {b : Entry}
    (h : Ascending (front ++ b :: back)) {n : Nat} (hb : b.first ≤ n)
    (hback : ∀ a ∈ back, ¬ a.first ≤ n) :
    (front ++ b :: back).find? (·.covers n) = if n ≤ b.last then some b else none := by
  have hfront : front.find? (·.covers n) = none := find?_covers_eq_none fun a ha _ =>
    ((List.pairwise_append.1 h.pairwise).2.2 a ha b List.mem_cons_self).trans_le hb
  have hback : back.find? (·.covers n) = none :=
    find?_covers_eq_none fun a ha hle => absurd hle (hback a ha)
  have hcovers : b.covers n = decide (n ≤ b.last) := by simp [covers, hb]
  rw [List.find?_append, hfront, List.find?_cons, hcovers, hback]
  by_cases hlast : n ≤ b.last
  · simp [hlast]
  · simp [hlast]

theorem blockAt?_eq_find? {db : Database} (h : Ascending db.blocks.toList) (n : Nat) :
    db.blockAt? n = db.blocks.toList.find? (·.covers n) := by
  obtain ⟨front, back, hblocks, hboundary, hfront, hback⟩ :=
    Search.exists_split_at_boundary (partitioned_first h n)
  simp only [decide_eq_true_eq] at hfront hback
  rw [blockAt?, hboundary]
  rcases List.eq_nil_or_concat front with rfl | ⟨init, b, rfl⟩
  · rw [hblocks, List.nil_append]
    exact (find?_covers_eq_none fun a ha hle => absurd hle (hback a ha)).symm
  · simp only [List.concat_eq_append, List.append_assoc, List.singleton_append] at hblocks hfront ⊢
    rw [hblocks] at h
    rw [hblocks, find?_covers_append_cons h (hfront b (by simp)) hback, List.length_append]
    simp [← Array.getElem?_toList, hblocks, Option.filter_some]

theorem characterAt?_define (db : Database) (n : Nat) (character : Character) (m : Nat) :
    (db.define n character).2.characterAt? m
      = if m = n then some character else db.characterAt? m := by
  simp only [characterAt?, define, Std.TreeMap.getElem?_insert]
  by_cases hm : m = n
  · simp [hm]
  · simp [hm, Ne.symm hm, blockAt?]

/-- The database holds the entries, those of one code point as single definitions. -/
structure Holds (db : Database) (entries : List Entry) : Prop where
  singles : ∀ n : Nat, db.singles[n]?
    = (entries.find? fun e => decide (e.first = n ∧ e.last = n)).map (·.character)
  blocks : db.blocks.toList = entries.filter fun e => decide (e.first < e.last)

theorem empty_holds : empty.Holds [] where
  singles _ := by simp [empty]
  blocks := rfl

/-- Looking among the single entries before the blocks finds the entry that covers `n`. -/
theorem find?_single_or_block : ∀ {entries : List Entry}, Ascending entries → ∀ n : Nat,
    (entries.find? fun e => decide (e.first = n ∧ e.last = n)).or
      ((entries.filter fun e => decide (e.first < e.last)).find? (·.covers n))
      = entries.find? (·.covers n)
  | [], _, _ => rfl
  | e :: entries, h, n => by
    have ih := find?_single_or_block h.of_cons n
    have hle := h.first_le_last e List.mem_cons_self
    by_cases hcovers : e.covers n = true
    · rw [covers_iff] at hcovers
      have hnone : (entries.find? fun e => decide (e.first = n ∧ e.last = n)) = none := by
        refine List.find?_eq_none.2 fun a ha hsingle => ?_
        have := h.not_covers hcovers.2 a ha
        simp only [decide_eq_true_eq] at hsingle
        omega
      by_cases hblock : e.first < e.last
      · have : ¬ (e.first = n ∧ e.last = n) := by omega
        rw [List.find?_cons_of_neg (by simpa using this), hnone]
        simp [covers, hcovers, hblock]
      · have : e.first = n ∧ e.last = n := by omega
        simp [covers, this]
    · have : ¬ (e.first = n ∧ e.last = n) := by
        rw [covers_iff] at hcovers
        omega
      by_cases hblock : e.first < e.last
      · simpa [hcovers, hblock, this] using ih
      · simpa [hcovers, hblock, this] using ih

/-- A code point has the character of the entry that covers it. -/
theorem Holds.characterAt?_eq {db : Database} {entries : List Entry} (h : db.Holds entries)
    (hascend : Ascending entries) (n : Nat) :
    db.characterAt? n = (entries.find? (·.covers n)).map (·.character) := by
  have hblocks : Ascending db.blocks.toList := h.blocks ▸ hascend.filter _
  rw [← find?_single_or_block hascend, ← h.blocks, ← blockAt?_eq_find? hblocks, Option.map_or,
    ← h.singles, characterAt?]
  cases db.singles[n]? <;> rfl

theorem Holds.define {db : Database} {entries : List Entry} (h : db.Holds entries) {n : Nat}
    (hn : ∀ e ∈ entries, e.first < n) (character : Character) :
    (db.define n character).2.Holds (entries ++ [⟨n, n, character⟩]) where
  singles m := by
    rw [Database.define, List.find?_append, Option.map_or, ← h.singles m,
      Std.TreeMap.getElem?_insert]
    by_cases hm : n = m
    · subst hm
      have hnone : db.singles[n]? = none := by
        rw [h.singles, Option.map_eq_none_iff, List.find?_eq_none]
        intro e he hsingle
        have := hn e he
        simp only [decide_eq_true_eq] at hsingle
        omega
      simp [hnone]
    · simp [hm]
  blocks := by
    rw [Database.define, List.filter_append, ← h.blocks]
    simp

theorem Holds.push {db : Database} {entries : List Entry} (h : db.Holds entries) {block : Entry}
    (hblock : block.first < block.last) :
    Holds { db with blocks := db.blocks.push block } (entries ++ [block]) where
  singles n := by
    have : ¬ (block.first = n ∧ block.last = n) := by omega
    rw [List.find?_append]
    simp [this, h.singles n]
  blocks := by
    rw [List.filter_append, ← h.blocks, Array.toList_push]
    simp [hblock]

end Database

end CharRuns

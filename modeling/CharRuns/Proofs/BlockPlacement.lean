import CharRuns.Proofs.DatabaseEntries

/-!
# Placing a block

Where the blocks of a database ascend, a new block is refused for the lowest block that it meets,
or it is put between the blocks before and behind it (`defineBlock_places`): if it does not meet
its two neighbours, the search for its place shows that it meets no block at all. A block that is
taken leaves the blocks ascending (`Orderly.defineBlock`).
-/

namespace CharRuns

namespace Entry

/-- Some code point lies in both. -/
def Meets (a b : Entry) : Prop :=
  ∃ n, a.covers n = true ∧ b.covers n = true

theorem Meets.symm {a b : Entry} : a.Meets b → b.Meets a
  | ⟨n, ha, hb⟩ => ⟨n, hb, ha⟩

theorem meets_iff {a b : Entry} (ha : a.first ≤ a.last) (hb : b.first ≤ b.last) :
    a.Meets b ↔ a.first ≤ b.last ∧ b.first ≤ a.last := by
  unfold Meets
  simp only [covers_iff]
  constructor
  · rintro ⟨n, hn⟩
    omega
  · intro h
    exact ⟨max a.first b.first, by omega⟩

theorem not_meets_of_last_lt {a b : Entry} (h : a.last < b.first) : ¬ a.Meets b := by
  rintro ⟨n, ha, hb⟩
  rw [covers_iff] at ha hb
  omega

end Entry

namespace Database

open Entry

variable {db db' : Database} {block : Entry}

/-- The blocks ascend and end within the code space. -/
structure Orderly (db : Database) : Prop where
  ascending : Ascending db.blocks.toList
  last_le_max : ∀ b ∈ db.blocks.toList, b.last ≤ CodePoint.max

theorem Holds.orderly {entries : List Entry} (h : db.Holds entries) (hascend : Ascending entries)
    (hmax : ∀ e ∈ entries, e.last ≤ CodePoint.max) : db.Orderly where
  ascending := h.blocks ▸ hascend.filter _
  last_le_max b hb := hmax b (List.mem_filter.1 (h.blocks ▸ hb)).1

/-- What comes of a new block. -/
inductive Places (db : Database) (block : Entry) : Except Fault Database → Prop where
  | invalid (h : block.last < block.first ∨ CodePoint.max < block.last) :
      Places db block (.error (.invalidBlock block.first block.last))
  | overlap {front back : List Entry} {b : Entry} (hle : block.first ≤ block.last)
      (hmax : block.last ≤ CodePoint.max) (hblocks : db.blocks.toList = front ++ b :: back)
      (hfront : ∀ a ∈ front, a.last < block.first) (hmeets : b.Meets block) :
      Places db block (.error (.overlap block.first block.last b.first b.last))
  | fits {front back : List Entry} (hle : block.first ≤ block.last)
      (hmax : block.last ≤ CodePoint.max) (hblocks : db.blocks.toList = front ++ back)
      (hfront : ∀ a ∈ front, a.last < block.first) (hback : ∀ c ∈ back, block.last < c.first) :
      Places db block (.ok { db with blocks := (front ++ block :: back).toArray })

theorem insertIdx_length_append {α : Type _} (a : α) (back : List α) :
    ∀ front : List α, (front ++ back).insertIdx front.length a = front ++ a :: back
  | [] => List.insertIdx_zero
  | b :: front => by
    rw [List.cons_append, List.length_cons, List.insertIdx_succ_cons,
      insertIdx_length_append a back front, List.cons_append]

theorem clash?_eq_or {front back : List Entry} (hblocks : db.blocks.toList = front ++ back) :
    db.clash? block front.length = (front.getLast?.filter (block.first ≤ ·.last)).or
      (back.head?.filter (·.first ≤ block.last)) := by
  have hback : db.blocks[front.length]? = back.head? := by
    rw [← Array.getElem?_toList, hblocks, List.getElem?_append_right le_rfl, Nat.sub_self,
      List.head?_eq_getElem?]
  unfold clash?
  rw [hback]
  rcases List.eq_nil_or_concat front with rfl | ⟨init, a, rfl⟩
  · rfl
  · have hlast : db.blocks[init.length]? = some a := by
      rw [← Array.getElem?_toList, hblocks]
      simp
    simp [hlast]

theorem insert_blocks_eq {front back : List Entry} (hblocks : db.blocks.toList = front ++ back) :
    db.blocks.insertIdxIfInBounds front.length block = (front ++ block :: back).toArray := by
  obtain ⟨singles, ⟨blocks⟩⟩ := db
  obtain rfl : blocks = front ++ back := hblocks
  rw [List.insertIdxIfInBounds_toArray, insertIdx_length_append]

/-- When no block before the place of the new one reaches it, the next one behind it decides. -/
theorem places_of_before {front back : List Entry} (hle : block.first ≤ block.last)
    (hmax : block.last ≤ CodePoint.max) (h : Ascending db.blocks.toList)
    (hblocks : db.blocks.toList = front ++ back) (hfront : ∀ a ∈ front, a.last < block.first)
    (hback : ∀ c ∈ back, block.first ≤ c.first) :
    db.Places block (match back.head?.filter (·.first ≤ block.last) with
      | some b => .error (.overlap block.first block.last b.first b.last)
      | none => .ok { db with
          blocks := db.blocks.insertIdxIfInBounds front.length block }) := by
  rw [insert_blocks_eq hblocks]
  rcases back with _ | ⟨c, rest⟩
  · exact .fits hle hmax hblocks hfront (by simp)
  have hc := h.first_le_last c (by simp [hblocks])
  by_cases hreach : c.first ≤ block.last
  · simp only [List.head?_cons, Option.filter_some, hreach, decide_true, if_true]
    refine .overlap hle hmax hblocks hfront ((meets_iff hc hle).2 ⟨hreach, ?_⟩)
    exact (hback c List.mem_cons_self).trans hc
  · simp only [List.head?_cons, Option.filter_some, hreach, decide_false]
    refine .fits hle hmax hblocks hfront fun d hd => ?_
    rw [hblocks] at h
    rcases List.mem_cons.1 hd with rfl | hd
    · exact not_le.1 hreach
    · have hpairwise := List.pairwise_cons.1 (List.pairwise_append.1 h.pairwise).2.1
      have := hpairwise.1 d hd
      omega

theorem defineBlock_places (h : Ascending db.blocks.toList) (block : Entry) :
    db.Places block (db.defineBlock block) := by
  have hpart : Search.Partitioned (fun b => decide (b.first < block.first)) db.blocks.toList := by
    refine h.pairwise.imp_of_mem fun {a b} ha _ hab hb => ?_
    have := h.first_le_last a ha
    simp only [decide_eq_true_eq] at hb ⊢
    omega
  obtain ⟨front, back, hblocks, hboundary, hfront, hback⟩ := Search.exists_split_at_boundary hpart
  simp only [decide_eq_true_eq, not_lt] at hfront hback
  unfold defineBlock
  split_ifs with hvalid
  · exact .invalid hvalid
  obtain ⟨hle, hmax⟩ : block.first ≤ block.last ∧ block.last ≤ CodePoint.max := by omega
  simp only [hboundary, clash?_eq_or hblocks]
  rcases List.eq_nil_or_concat front with rfl | ⟨init, a, rfl⟩
  · exact places_of_before hle hmax h hblocks (by simp) hback
  rw [List.concat_eq_append] at hblocks hfront ⊢
  have ha := hfront a (by simp)
  have hsplit := hblocks
  rw [List.append_assoc, List.singleton_append] at hsplit
  -- All blocks before `a` end before it starts, so they end before the new one does.
  have hinit : ∀ x ∈ init, x.last < block.first := fun x hx => by
    have hpairwise := h.pairwise
    rw [hsplit] at hpairwise
    exact ((List.pairwise_append.1 hpairwise).2.2 x hx a List.mem_cons_self).trans ha
  rw [List.getLast?_concat, Option.filter_some]
  by_cases hreach : block.first ≤ a.last
  · simp only [hreach, decide_true, if_true, Option.some_or]
    refine .overlap hle hmax hsplit hinit ((meets_iff ?_ hle).2 ⟨by omega, hreach⟩)
    exact h.first_le_last a (by simp [hsplit])
  · simp only [hreach, decide_false]
    refine places_of_before hle hmax h hblocks (fun x hx => ?_) hback
    rcases List.mem_append.1 hx with hx | hx
    · exact hinit x hx
    · rw [List.mem_singleton.1 hx]
      exact not_le.1 hreach

theorem defineBlock_eq_invalid_iff (h : Ascending db.blocks.toList) :
    db.defineBlock block = .error (.invalidBlock block.first block.last)
      ↔ block.last < block.first ∨ CodePoint.max < block.last := by
  have hplaces := defineBlock_places h block
  generalize db.defineBlock block = result at hplaces
  cases hplaces with
  | invalid hinvalid => simpa using hinvalid
  | overlap hle hmax _ _ _ => simp [hle, hmax]
  | fits hle hmax _ _ _ => simp [hle, hmax]

/-- A block is refused for the lowest of the blocks that it meets. -/
theorem defineBlock_eq_overlap_iff (h : Ascending db.blocks.toList) {first last : Nat} :
    db.defineBlock block = .error (.overlap block.first block.last first last)
      ↔ block.first ≤ block.last ∧ block.last ≤ CodePoint.max
        ∧ ∃ b ∈ db.blocks.toList, b.first = first ∧ b.last = last ∧ b.Meets block
          ∧ ∀ a ∈ db.blocks.toList, a.Meets block → b.first ≤ a.first := by
  have hplaces := defineBlock_places h block
  generalize db.defineBlock block = result at hplaces
  cases hplaces with
  | invalid hinvalid =>
    simp only [Except.error.injEq, reduceCtorEq, false_iff]
    omega
  | @overlap front back b hle hmax hblocks hfront hmeets =>
    have hb : b ∈ db.blocks.toList := by simp [hblocks]
    have hlowest : ∀ a ∈ db.blocks.toList, a.Meets block → b.first ≤ a.first := by
      intro a ha hameets
      have hpairwise := h.pairwise
      rw [hblocks] at ha hpairwise
      rcases List.mem_append.1 ha with ha | ha
      · exact absurd hameets (not_meets_of_last_lt (hfront a ha))
      · rcases List.mem_cons.1 ha with rfl | ha
        · exact le_rfl
        · have := (List.pairwise_cons.1 (List.pairwise_append.1 hpairwise).2.1).1 a ha
          have := h.first_le_last b hb
          omega
    simp only [Except.error.injEq, Fault.overlap.injEq, true_and]
    constructor
    · rintro ⟨rfl, rfl⟩
      exact ⟨hle, hmax, b, hb, rfl, rfl, hmeets, hlowest⟩
    · rintro ⟨-, -, c, hc, rfl, rfl, hcmeets, hclowest⟩
      have hfirst : b.first = c.first := le_antisymm (hlowest c hc hcmeets) (hclowest b hb hmeets)
      rw [h.eq_of_first_eq hb hc hfirst]
      exact ⟨rfl, rfl⟩
  | fits _ _ hblocks hfront hback =>
    simp only [reduceCtorEq, false_iff]
    rintro ⟨-, -, b, hb, -, -, hmeets, -⟩
    rw [hblocks] at hb
    rcases List.mem_append.1 hb with hb | hb
    · exact not_meets_of_last_lt (hfront b hb) hmeets
    · exact not_meets_of_last_lt (hback b hb) hmeets.symm

theorem exists_defineBlock_iff (h : Ascending db.blocks.toList) :
    (∃ db', db.defineBlock block = .ok db')
      ↔ block.first ≤ block.last ∧ block.last ≤ CodePoint.max
        ∧ ∀ b ∈ db.blocks.toList, ¬ b.Meets block := by
  have hplaces := defineBlock_places h block
  generalize db.defineBlock block = result at hplaces
  cases hplaces with
  | invalid hinvalid =>
    simp only [reduceCtorEq, exists_false, false_iff]
    omega
  | @overlap front back b _ _ hblocks _ hmeets =>
    simp only [reduceCtorEq, exists_false, false_iff]
    rintro ⟨-, -, hapart⟩
    exact hapart b (by simp [hblocks]) hmeets
  | fits hle hmax hblocks hfront hback =>
    simp only [Except.ok.injEq, exists_eq', true_iff]
    rw [hblocks, List.forall_mem_append]
    exact ⟨hle, hmax, fun a ha => not_meets_of_last_lt (hfront a ha),
      fun c hc hmeets => not_meets_of_last_lt (hback c hc) hmeets.symm⟩

theorem Orderly.define (h : db.Orderly) (n : Nat) (character : Character) :
    (db.define n character).2.Orderly :=
  ⟨h.ascending, h.last_le_max⟩

theorem Orderly.defineBlock (h : db.Orderly) (hblock : db.defineBlock block = .ok db') :
    db'.Orderly := by
  have hplaces := defineBlock_places h.ascending block
  rw [hblock] at hplaces
  cases hplaces with
  | @fits front back hle hmax hblocks hfront hback =>
    have hpairwise := h.ascending.pairwise
    have hfirst := h.ascending.first_le_last
    have hlast := h.last_le_max
    rw [hblocks, List.pairwise_append] at hpairwise
    rw [hblocks, List.forall_mem_append] at hfirst hlast
    obtain ⟨hpfront, hpback, hbetween⟩ := hpairwise
    refine ⟨⟨List.pairwise_append.2 ⟨hpfront, hpback.cons hback, fun a ha => ?_⟩, ?_⟩, ?_⟩
    · exact List.forall_mem_cons.2 ⟨hfront a ha, hbetween a ha⟩
    · exact List.forall_mem_append.2 ⟨hfirst.1, List.forall_mem_cons.2 ⟨hle, hfirst.2⟩⟩
    · exact List.forall_mem_append.2 ⟨hlast.1, List.forall_mem_cons.2 ⟨hmax, hlast.2⟩⟩

end Database

end CharRuns

import CharRuns.Proofs.BlockPlacement
import CharRuns.Proofs.ListingEntries

/-!
# Databases that definitions lead to

A database begins empty or as a listing is read, and takes definitions of single code points and
of blocks, of which some blocks may be refused (`after`). The blocks of a listing come in order and
each block that is taken finds its place, so they ascend within the code space at any time
(`Reachable.orderly`). What becomes of one block more is then settled by the blocks that it meets
(`Reachable.blocks_and_defineBlock`).
-/

namespace CharRuns

/-- A definition that a database is asked to take. -/
inductive Definition where
  | single (n : Nat) (character : Character)
  | block (block : Entry)
  deriving DecidableEq, Repr

namespace Database

/-- The database with one more definition, unless it refuses that. -/
def take (db : Database) : Definition → Except Fault Database
  | .single n character => .ok (db.define n character).2
  | .block block => db.defineBlock block

/-- The database after definitions in turn; one that is refused leaves it as it was. -/
def after (db : Database) : List Definition → Database
  | [] => db
  | d :: ds =>
    match db.take d with
    | .ok db' => db'.after ds
    | .error _ => db.after ds

/-- The database is empty, or it was read from a listing of the entries. -/
inductive Begins : Database → List Entry → Prop where
  | empty : Begins .empty []
  | read {text : String} {db : Database} {entries : List Entry}
      (hread : Listing.read text = .ok db) (hdescribes : Listing.Describes text entries) :
      Begins db entries

/-- Definitions lead to the database. -/
def Reachable (db : Database) : Prop :=
  ∃ start entries ds, Begins start entries ∧ start.after ds = db

variable {db db' : Database}

theorem Begins.holds {entries : List Entry} : Begins db entries →
    db.Holds entries ∧ Entry.Ascending entries ∧ ∀ e ∈ entries, e.last ≤ CodePoint.max
  | .empty => ⟨empty_holds, .nil, by simp⟩
  | .read hread hdescribes => by
    obtain ⟨entries', hdescribes', hholds⟩ := Listing.holds_of_read hread
    obtain rfl := hdescribes.unique hdescribes'
    exact ⟨hholds, hdescribes.ascending, hdescribes.last_le_max⟩

theorem Orderly.take (h : db.Orderly) {d : Definition} (htake : db.take d = .ok db') :
    db'.Orderly := by
  cases d with
  | single n character =>
    cases htake
    exact h.define n character
  | block block => exact h.defineBlock htake

theorem Orderly.after : ∀ {db : Database} (ds : List Definition), db.Orderly →
    (db.after ds).Orderly
  | _, [], h => h
  | db, d :: ds, h => by
    unfold Database.after
    split
    · rename_i db' htake
      exact Orderly.after ds (h.take htake)
    · exact Orderly.after ds h

theorem Reachable.orderly (h : db.Reachable) : db.Orderly := by
  obtain ⟨start, entries, ds, hbegins, rfl⟩ := h
  obtain ⟨hholds, hascend, hmax⟩ := hbegins.holds
  exact (hholds.orderly hascend hmax).after ds

/-- Whatever was defined before, the blocks lie apart in ascending order, and a new block is refused
if it is empty or leaves the code space, or else for the lowest block that it meets, and is taken
if it meets none. Where it is refused the database stays as it was. -/
theorem Reachable.blocks_and_defineBlock (h : db.Reachable) :
    (∀ b ∈ db.blocks.toList, b.first ≤ b.last ∧ b.last ≤ CodePoint.max)
    ∧ db.blocks.toList.Pairwise (fun a b => a.first < b.first ∧ ¬ a.Meets b)
    ∧ ∀ block : Entry,
      (db.defineBlock block = .error (.invalidBlock block.first block.last)
        ↔ block.last < block.first ∨ CodePoint.max < block.last)
      ∧ (∀ first last, db.defineBlock block = .error (.overlap block.first block.last first last)
        ↔ block.first ≤ block.last ∧ block.last ≤ CodePoint.max
          ∧ ∃ b ∈ db.blocks.toList, b.first = first ∧ b.last = last ∧ b.Meets block
            ∧ ∀ a ∈ db.blocks.toList, a.Meets block → b.first ≤ a.first)
      ∧ ((∃ db', db.defineBlock block = .ok db')
        ↔ block.first ≤ block.last ∧ block.last ≤ CodePoint.max
          ∧ ∀ b ∈ db.blocks.toList, ¬ b.Meets block)
      ∧ ∀ fault, db.defineBlock block = .error fault → db.after [.block block] = db := by
  obtain ⟨hascend, hmax⟩ := h.orderly
  refine ⟨fun b hb => ⟨hascend.first_le_last b hb, hmax b hb⟩, ?_, fun block => ⟨?_, ?_, ?_, ?_⟩⟩
  · refine hascend.pairwise.imp_of_mem fun {a b} ha _ hab => ?_
    exact ⟨(hascend.first_le_last a ha).trans_lt hab, Entry.not_meets_of_last_lt hab⟩
  · exact defineBlock_eq_invalid_iff hascend
  · exact fun first last => defineBlock_eq_overlap_iff hascend
  · exact exists_defineBlock_iff hascend
  · intro fault hfault
    simp only [after, take, hfault]

/-- A block between two others that reaches into the later one. -/
theorem Reachable.blocks_and_defineBlock_neighbours :
    let han : Character := ⟨"<Han>", .otherLetter⟩
    let db := empty.after [.block ⟨0xE000, 0xF8FF, han⟩, .single 0x3400 han,
      .block ⟨0x3400, 0x4DBF, han⟩, .block ⟨0x4DBF, 0x4DBF, han⟩]
    db.Reachable
      ∧ db.defineBlock ⟨0x4DC0, 0x10FFFF, han⟩
        = .error (.overlap 0x4DC0 0x10FFFF 0xE000 0xF8FF) := by
  intro han db
  have hreachable : db.Reachable := ⟨empty, [], _, .empty, rfl⟩
  have hblocks : db.blocks.toList = [⟨0x3400, 0x4DBF, han⟩, ⟨0xE000, 0xF8FF, han⟩] := by
    decide +kernel
  obtain ⟨-, -, hdefine⟩ := hreachable.blocks_and_defineBlock
  refine ⟨hreachable, ((hdefine ⟨0x4DC0, 0x10FFFF, han⟩).2.1 0xE000 0xF8FF).2 ?_⟩
  rw [hblocks]
  refine ⟨by decide, by decide, ⟨0xE000, 0xF8FF, han⟩, by simp, rfl, rfl, ?_, ?_⟩
  · exact (Entry.meets_iff (by decide) (by decide)).2 ⟨by decide, by decide⟩
  · simp only [List.forall_mem_cons]
    refine ⟨fun hmeets => ?_, fun _ => le_rfl, by simp⟩
    exact absurd hmeets (Entry.not_meets_of_last_lt (by decide))

end Database

end CharRuns

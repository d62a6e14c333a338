import CharRuns.Proofs.DatabaseIteration
import CharRuns.Proofs.ReachableDatabase

/-!
# What a database remembers

The history of a database is the definitions that it took, those of the listing first. Of the single
definitions of a code point the latest counts, and the blocks never meet, so a code point has the
character of its latest single definition, or else of the one block around it
(`Begins.characterAt?_after`). A database reflects its history (`Reflects`), and each definition
that is taken keeps it so (`Reflects.take`).
-/

namespace CharRuns

namespace Definition

/-- The definition that an entry of a listing makes. -/
def ofEntry (e : Entry) : Definition :=
  if e.first < e.last then block e else single e.first e.character

/-- The character that a single definition gives a code point, if the definition is one of it. -/
def singleAt? (n : Nat) : Definition → Option Character
  | single m character => if m = n then some character else none
  | block _ => none

/-- The block that is defined, if it is one. -/
def block? : Definition → Option Entry
  | single _ _ => none
  | block b => some b

/-- The latest single definition of a code point, in a history from the earliest on. -/
def latest? (history : List Definition) (n : Nat) : Option Character :=
  history.reverse.findSome? (·.singleAt? n)

/-- The blocks of a history, in the order of their definitions. -/
def blocksOf (history : List Definition) : List Entry :=
  history.filterMap block?

theorem latest?_append_singleton (history : List Definition) (d : Definition) (n : Nat) :
    latest? (history ++ [d]) n = (d.singleAt? n).or (latest? history n) := by
  simp only [latest?, List.reverse_append, List.reverse_singleton, List.singleton_append,
    List.findSome?_cons]
  cases d.singleAt? n <;> rfl

theorem blocksOf_append_singleton (history : List Definition) (d : Definition) :
    blocksOf (history ++ [d]) = blocksOf history ++ d.block?.toList := by
  rw [blocksOf, List.filterMap_append]
  cases d <;> rfl

theorem latest?_cons (d : Definition) (history : List Definition) (n : Nat) :
    latest? (d :: history) n = (latest? history n).or (d.singleAt? n) := by
  rw [latest?, List.reverse_cons, List.findSome?_append]
  cases hd : d.singleAt? n <;> simp [latest?, hd]

theorem singleAt?_ofEntry {e : Entry} (he : e.first ≤ e.last) (n : Nat) :
    (ofEntry e).singleAt? n = if e.first = n ∧ e.last = n then some e.character else none := by
  unfold ofEntry
  split_ifs with hlt hn hn
  · omega
  · rfl
  · exact if_pos hn.1
  · exact if_neg (by omega)

theorem latest?_map_ofEntry : ∀ {entries : List Entry}, Entry.Ascending entries → ∀ n : Nat,
    latest? (entries.map ofEntry) n
      = (entries.find? fun e => decide (e.first = n ∧ e.last = n)).map (·.character)
  | [], _, _ => rfl
  | e :: entries, h, n => by
    rw [List.map_cons, latest?_cons, latest?_map_ofEntry h.of_cons n,
      singleAt?_ofEntry (h.first_le_last e List.mem_cons_self)]
    by_cases hn : e.first = n ∧ e.last = n
    · have hnone : (entries.find? fun a => decide (a.first = n ∧ a.last = n)) = none := by
        refine List.find?_eq_none.2 fun a ha hsingle => ?_
        have := h.not_covers hn.2.ge a ha
        simp only [decide_eq_true_eq] at hsingle
        omega
      rw [hnone, if_pos hn, List.find?_cons_of_pos (by simpa using hn)]
      rfl
    · rw [if_neg hn, List.find?_cons_of_neg (by simpa using hn), Option.or_none]

theorem blocksOf_map_ofEntry : ∀ entries : List Entry,
    blocksOf (entries.map ofEntry) = entries.filter fun e => decide (e.first < e.last)
  | [] => rfl
  | e :: entries => by
    have ih := blocksOf_map_ofEntry entries
    unfold blocksOf at ih ⊢
    rw [List.map_cons, List.filterMap_cons, ih, List.filter_cons]
    by_cases he : e.first < e.last <;> simp [ofEntry, block?, he]

end Definition

namespace Database

open Definition
open scoped List

/-- The definitions among `ds` that are taken. -/
def made (db : Database) : List Definition → List Definition
  | [] => []
  | d :: ds =>
    match db.take d with
    | .ok db' => d :: db'.made ds
    | .error _ => db.made ds

/-- The definitions behind a database that began with the entries: theirs, and those taken since. -/
def history (db : Database) (entries : List Entry) (ds : List Definition) : List Definition :=
  entries.map ofEntry ++ db.made ds

/-- The database holds what the definitions say. -/
structure Reflects (db : Database) (history : List Definition) : Prop where
  orderly : db.Orderly
  singles : ∀ n : Nat, db.singles[n]? = latest? history n
  blocks : db.blocks.toList.Perm (blocksOf history)

variable {db db' : Database} {history : List Definition}

theorem Begins.reflects {entries : List Entry} (h : Begins db entries) :
    db.Reflects (entries.map ofEntry) := by
  obtain ⟨hholds, hascend, hmax⟩ := h.holds
  refine ⟨hholds.orderly hascend hmax, fun n => ?_, ?_⟩
  · rw [hholds.singles, latest?_map_ofEntry hascend]
  · rw [hholds.blocks, blocksOf_map_ofEntry]

theorem Reflects.take (h : db.Reflects history) {d : Definition} (htake : db.take d = .ok db') :
    db'.Reflects (history ++ [d]) := by
  have horderly := h.orderly.take htake
  cases d with
  | single m character =>
    cases htake
    refine ⟨horderly, fun n => ?_, ?_⟩
    · rw [Database.define, Std.TreeMap.getElem?_insert, latest?_append_singleton, singleAt?,
        ← h.singles n]
      by_cases hm : m = n <;> simp [hm]
    · rw [blocksOf_append_singleton]
      simpa [block?, Database.define] using h.blocks
  | block block =>
    have hplaces := defineBlock_places h.orderly.ascending block
    rw [show db.defineBlock block = .ok db' from htake] at hplaces
    cases hplaces with
    | @fits front back _ _ hblocks _ _ =>
      refine ⟨horderly, fun n => ?_, ?_⟩
      · rw [latest?_append_singleton]
        exact h.singles n
      · rw [blocksOf_append_singleton]
        calc front ++ block :: back
          _ ~ block :: (front ++ back) := List.perm_middle
          _ ~ block :: blocksOf history := (hblocks ▸ h.blocks).cons block
          _ ~ blocksOf history ++ [block] := (List.perm_append_singleton block _).symm

theorem Reflects.after : ∀ {db : Database} {history : List Definition} (ds : List Definition),
    db.Reflects history → (db.after ds).Reflects (history ++ db.made ds)
  | db, history, [], h => by simpa [Database.after, made] using h
  | db, history, d :: ds, h => by
    unfold Database.after made
    rcases htake : db.take d with fault | db'
    · exact Reflects.after ds h
    · simpa using Reflects.after ds (h.take htake)

theorem find?_covers_eq_of_perm {blocks others : List Entry} (h : Entry.Ascending blocks)
    (hperm : blocks.Perm others) (n : Nat) :
    blocks.find? (·.covers n) = others.find? (·.covers n) := by
  rcases hfind : others.find? (·.covers n) with _ | b
  · rw [hfind, List.find?_eq_none]
    exact fun a ha => List.find?_eq_none.1 hfind a (hperm.mem_iff.1 ha)
  · have hb : b ∈ blocks := hperm.mem_iff.2 (List.mem_of_find?_eq_some hfind)
    have hbn : b.covers n = true := by simpa using List.find?_some hfind
    have hfound : (blocks.find? (·.covers n)).isSome = true := List.find?_isSome.2 ⟨b, hb, hbn⟩
    obtain ⟨a, ha⟩ := Option.isSome_iff_exists.1 hfound
    have han : a.covers n = true := by simpa using List.find?_some ha
    rw [hfind, ha, h.eq_of_covers (List.mem_of_find?_eq_some ha) hb han hbn]

theorem Reflects.characterAt?_eq (h : db.Reflects history) (n : Nat) :
    db.characterAt? n
      = (latest? history n).or (((blocksOf history).find? (·.covers n)).map (·.character)) := by
  rw [characterAt?, blockAt?_eq_find? h.orderly.ascending, ← h.singles n,
    ← find?_covers_eq_of_perm h.orderly.ascending h.blocks]
  cases db.singles[n]? <;> rfl

theorem Reflects.pairwise_blocks (h : db.Reflects history) :
    (blocksOf history).Pairwise fun a b => ¬ a.Meets b :=
  (h.blocks.pairwise_iff fun hab hba => hab hba.symm).1
    (h.orderly.ascending.pairwise.imp Entry.not_meets_of_last_lt)

/-- After any definitions, a code point has the character of its latest single definition, or else
of the block taken around it, of which there is one at most. Defining a code point tells its latest
single definition and changes no other code point, and no block that is taken hides a single
definition. -/
theorem Begins.characterAt?_after {entries : List Entry} (h : Begins db entries)
    (ds : List Definition) :
    (blocksOf (db.history entries ds)).Pairwise (fun a b => ¬ a.Meets b)
    ∧ (∀ n, (db.after ds).characterAt? n = (latest? (db.history entries ds) n).or
        (((blocksOf (db.history entries ds)).find? (·.covers n)).map (·.character)))
    ∧ (∀ n character,
        ((db.after ds).define n character).1 = latest? (db.history entries ds) n
        ∧ ∀ m, ((db.after ds).define n character).2.characterAt? m
          = if m = n then some character else (db.after ds).characterAt? m)
    ∧ ∀ block next, (db.after ds).defineBlock block = .ok next → ∀ n character,
        latest? (db.history entries ds) n = some character →
        next.characterAt? n = some character := by
  have hreflects : (db.after ds).Reflects (db.history entries ds) := h.reflects.after ds
  refine ⟨hreflects.pairwise_blocks, hreflects.characterAt?_eq, fun n character => ⟨?_, ?_⟩, ?_⟩
  · exact hreflects.singles n
  · exact characterAt?_define _ n character
  · intro block next hnext n character hlatest
    have hthen : next.Reflects (db.history entries ds ++ [.block block]) := hreflects.take hnext
    rw [hthen.characterAt?_eq, latest?_append_singleton, singleAt?, Option.none_or, hlatest,
      Option.some_or]

/-- The block that starts inside the listed one is refused, a single definition stands in it, and
the block taken around a listed character does not hide it. -/
theorem Begins.characterAt?_after_listing :
    let lines := ["41;LATIN CAPITAL LETTER A;Lu;;;;;;;;;;;;", "3400;<CJK, First>;Lo;;;;;;;;;;;;",
      "4DBF;<CJK, Last>;Lo;;;;;;;;;;;;"]
    let a : Character := ⟨"LATIN CAPITAL LETTER A", .uppercaseLetter⟩
    let cjk : Character := ⟨"<CJK>", .otherLetter⟩
    let mine : Character := ⟨"MINE", .otherSymbol⟩
    let entries : List Entry := [⟨0x41, 0x41, a⟩, ⟨0x3400, 0x4DBF, cjk⟩]
    let ds : List Definition := [.block ⟨0x4DBF, 0x5000, mine⟩, .single 0x3401 mine,
      .block ⟨0x40, 0x5A, mine⟩]
    ∃ db, Listing.read (String.join (lines.map (· ++ "\n"))) = .ok db ∧ Begins db entries
      ∧ (db.after ds).characterAt? 0x41 = some a
      ∧ (db.after ds).characterAt? 0x42 = some mine
      ∧ (db.after ds).characterAt? 0x3401 = some mine
      ∧ (db.after ds).characterAt? 0x4DBF = some cjk
      ∧ (db.after ds).characterAt? 0x5000 = none
      ∧ ((db.after ds).define 0x3402 a).1 = none := by
  intro lines a cjk mine entries ds
  have hlines : Text.lines (String.join (lines.map (· ++ "\n"))).toList
      = lines.map String.toList := Text.lines_join (by decide +kernel)
  have hvalues : (Listing.readLines (lines.map String.toList)).toOption.map
      (fun db => (db.singleEntries, db.blocks.toList, db.made ds))
        = some ([⟨0x41, 0x41, a⟩], [⟨0x3400, 0x4DBF, cjk⟩],
          [.single 0x3401 mine, .block ⟨0x40, 0x5A, mine⟩]) := by
    decide +kernel
  cases hread : Listing.readLines (lines.map String.toList) with
  | error fault =>
    rw [hread] at hvalues
    cases hvalues
  | ok db =>
    rw [hread] at hvalues
    obtain ⟨hsingles, hvalues⟩ := Prod.mk.inj (Option.some_inj.1 hvalues)
    obtain ⟨hblocks, hmade⟩ := Prod.mk.inj hvalues
    have hentries : db.entries = entries := by
      rw [Database.entries, hsingles, hblocks]
      simp [entries]
    rw [← hlines] at hread
    obtain ⟨entries', hdescribes, hholds⟩ := Listing.holds_of_read hread
    have hbegins : Begins db entries := by
      rw [← hentries, hholds.entries_eq hdescribes.ascending]
      exact .read hread hdescribes
    obtain ⟨-, hcharacter, hdefine, -⟩ := hbegins.characterAt?_after ds
    have hhistory : db.history entries ds = [.single 0x41 a, .block ⟨0x3400, 0x4DBF, cjk⟩,
        .single 0x3401 mine, .block ⟨0x40, 0x5A, mine⟩] := by
      rw [history, show db.made ds = _ from hmade]
      rfl
    rw [hhistory] at hcharacter hdefine
    exact ⟨db, hread, hbegins, hcharacter 0x41, hcharacter 0x42, hcharacter 0x3401,
      hcharacter 0x4DBF, hcharacter 0x5000, (hdefine 0x3402 a).1⟩

end Database

end CharRuns

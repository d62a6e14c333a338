import CharRuns.Proofs.DatabaseIteration
import CharRuns.Proofs.ReachableDatabase

/-!
# In which order the entries come

The single definitions in some order, and the blocks behind them, are put in order by where they
start. Entries that start together stay as they came, a single definition in front of a block
(`filter_first_sortByFirst`), and merging keeps them so as well (`filter_first_merge`). Lists in
order that agree on what starts at each code point are the same (`eq_of_filter_first_eq`), so it
makes no difference in which order the single definitions were gone through
(`sortByFirst_eq_entries`). Because a single definition comes first, the entries also tell the
character of each code point (`Reachable.entries_outcome`).
-/

namespace CharRuns

namespace Entry

/-- The entries in order of where they start; those that start together stay as they come. -/
def sortByFirst (entries : List Entry) : List Entry :=
  entries.mergeSort fun a b => a.first ≤ b.first

variable {entries others : List Entry} {n : Nat}

theorem pairwise_sortByFirst (entries : List Entry) :
    (sortByFirst entries).Pairwise fun a b => a.first ≤ b.first :=
  (List.pairwise_mergeSort first_le_trans first_le_total entries).imp of_decide_eq_true

/-- Sorting leaves the entries that start together in their order. -/
theorem filter_first_sortByFirst (entries : List Entry) (n : Nat) :
    (sortByFirst entries).filter (·.first = n) = entries.filter (·.first = n) := by
  have htogether : (entries.filter (·.first = n)).Pairwise
      fun a b => decide (a.first ≤ b.first) = true := by
    refine List.pairwise_of_forall_mem_list fun a ha b hb => ?_
    have ha : a.first = n := by simpa using (List.mem_filter.1 ha).2
    have hb : b.first = n := by simpa using (List.mem_filter.1 hb).2
    simp only [ha, hb, le_refl, decide_true]
  have hsub : (entries.filter (·.first = n)).Sublist (sortByFirst entries) :=
    List.sublist_mergeSort first_le_trans first_le_total htogether List.filter_sublist
  have hfilter := hsub.filter (·.first = n)
  rw [List.filter_filter] at hfilter
  simp only [Bool.and_self] at hfilter
  have hperm : (sortByFirst entries).Perm entries := List.mergeSort_perm _ _
  exact (hfilter.eq_of_length (hperm.filter _).length_eq.symm).symm

theorem filter_first_eq_nil {a : Entry}
    (h : (a :: entries).Pairwise fun a b => a.first ≤ b.first) (hn : n < a.first) :
    (a :: entries).filter (·.first = n) = [] := by
  refine List.filter_eq_nil_iff.2 fun b hb => ?_
  have hle : a.first ≤ b.first := by
    rcases List.mem_cons.1 hb with rfl | hb
    · exact le_rfl
    · exact List.rel_of_pairwise_cons h hb
  simp only [decide_eq_true_eq]
  omega

/-- Merging puts entries in front of those that start together with them. -/
theorem filter_first_merge : ∀ {entries others : List Entry},
    entries.Pairwise (fun a b => a.first ≤ b.first) →
      (entries.merge others fun a b => a.first ≤ b.first).filter (·.first = n)
        = entries.filter (·.first = n) ++ others.filter (·.first = n)
  | [], others, _ => by simp
  | a :: entries, [], _ => by simp
  | a :: entries, b :: others, h => by
    by_cases hle : a.first ≤ b.first
    · have ih := @filter_first_merge entries (b :: others) h.of_cons
      rw [List.cons_merge_cons_pos _ _ _ (by simpa using hle), List.filter_cons, ih,
        List.filter_cons (x := a)]
      split <;> rfl
    · have ih := @filter_first_merge (a :: entries) others h
      rw [List.cons_merge_cons_neg _ _ _ (by simpa using hle), List.filter_cons, ih,
        List.filter_cons (x := b)]
      split
      · rename_i hb
        obtain rfl : b.first = n := by simpa using hb
        rw [filter_first_eq_nil h (not_le.1 hle)]
        rfl
      · rfl

/-- Entries in order are told by what starts at each code point. -/
theorem eq_of_filter_first_eq : ∀ {entries others : List Entry},
    entries.Pairwise (fun a b => a.first ≤ b.first) →
      others.Pairwise (fun a b => a.first ≤ b.first) →
      (∀ n, entries.filter (·.first = n) = others.filter (·.first = n)) → entries = others
  | [], [], _, _, _ => rfl
  | [], b :: others, _, _, h => by simpa using h b.first
  | a :: entries, [], _, _, h => by simpa using h a.first
  | a :: entries, b :: others, ha, hb, h => by
    have hstart : a.first = b.first := by
      rcases Nat.lt_trichotomy a.first b.first with hlt | heq | hgt
      · have hnone := (h a.first).trans (filter_first_eq_nil hb hlt)
        simp at hnone
      · exact heq
      · have hnone := (h b.first).symm.trans (filter_first_eq_nil ha hgt)
        simp at hnone
    obtain rfl : a = b := by
      have htogether := h a.first
      simp only [List.filter_cons, hstart, decide_true, if_true] at htogether
      exact (List.cons.inj htogether).1
    have ih : entries = others := by
      refine eq_of_filter_first_eq ha.of_cons hb.of_cons fun n => ?_
      have htogether := h n
      simp only [List.filter_cons] at htogether
      split at htogether
      · exact (List.cons.inj htogether).2
      · exact htogether
    rw [ih]

/-- One entry or none can be arranged in one way only. -/
theorem eq_of_perm_toList {found : Option Entry} (h : entries.Perm found.toList) :
    entries = found.toList := by
  cases found with
  | none => exact h.eq_nil
  | some e => exact List.perm_singleton.1 h

/-- Of entries that ascend one at most covers a code point. -/
theorem Ascending.filter_covers (h : Ascending entries) (n : Nat) :
    entries.filter (·.covers n) = (entries.find? (·.covers n)).toList :=
  Search.filter_eq_toList_find? (h.pairwise_disjoint.imp fun hab ha hb => hab n ⟨ha, hb⟩)

end Entry

namespace Database

open Entry

variable {db : Database} {n : Nat}

theorem filter_first_singleEntries (db : Database) (n : Nat) :
    db.singleEntries.filter (·.first = n)
      = (db.singles[n]?.map fun character => ⟨n, n, character⟩).toList := by
  refine eq_of_mem_iff (db.pairwise_singleEntries.filter _) ?_ fun e => ?_
  · cases db.singles[n]? <;> simp
  · simp only [List.mem_filter, mem_singleEntries_iff, decide_eq_true_eq, Option.mem_toList,
      Option.map_eq_some_iff]
    constructor
    · rintro ⟨⟨hlast, hcharacter⟩, rfl⟩
      refine ⟨e.character, hcharacter, ?_⟩
      obtain ⟨first, last, character⟩ := e
      cases hlast
      rfl
    · rintro ⟨character, hcharacter, rfl⟩
      exact ⟨⟨rfl, hcharacter⟩, rfl⟩

/-- At each code point starts the single definition there is, and behind it the blocks. -/
theorem filter_first_entries (db : Database) (n : Nat) :
    db.entries.filter (·.first = n)
      = (db.singles[n]?.map fun character => ⟨n, n, character⟩).toList
        ++ db.blocks.toList.filter (·.first = n) := by
  have hsingles : db.singleEntries.Pairwise fun a b => a.first ≤ b.first :=
    db.pairwise_singleEntries.imp le_of_lt
  rw [entries, filter_first_merge hsingles, filter_first_singleEntries]

/-- The order in which the single definitions are gone through makes no difference. -/
theorem sortByFirst_eq_entries (h : Ascending db.blocks.toList)
    {singles : List (Nat × Character)} (hperm : singles.Perm db.singles.toList) :
    sortByFirst (singles.map (fun (n, character) => ⟨n, n, character⟩) ++ db.blocks.toList)
      = db.entries := by
  refine eq_of_filter_first_eq (pairwise_sortByFirst _) (pairwise_entries h) fun n => ?_
  have hsingles : (singles.map fun (n, character) => (⟨n, n, character⟩ : Entry)).Perm
      db.singleEntries := hperm.map _
  have hfilter := hsingles.filter (·.first = n)
  rw [filter_first_sortByFirst, List.filter_append, filter_first_entries]
  rw [filter_first_singleEntries] at hfilter
  rw [eq_of_perm_toList hfilter]

/-- The first entry for a code point alone is the single definition there, or else a block. -/
theorem find?_single_entries (db : Database) (n : Nat) :
    db.entries.find? (fun e => decide (e.first = n ∧ e.last = n))
      = (db.singles[n]?.map fun character => ⟨n, n, character⟩).or
        (db.blocks.toList.find? fun e => decide (e.first = n ∧ e.last = n)) := by
  have hfilter (entries : List Entry) : entries.find? (fun e => decide (e.first = n ∧ e.last = n))
      = (entries.filter (·.first = n)).find? (·.last = n) := by
    simp only [List.find?_filter, decide_eq_true_eq]
  rw [hfilter, filter_first_entries, List.find?_append, hfilter db.blocks.toList]
  cases db.singles[n]? <;> simp

/-- The entries around a code point without a single definition are one block or none. -/
theorem filter_covers_entries (h : Ascending db.blocks.toList) (hnone : db.singles[n]? = none) :
    db.entries.filter (·.covers n) = (db.blockAt? n).toList := by
  have hsingles : db.singleEntries.filter (·.covers n) = [] := by
    refine List.filter_eq_nil_iff.2 fun e he hcovers => ?_
    obtain ⟨hlast, hcharacter⟩ := mem_singleEntries_iff.1 he
    obtain rfl : e.first = n := by
      have := covers_iff.1 hcovers
      omega
    rw [hnone] at hcharacter
    cases hcharacter
  have hperm := db.entries_perm.filter (·.covers n)
  rw [List.filter_append, hsingles, List.nil_append, h.filter_covers, ← blockAt?_eq_find? h]
    at hperm
  exact eq_of_perm_toList hperm

theorem blockAt?_eq_of_find?_single (h : Ascending db.blocks.toList) {e : Entry}
    (he : db.blocks.toList.find? (fun e => decide (e.first = n ∧ e.last = n)) = some e) :
    db.blockAt? n = some e := by
  have hsingle : e.first = n ∧ e.last = n := by simpa using List.find?_some he
  have hmem : e ∈ db.blocks.toList.filter (·.covers n) :=
    List.mem_filter.2 ⟨List.mem_of_find?_eq_some he, covers_iff.2 ⟨hsingle.1.le, hsingle.2.ge⟩⟩
  rw [h.filter_covers, ← blockAt?_eq_find? h] at hmem
  exact Option.mem_toList.1 hmem

/-- An entry for a code point alone gives its character, and the first of two such entries does. -/
theorem characterAt?_of_find?_single (h : Ascending db.blocks.toList) {e : Entry}
    (he : db.entries.find? (fun e => decide (e.first = n ∧ e.last = n)) = some e) :
    db.characterAt? n = some e.character := by
  rw [find?_single_entries] at he
  rw [characterAt?]
  cases hn : db.singles[n]? with
  | some character =>
    rw [hn] at he
    cases he
    rfl
  | none =>
    rw [hn, Option.map_none, Option.none_or] at he
    rw [blockAt?_eq_of_find?_single h he]
    rfl

/-- Where there is none, the only entry around the code point does. -/
theorem exists_around_of_find?_single (h : Ascending db.blocks.toList)
    (hnone : db.entries.find? (fun e => decide (e.first = n ∧ e.last = n)) = none) :
    ∃ around : Option Entry, db.entries.filter (·.covers n) = around.toList
      ∧ db.characterAt? n = around.map (·.character) := by
  rw [find?_single_entries, Option.or_eq_none_iff, Option.map_eq_none_iff] at hnone
  refine ⟨db.blockAt? n, filter_covers_entries h hnone.1, ?_⟩
  rw [characterAt?, hnone.1]

/-- A database goes through each of its single definitions and each of its blocks once, in order of
where they start, a single definition in front of a block, and in whichever order the single
definitions are looked up. From the entries one can tell the character of a code point: it is that
of the first entry for the code point alone, or else of the only entry around it. -/
theorem Reachable.entries_outcome (h : db.Reachable) :
    db.entries.Perm (db.singleEntries ++ db.blocks.toList)
      ∧ db.entries.Pairwise (fun a b => a.first ≤ b.first)
      ∧ (∀ n : Nat, db.entries.filter (·.first = n)
        = (db.singles[n]?.map fun character => ⟨n, n, character⟩).toList
          ++ db.blocks.toList.filter (·.first = n))
      ∧ (∀ singles : List (Nat × Character), singles.Perm db.singles.toList →
        sortByFirst (singles.map (fun (n, character) => ⟨n, n, character⟩) ++ db.blocks.toList)
          = db.entries)
      ∧ ∀ n, match db.entries.find? fun e => decide (e.first = n ∧ e.last = n) with
        | some e => db.characterAt? n = some e.character
        | none => ∃ around : Option Entry, db.entries.filter (·.covers n) = around.toList
          ∧ db.characterAt? n = around.map (·.character) := by
  have hascend := h.orderly.ascending
  refine ⟨db.entries_perm, pairwise_entries hascend, db.filter_first_entries,
    fun singles => sortByFirst_eq_entries hascend, fun n => ?_⟩
  cases hfind : db.entries.find? fun e => decide (e.first = n ∧ e.last = n) with
  | some e => exact characterAt?_of_find?_single hascend hfind
  | none => exact exists_around_of_find?_single hascend hfind

/-- A block of one code point starts where a single definition stands, and the single definitions
are gone through from the last to the first. -/
theorem Reachable.entries_outcome_backwards :
    let a : Character := ⟨"LATIN CAPITAL LETTER A", .uppercaseLetter⟩
    let mine : Character := ⟨"MINE", .otherSymbol⟩
    let db := empty.after [.single 0x42 a, .block ⟨0x41, 0x41, mine⟩, .single 0x41 a]
    let singles : List (Nat × Character) := [(0x42, a), (0x41, a)]
    db.Reachable ∧ singles.Perm db.singles.toList
      ∧ sortByFirst [⟨0x42, 0x42, a⟩, ⟨0x41, 0x41, a⟩, ⟨0x41, 0x41, mine⟩] = db.entries
      ∧ db.entries.filter (·.first = 0x41) = [⟨0x41, 0x41, a⟩, ⟨0x41, 0x41, mine⟩] := by
  intro a mine db singles
  have hreachable : db.Reachable := ⟨empty, [], _, .empty, rfl⟩
  have hsingles : db.singles.toList = [(0x41, a), (0x42, a)] := by decide +kernel
  have hblocks : db.blocks.toList = [⟨0x41, 0x41, mine⟩] := by decide +kernel
  have hperm : singles.Perm db.singles.toList := hsingles ▸ .swap _ _ _
  obtain ⟨-, -, hstart, hsorted, -⟩ := hreachable.entries_outcome
  have hsorted := hsorted singles hperm
  have hstart := hstart 0x41
  rw [hblocks] at hsorted hstart
  exact ⟨hreachable, hperm, hsorted, hstart⟩

end Database

end CharRuns

import CharRuns.Proofs.DatabaseEntries
import Mathlib.Data.List.Perm.Lattice

/-!
# The entries of a database in order

Going through a database gives its single definitions and its blocks, each once
(`entries_perm`), in ascending order if the blocks ascend (`pairwise_entries`). If the database
holds ascending entries, these are what one gets, in their order (`Holds.entries_eq`).
-/

namespace CharRuns

namespace Entry

theorem first_le_trans (a b c : Entry) : decide (a.first ≤ b.first) = true →
    decide (b.first ≤ c.first) = true → decide (a.first ≤ c.first) = true := by
  simp only [decide_eq_true_eq]
  exact le_trans

theorem first_le_total (a b : Entry) :
    (decide (a.first ≤ b.first) || decide (b.first ≤ a.first)) = true := by
  simpa only [Bool.or_eq_true, decide_eq_true_eq] using le_total a.first b.first

/-- Entries whose starts strictly ascend are told by their members. -/
theorem eq_of_mem_iff {entries others : List Entry}
    (h : entries.Pairwise fun a b => a.first < b.first)
    (h' : others.Pairwise fun a b => a.first < b.first)
    (hmem : ∀ e, e ∈ entries ↔ e ∈ others) : entries = others := by
  have hnodup {l : List Entry} (hl : l.Pairwise fun a b => a.first < b.first) : l.Nodup :=
    hl.imp fun hab heq => hab.ne (congrArg first heq)
  exact List.Perm.eq_of_pairwise (fun a b _ _ hab hba => absurd hab hba.asymm) h h'
    ((List.perm_ext_iff_of_nodup (hnodup h) (hnodup h')).2 hmem)

end Entry

namespace Database

open Entry

variable {db : Database} {entries : List Entry}

theorem mem_singleEntries_iff {e : Entry} :
    e ∈ db.singleEntries ↔ e.last = e.first ∧ db.singles[e.first]? = some e.character := by
  obtain ⟨first, last, character⟩ := e
  simp only [singleEntries, List.mem_map, Prod.exists, Std.TreeMap.mem_toList_iff_getElem?_eq_some,
    Entry.mk.injEq]
  constructor
  · rintro ⟨n, c, h, rfl, rfl, rfl⟩
    exact ⟨rfl, h⟩
  · rintro ⟨rfl, h⟩
    exact ⟨last, character, h, rfl, rfl, rfl⟩

theorem pairwise_singleEntries (db : Database) :
    db.singleEntries.Pairwise fun a b => a.first < b.first :=
  List.pairwise_map.2 (db.singles.ordered_keys_toList.imp fun h => Nat.compare_eq_lt.1 h)

theorem entries_perm (db : Database) :
    db.entries.Perm (db.singleEntries ++ db.blocks.toList) :=
  List.merge_perm_append _

theorem pairwise_entries (h : Ascending db.blocks.toList) :
    db.entries.Pairwise fun a b => a.first ≤ b.first := by
  have hsingles : db.singleEntries.Pairwise fun a b => decide (a.first ≤ b.first) = true :=
    db.pairwise_singleEntries.imp fun hab => decide_eq_true hab.le
  have hblocks : db.blocks.toList.Pairwise fun a b => decide (a.first ≤ b.first) = true := by
    refine h.pairwise.imp_of_mem fun {a b} ha _ hab => ?_
    exact decide_eq_true ((h.first_le_last a ha).trans hab.le)
  have hmerge := List.pairwise_merge first_le_trans first_le_total _ _ hsingles hblocks
  exact hmerge.imp of_decide_eq_true

theorem find?_single_eq_some_iff (h : Ascending entries) {e : Entry} {n : Nat} :
    entries.find? (fun a => decide (a.first = n ∧ a.last = n)) = some e
      ↔ e ∈ entries ∧ e.first = n ∧ e.last = n := by
  constructor
  · intro hfind
    exact ⟨List.mem_of_find?_eq_some hfind, by simpa using List.find?_some hfind⟩
  · rintro ⟨he, hsingle⟩
    have hfound : (entries.find? fun a => decide (a.first = n ∧ a.last = n)).isSome = true :=
      List.find?_isSome.2 ⟨e, he, by simpa using hsingle⟩
    obtain ⟨a, ha⟩ := Option.isSome_iff_exists.1 hfound
    have hfirst : a.first = n ∧ a.last = n := by simpa using List.find?_some ha
    rw [ha, h.eq_of_first_eq (List.mem_of_find?_eq_some ha) he (hfirst.1.trans hsingle.1.symm)]

theorem Holds.singleEntries_eq (h : db.Holds entries) (hascend : Ascending entries) :
    db.singleEntries = entries.filter fun e => !decide (e.first < e.last) := by
  have hmem (e : Entry) : e ∈ db.singleEntries
      ↔ e ∈ entries.filter fun e => !decide (e.first < e.last) := by
    simp only [mem_singleEntries_iff, h.singles, Option.map_eq_some_iff,
      find?_single_eq_some_iff hascend, List.mem_filter, Bool.not_eq_true', decide_eq_false_iff_not,
      not_lt]
    constructor
    · rintro ⟨hlast, a, ⟨ha, hsingle⟩, hcharacter⟩
      obtain rfl : a = e := by
        cases a
        cases e
        simp_all
      exact ⟨ha, hlast.le⟩
    · rintro ⟨he, hle⟩
      have hlast : e.last = e.first := le_antisymm hle (hascend.first_le_last e he)
      exact ⟨hlast, e, ⟨he, rfl, hlast⟩, rfl⟩
  have hstrict : (entries.filter fun e => !decide (e.first < e.last)).Pairwise
      fun a b => a.first < b.first := by
    refine (hascend.filter _).pairwise.imp_of_mem fun {a b} ha _ hab => ?_
    exact ((hascend.filter _).first_le_last a ha).trans_lt hab
  exact eq_of_mem_iff db.pairwise_singleEntries hstrict hmem

/-- Going through a database that holds ascending entries gives these. -/
theorem Holds.entries_eq (h : db.Holds entries) (hascend : Ascending entries) :
    db.entries = entries := by
  have hperm : db.entries.Perm entries := by
    refine db.entries_perm.trans ?_
    rw [h.singleEntries_eq hascend, h.blocks]
    exact List.perm_append_comm.trans (List.filter_append_perm _ _)
  have hblocks : Ascending db.blocks.toList := h.blocks ▸ hascend.filter _
  have hentries : entries.Pairwise fun a b => a.first ≤ b.first :=
    hascend.pairwise.imp_of_mem fun {a b} ha _ hab => (hascend.first_le_last a ha).trans hab.le
  refine List.Perm.eq_of_pairwise (fun a b ha hb hab hba => ?_) (pairwise_entries hblocks) hentries
    hperm
  exact hascend.eq_of_first_eq (hperm.mem_iff.1 ha) hb (le_antisymm hab hba)

end Database

end CharRuns

import CharRuns.Database
import CharRuns.Proofs.DatabaseHistory
import CharRuns.Proofs.ListingAcceptance

/-!
# Definitions in any order

Definitions lie apart if no two define the same single code point and no two blocks meet; a block
may well lie around single definitions. Valid ones are all taken (`Reflects.made_eq`), and the order
in which they are made leaves no trace in what the database holds (`Reflects.eq_of_perm`), nor in
what one sees of it (`Reachable.after_eq_of_perm`). The definitions of a listing lie apart, so
making them one by one, in whatever order, leads to the database that reading the listing gives
(`after_eq_of_read`).
-/

namespace CharRuns

namespace Entry

theorem Ascending.eq_of_perm {entries others : List Entry} (h : Ascending entries)
    (h' : Ascending others) (hperm : entries.Perm others) : entries = others := by
  refine List.Perm.eq_of_pairwise (fun a b ha hb hab hba => ?_) h.pairwise h'.pairwise hperm
  have := h.first_le_last a ha
  have := h'.first_le_last b hb
  omega

end Entry

namespace Definition

/-- Neither definition is in the way of the other. -/
def Apart : Definition → Definition → Prop
  | single n _, single m _ => n ≠ m
  | block a, block b => ¬ a.Meets b
  | _, _ => True

/-- A block is not empty and ends within the code space. -/
def Valid : Definition → Prop
  | single _ _ => True
  | block b => b.first ≤ b.last ∧ b.last ≤ CodePoint.max

theorem Apart.symm : ∀ {d e : Definition}, d.Apart e → e.Apart d
  | single _ _, single _ _, h => Ne.symm h
  | block _, block _, h => fun hmeets => h hmeets.symm
  | single _ _, block _, h => h
  | block _, single _ _, h => h

variable {ds es history : List Definition}

theorem latest?_append (history ds : List Definition) (n : Nat) :
    latest? (history ++ ds) n = (latest? ds n).or (latest? history n) := by
  simp only [latest?, List.reverse_append, List.findSome?_append]

theorem singleAt?_eq_some_iff {d : Definition} {n : Nat} {character : Character} :
    d.singleAt? n = some character ↔ d = single n character := by
  cases d with
  | single m c =>
    simp only [singleAt?, Option.ite_none_right_eq_some, Option.some.injEq, single.injEq]
  | block b => simp [singleAt?]

theorem mem_blocksOf_iff {b : Entry} : b ∈ blocksOf ds ↔ block b ∈ ds := by
  simp only [blocksOf, List.mem_filterMap]
  constructor
  · rintro ⟨d, hd, hb⟩
    cases d with
    | single n character => cases hb
    | block b' =>
      cases hb
      exact hd
  · intro hb
    exact ⟨_, hb, rfl⟩

/-- Among definitions that lie apart, a code point is defined once if at all. -/
theorem latest?_eq_some_iff {n : Nat} {character : Character} :
    ∀ {ds : List Definition}, ds.Pairwise Apart →
      (latest? ds n = some character ↔ single n character ∈ ds)
  | [], _ => by simp [latest?]
  | d :: ds, h => by
    obtain ⟨hd, hds⟩ := List.pairwise_cons.1 h
    rw [latest?_cons, Option.or_eq_some_iff, latest?_eq_some_iff hds, singleAt?_eq_some_iff,
      List.mem_cons]
    constructor
    · rintro (hmem | ⟨-, rfl⟩)
      · exact .inr hmem
      · exact .inl rfl
    · rintro (rfl | hmem)
      · refine .inr ⟨Option.eq_none_iff_forall_ne_some.2 fun c hc => ?_, rfl⟩
        rw [latest?_eq_some_iff hds] at hc
        exact hd _ hc rfl
      · exact .inl hmem

theorem latest?_eq_of_perm (hperm : ds.Perm es) (hapart : ds.Pairwise Apart) (n : Nat) :
    latest? ds n = latest? es n := by
  have hapart' : es.Pairwise Apart := (hperm.pairwise_iff Apart.symm).1 hapart
  refine Option.ext fun character => ?_
  rw [latest?_eq_some_iff hapart, latest?_eq_some_iff hapart', hperm.mem_iff]

/-- The definitions that ascending entries make lie apart. -/
theorem pairwise_apart_map_ofEntry {entries : List Entry} (h : Entry.Ascending entries) :
    (entries.map ofEntry).Pairwise Apart := by
  refine List.pairwise_map.2 (h.pairwise.imp_of_mem fun {a b} ha _ hab => ?_)
  have := h.first_le_last a ha
  unfold ofEntry
  split_ifs
  · exact Entry.not_meets_of_last_lt hab
  · trivial
  · trivial
  · exact (show a.first < b.first by omega).ne

theorem valid_ofEntry {e : Entry} (h : e.last ≤ CodePoint.max) : (ofEntry e).Valid := by
  unfold ofEntry
  split_ifs with hlt
  · exact ⟨hlt.le, h⟩
  · trivial

end Definition

namespace Database

open Definition

variable {db db' : Database} {history ds es : List Definition}

theorem Reflects.exists_take (h : db.Reflects history) {d : Definition} (hvalid : d.Valid)
    (hapart : ∀ b, block b ∈ history → Apart d (.block b)) : ∃ db', db.take d = .ok db' := by
  cases d with
  | single n character => exact ⟨_, rfl⟩
  | block b =>
    refine (exists_defineBlock_iff h.orderly.ascending).2 ⟨hvalid.1, hvalid.2, ?_⟩
    intro a ha hmeets
    exact hapart a (mem_blocksOf_iff.1 (h.blocks.mem_iff.1 ha)) hmeets.symm

/-- Valid definitions that lie apart from each other and from the blocks there are all taken. -/
theorem Reflects.made_eq : ∀ {db : Database} {history ds : List Definition}, db.Reflects history →
    (∀ d ∈ ds, d.Valid) → ds.Pairwise Apart →
    (∀ d ∈ ds, ∀ b, block b ∈ history → Apart d (.block b)) → db.made ds = ds
  | _, _, [], _, _, _, _ => rfl
  | db, history, d :: ds, h, hvalid, hapart, hhistory => by
    obtain ⟨hd, hds⟩ := List.pairwise_cons.1 hapart
    obtain ⟨hvalid, hvalids⟩ := List.forall_mem_cons.1 hvalid
    obtain ⟨hbefore, hhistory⟩ := List.forall_mem_cons.1 hhistory
    obtain ⟨db', htake⟩ := h.exists_take hvalid hbefore
    have ih : db'.made ds = ds := by
      refine (h.take htake).made_eq hvalids hds fun e he b hb => ?_
      rcases List.mem_append.1 hb with hb | hb
      · exact hhistory e he b hb
      · rw [List.mem_singleton.1 hb]
        exact (hd e he).symm
    simp only [made, htake, ih]

theorem singleEntries_eq_of_getElem? (h : ∀ n : Nat, db.singles[n]? = db'.singles[n]?) :
    db.singleEntries = db'.singleEntries := by
  rw [singleEntries, singleEntries, (Std.TreeMap.Equiv.of_forall_constGet?_eq h).toList_eq]

/-- What definitions that lie apart lead to does not depend on their order. -/
theorem Reflects.eq_of_perm (h : db.Reflects (history ++ ds)) (h' : db'.Reflects (history ++ es))
    (hperm : ds.Perm es) (hapart : ds.Pairwise Apart) :
    db.entries = db'.entries ∧ ∀ n, db.characterAt? n = db'.characterAt? n := by
  have hsingles (n : Nat) : db.singles[n]? = db'.singles[n]? := by
    rw [h.singles, h'.singles, latest?_append, latest?_append, latest?_eq_of_perm hperm hapart]
  have hblocks : db.blocks.toList = db'.blocks.toList := by
    refine h.orderly.ascending.eq_of_perm h'.orderly.ascending (h.blocks.trans ?_)
    refine List.Perm.trans ?_ h'.blocks.symm
    exact (hperm.append_left history).filterMap block?
  constructor
  · rw [entries, entries, singleEntries_eq_of_getElem? hsingles, hblocks]
  · intro n
    rw [characterAt?, characterAt?, hsingles n, blockAt?_eq_find? h.orderly.ascending,
      blockAt?_eq_find? h'.orderly.ascending, hblocks]

/-- Such definitions are what the database reflects besides, once they are made. -/
theorem Reflects.after_of_apart (h : db.Reflects history) (hvalid : ∀ d ∈ ds, d.Valid)
    (hapart : ds.Pairwise Apart)
    (hhistory : ∀ d ∈ ds, ∀ b, block b ∈ history → Apart d (.block b)) :
    db.made ds = ds ∧ (db.after ds).Reflects (history ++ ds) := by
  have hmade : db.made ds = ds := h.made_eq hvalid hapart hhistory
  have hafter := h.after ds
  rw [hmade] at hafter
  exact ⟨hmade, hafter⟩

theorem empty_after_reflects (hvalid : ∀ d ∈ ds, d.Valid) (hapart : ds.Pairwise Apart) :
    empty.made ds = ds ∧ (empty.after ds).Reflects ds := by
  have hempty : empty.Reflects [] := Begins.empty.reflects
  exact hempty.after_of_apart hvalid hapart (by simp)

theorem Reachable.exists_reflects (h : db.Reachable) : ∃ history, db.Reflects history := by
  obtain ⟨start, entries, ds, hbegins, rfl⟩ := h
  exact ⟨_, hbegins.reflects.after ds⟩

/-- Definitions of different single code points and of valid blocks that meet neither each other nor
a block there is are all taken, in whatever order, and the order makes no difference to what the
database then goes through, dumps or tells of a code point. -/
theorem Reachable.after_eq_of_perm (h : db.Reachable) (hvalid : ∀ d ∈ ds, d.Valid)
    (hapart : ds.Pairwise Apart)
    (hblocks : ∀ b, block b ∈ ds → ∀ a ∈ db.blocks.toList, ¬ a.Meets b) (hperm : ds.Perm es) :
    db.made ds = ds ∧ db.made es = es
      ∧ (db.after es).entries = (db.after ds).entries
      ∧ (db.after es).dump = (db.after ds).dump
      ∧ ∀ n, (db.after es).characterAt? n = (db.after ds).characterAt? n := by
  obtain ⟨history, hreflects⟩ := h.exists_reflects
  have hhistory : ∀ d ∈ ds, ∀ b, block b ∈ history → Apart d (.block b) := by
    intro d hd b hb
    cases d with
    | single n character => trivial
    | block c =>
      have hthere : b ∈ db.blocks.toList := hreflects.blocks.mem_iff.2 (mem_blocksOf_iff.2 hb)
      exact fun hmeets => hblocks c hd b hthere hmeets.symm
  obtain ⟨hmade, hafter⟩ := hreflects.after_of_apart hvalid hapart hhistory
  obtain ⟨hmade', hafter'⟩ := hreflects.after_of_apart
    (fun d hd => hvalid d (hperm.mem_iff.2 hd)) ((hperm.pairwise_iff Apart.symm).1 hapart)
    (fun d hd => hhistory d (hperm.mem_iff.2 hd))
  obtain ⟨hentries, hcharacters⟩ := hafter.eq_of_perm hafter' hperm hapart
  refine ⟨hmade, hmade', hentries.symm, ?_, fun n => (hcharacters n).symm⟩
  rw [dump, dump, hentries]

/-- A block behind the one there is, and single definitions of which one replaces another and one
lies in a block. -/
theorem Reachable.after_eq_of_perm_reversed :
    let han : Character := ⟨"<Han>", .otherLetter⟩
    let mine : Character := ⟨"MINE", .otherSymbol⟩
    let db := empty.after [.single 0x41 han, .block ⟨0x3400, 0x4DBF, han⟩]
    let ds : List Definition := [.single 0x41 mine, .block ⟨0xE000, 0xF8FF, han⟩,
      .single 0x3400 mine]
    db.Reachable ∧ db.made ds = ds ∧ db.made ds.reverse = ds.reverse
      ∧ (db.after ds.reverse).entries = (db.after ds).entries
      ∧ (db.after ds.reverse).dump = (db.after ds).dump
      ∧ ∀ n, (db.after ds.reverse).characterAt? n = (db.after ds).characterAt? n := by
  intro han mine db ds
  have hreachable : db.Reachable := ⟨empty, [], _, .empty, rfl⟩
  have hthere : db.blocks.toList = [⟨0x3400, 0x4DBF, han⟩] := by decide +kernel
  have hvalid : ∀ d ∈ ds, d.Valid := by simp [ds, Valid, CodePoint.max]
  have hapart : ds.Pairwise Apart := by simp [ds, Apart]
  have hblocks : ∀ b, block b ∈ ds → ∀ a ∈ db.blocks.toList, ¬ a.Meets b := by
    intro b hb
    obtain rfl : b = ⟨0xE000, 0xF8FF, han⟩ := by simpa [ds] using hb
    rw [hthere, List.forall_mem_singleton]
    exact Entry.not_meets_of_last_lt (by decide)
  exact ⟨hreachable, hreachable.after_eq_of_perm hvalid hapart hblocks ds.reverse_perm.symm⟩

/-- Making the definitions of a listing one by one, a single definition for a row of its own and a
block for two rows that mark one, leads to what reading the listing gives, whatever the order: each
definition is taken, none replaces another, and the database has the same entries and gives each
code point the same character. -/
theorem after_eq_of_read {text : String} (hread : Listing.read text = .ok db) :
    ∃ entries, Listing.Describes text entries ∧ ∀ ds : List Definition,
      ds.Perm (entries.map ofEntry) →
      empty.made ds = ds
      ∧ (∀ before n character later, ds = before ++ single n character :: later →
        ((empty.after before).define n character).1 = none)
      ∧ (empty.after ds).entries = db.entries
      ∧ (empty.after ds).dump = db.dump
      ∧ ∀ n, (empty.after ds).characterAt? n = db.characterAt? n := by
  have hdescribes := Listing.describes_of_read hread
  refine ⟨_, hdescribes, fun ds hperm => ?_⟩
  have hapart : ds.Pairwise Apart :=
    (hperm.pairwise_iff Apart.symm).2 (pairwise_apart_map_ofEntry hdescribes.ascending)
  have hvalid : ∀ d ∈ ds, d.Valid := by
    intro d hd
    obtain ⟨e, he, rfl⟩ := List.mem_map.1 (hperm.mem_iff.1 hd)
    exact valid_ofEntry (hdescribes.last_le_max e he)
  obtain ⟨hmade, hbuilt⟩ := empty_after_reflects hvalid hapart
  have hparsed : db.Reflects (db.entries.map ofEntry) := (Begins.read hread hdescribes).reflects
  obtain ⟨hentries, hcharacters⟩ : (empty.after ds).entries = db.entries
      ∧ ∀ n, (empty.after ds).characterAt? n = db.characterAt? n := by
    rw [← List.nil_append ds] at hbuilt
    rw [← List.nil_append (db.entries.map ofEntry)] at hparsed
    exact hbuilt.eq_of_perm hparsed hperm hapart
  refine ⟨hmade, ?_, hentries, by rw [dump, dump, hentries], hcharacters⟩
  rintro before n character later rfl
  obtain ⟨hbefore, -, hbetween⟩ := List.pairwise_append.1 hapart
  obtain ⟨-, hreflects⟩ := empty_after_reflects
    (fun d hd => hvalid d (List.mem_append_left _ hd)) hbefore
  change (empty.after before).singles[n]? = none
  rw [hreflects.singles, Option.eq_none_iff_forall_ne_some]
  intro other hother
  rw [latest?_eq_some_iff hbefore] at hother
  exact hbetween _ hother _ List.mem_cons_self rfl

/-- The block of the listing is defined before the character that stands in front of it. -/
theorem after_eq_of_read_reversed :
    let lines := ["41;LATIN CAPITAL LETTER A;Lu;;;;;;;;;;;;", "3400;<CJK, First>;Lo;;;;;;;;;;;;",
      "4DBF;<CJK, Last>;Lo;;;;;;;;;;;;"]
    let a : Character := ⟨"LATIN CAPITAL LETTER A", .uppercaseLetter⟩
    let cjk : Character := ⟨"<CJK>", .otherLetter⟩
    let entries : List Entry := [⟨0x41, 0x41, a⟩, ⟨0x3400, 0x4DBF, cjk⟩]
    let ds : List Definition := [.block ⟨0x3400, 0x4DBF, cjk⟩, .single 0x41 a]
    ∃ db, Listing.read (String.join (lines.map (· ++ "\n"))) = .ok db
      ∧ Listing.Describes (String.join (lines.map (· ++ "\n"))) entries
      ∧ ds.Perm (entries.map ofEntry)
      ∧ empty.made ds = ds
      ∧ ((empty.after [.block ⟨0x3400, 0x4DBF, cjk⟩]).define 0x41 a).1 = none
      ∧ (empty.after ds).entries = db.entries
      ∧ (empty.after ds).dump = db.dump
      ∧ ∀ n, (empty.after ds).characterAt? n = db.characterAt? n := by
  intro lines a cjk entries ds
  have hlines : ∀ line ∈ lines, Text.IsLine line := by decide +kernel
  have hvalues : (Listing.readLines (lines.map String.toList)).toOption.map
      (fun db => (db.singleEntries, db.blocks.toList))
        = some ([⟨0x41, 0x41, a⟩], [⟨0x3400, 0x4DBF, cjk⟩]) := by
    decide +kernel
  obtain ⟨db, hread, hdescribes⟩ := Listing.exists_read_of_readLines hlines hvalues
  have hentries : List.merge [⟨0x41, 0x41, a⟩] [⟨0x3400, 0x4DBF, cjk⟩]
      (fun a b : Entry => a.first ≤ b.first) = entries := by simp [entries]
  rw [hentries] at hdescribes
  have hperm : ds.Perm (entries.map ofEntry) := .swap _ _ _
  obtain ⟨entries', hdescribes', hall⟩ := after_eq_of_read hread
  obtain rfl : entries' = entries := hdescribes'.unique hdescribes
  obtain ⟨hmade, hreplaced, hafter⟩ := hall ds hperm
  exact ⟨db, hread, hdescribes, hperm, hmade, hreplaced _ 0x41 a [] rfl, hafter⟩

end Database

end CharRuns

import CharRuns.Proofs.DatabaseIteration
import CharRuns.Proofs.ListingEntries

/-!
# Which texts are read

The reader refuses no listing. Between two rows it waits for rows that define entries, behind the
row that closes the open block if there is one (`Awaits`), and it takes whichever row comes next
(`Progress.exists_place`). So the texts that are read are the listings, and going through the
database gives the entries in the order of the text (`exists_read_iff_describes`).
-/

namespace CharRuns.Listing

/-- The rows to come define entries; if a block is open, the first of them closes it. -/
def Awaits : Option Opening → List Row → Prop
  | none, rows => ∃ entries, Defines rows entries
  | some o, rows => ∃ b rest entries, rows = b :: rest ∧ b.name = o.label ++ lastEnding
    ∧ o.category = b.category ∧ Defines rest entries

theorem Progress.exists_place {p : Progress} {row : Row} {rows : List Row}
    (h : Awaits p.opening (row :: rows)) (line : Nat) :
    ∃ p', p.place line row = .ok p' ∧ p'.previous = some row.codePoint
      ∧ Awaits p'.opening rows := by
  obtain ⟨previous, opening, database⟩ := p
  unfold Progress.place
  rcases opening with _ | o
  · obtain ⟨entries, hdefines⟩ := h
    cases hdefines with
    | single hfirst hlast hrest =>
      rw [Mark.ofName_eq_plain_iff.2 ⟨hfirst, hlast⟩]
      exact ⟨_, rfl, rfl, _, hrest⟩
    | block ha hb hcategory hrest =>
      rw [Mark.ofName_eq_first_iff.2 ha]
      exact ⟨_, rfl, rfl, _, _, _, rfl, hb, hcategory, hrest⟩
  · obtain ⟨b, rest, entries, hrows, hname, hcategory, hrest⟩ := h
    obtain ⟨rfl, rfl⟩ := List.cons.inj hrows
    rw [Mark.ofName_eq_last_iff.2 hname]
    simp only [hcategory, and_self, if_true]
    exact ⟨_, rfl, rfl, _, hrest⟩

theorem Progress.exists_takeAll : ∀ {lines : List (List Char)} {rows : List Row} {p : Progress}
    (number : Nat), HasRows lines rows → rows.Pairwise (fun a b => a.codePoint < b.codePoint) →
      (∀ n, p.previous = some n → ∀ row ∈ rows, n < row.codePoint) → Awaits p.opening rows →
      ∃ p', p.takeAll number lines = .ok p' ∧ p'.opening = none
  | [], rows, p, number, hrows, _, _, h => by
    obtain rfl : rows = [] := List.forall₂_nil_left_iff.1 hrows
    refine ⟨p, rfl, ?_⟩
    rcases ho : p.opening with _ | o
    · rfl
    · rw [ho] at h
      obtain ⟨b, rest, -, hnil, -⟩ := h
      cases hnil
  | line :: lines, rows, p, number, hrows, hascend, hprevious, h => by
    unfold HasRows at hrows
    rw [Progress.takeAll, Progress.take]
    by_cases hblank : Text.isBlankLine line = true
    · rw [List.filter_cons_of_neg (by simp [hblank])] at hrows
      simp only [hblank, if_true]
      exact Progress.exists_takeAll (number + 1) hrows hascend hprevious h
    · rw [List.filter_cons_of_pos (by simp [hblank])] at hrows
      obtain ⟨row, rest, hon, hrest, rfl⟩ := List.forall₂_cons_left_iff.1 hrows
      obtain ⟨hrow, hascend⟩ := List.pairwise_cons.1 hascend
      have hread : Row.read p.previous line = .ok row :=
        Row.read_eq_ok_iff.2 ⟨hon, fun n hn => hprevious n hn row List.mem_cons_self⟩
      obtain ⟨p₁, hplace, hcode, h₁⟩ := Progress.exists_place h number
      simp only [hblank, hread, hplace]
      refine Progress.exists_takeAll (number + 1) hrest hascend (fun n hn b hb => ?_) h₁
      obtain rfl : row.codePoint = n := Option.some_inj.1 (hcode.symm.trans hn)
      exact hrow b hb

theorem Describes.exists_read {text : String} {entries : List Entry} (h : Describes text entries) :
    ∃ db, read text = .ok db := by
  obtain ⟨rows, hrows, hascend, hdefines⟩ := h
  obtain ⟨p, htake, hopening⟩ := Progress.exists_takeAll (p := .start) 1 hrows hascend
    (fun n hn => by cases hn) ⟨entries, hdefines⟩
  refine ⟨p.database, ?_⟩
  rw [read, readLines, htake]
  change p.finish = _
  rw [Progress.finish, hopening]

theorem describes_of_read {text : String} {db : Database} (h : read text = .ok db) :
    Describes text db.entries := by
  obtain ⟨entries, hdescribes, hholds⟩ := holds_of_read h
  rwa [hholds.entries_eq hdescribes.ascending]

/-- What reading lines one by one comes to tells what their text is a listing of. -/
theorem exists_read_of_readLines {lines : List String} {singles blocks : List Entry}
    (hlines : ∀ line ∈ lines, Text.IsLine line)
    (hvalues : (readLines (lines.map String.toList)).toOption.map
      (fun db => (db.singleEntries, db.blocks.toList)) = some (singles, blocks)) :
    ∃ db, read (String.join (lines.map (· ++ "\n"))) = .ok db
      ∧ Describes (String.join (lines.map (· ++ "\n")))
        (singles.merge blocks fun a b => a.first ≤ b.first) := by
  rcases hread : readLines (lines.map String.toList) with fault | db
  · rw [hread] at hvalues
    cases hvalues
  · rw [hread] at hvalues
    obtain ⟨rfl, rfl⟩ := Prod.mk.inj (Option.some_inj.1 hvalues)
    rw [← Text.lines_join hlines] at hread
    exact ⟨db, hread, describes_of_read hread⟩

/-- The texts that are read are the listings, and the entries of the database are those that the
listing describes. -/
theorem exists_read_iff_describes (text : String) (entries : List Entry) :
    (∃ db, read text = .ok db ∧ db.entries = entries) ↔ Describes text entries := by
  constructor
  · rintro ⟨db, hread, rfl⟩
    exact describes_of_read hread
  · intro h
    obtain ⟨db, hread⟩ := h.exists_read
    obtain ⟨entries', h', hholds⟩ := holds_of_read hread
    exact ⟨db, hread, (hholds.entries_eq h'.ascending).trans (h'.unique h)⟩

end CharRuns.Listing

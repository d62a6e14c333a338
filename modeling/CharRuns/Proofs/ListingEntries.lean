import CharRuns.Proofs.DatabaseEntries
import CharRuns.Proofs.ListingGrammar

/-!
# Reading a listing

After some of the lines, the reader holds the entries that the rows so far define, a row that opens
a block set aside (`Reads`). Each row keeps this (`Reads.place`), so a text that is read is a
listing of the entries that its database holds (`holds_of_read`).
-/

namespace CharRuns.Listing

open Entry

section Entries

theorem Defines.append {rows more : List Row} {entries others : List Entry}
    (h : Defines rows entries) (hmore : Defines more others) :
    Defines (rows ++ more) (entries ++ others) := by
  induction h with
  | nil => exact hmore
  | single hfirst hlast _ ih => exact .single hfirst hlast ih
  | block ha hb hcategory _ ih => exact .block ha hb hcategory ih

/-- An entry starts and ends at rows, and takes its name from the first of them. -/
theorem Defines.exists_rows {rows : List Row} {entries : List Entry} (h : Defines rows entries) :
    ∀ e ∈ entries, ∃ a ∈ rows, ∃ b ∈ rows, e.first = a.codePoint ∧ e.last = b.codePoint
      ∧ ∀ c ∈ e.character.name.toList, c ∈ a.name ∨ c = '>' := by
  induction h with
  | nil => simp
  | @single row rows entries _ _ _ ih =>
    intro e he
    rcases List.mem_cons.1 he with rfl | he
    · exact ⟨row, List.mem_cons_self, row, List.mem_cons_self, rfl, rfl, fun c hc => by
        rw [String.toList_ofList] at hc
        exact .inl hc⟩
    · obtain ⟨a, ha, b, hb, h⟩ := ih e he
      exact ⟨a, List.mem_cons_of_mem _ ha, b, List.mem_cons_of_mem _ hb, h⟩
  | @block a b label rows entries ha _ _ _ ih =>
    intro e he
    rcases List.mem_cons.1 he with rfl | he
    · refine ⟨a, by simp, b, by simp, rfl, rfl, fun c hc => ?_⟩
      rw [String.toList_ofList, List.mem_append, List.mem_singleton] at hc
      exact hc.imp (fun hc => ha ▸ List.mem_append_left _ hc) id
    · obtain ⟨a', ha', b', hb', h⟩ := ih e he
      exact ⟨a', by simp [ha'], b', by simp [hb'], h⟩

theorem Defines.ascending {rows : List Row} {entries : List Entry} (h : Defines rows entries)
    (hrows : rows.Pairwise fun a b => a.codePoint < b.codePoint) : Ascending entries := by
  induction h with
  | nil => exact .nil
  | @single row rows entries _ _ h ih =>
    obtain ⟨hrow, hrows⟩ := List.pairwise_cons.1 hrows
    refine (ih hrows).cons le_rfl fun e he => ?_
    obtain ⟨a, ha, -, -, hfirst, -⟩ := h.exists_rows e he
    exact hfirst ▸ hrow a ha
  | @block a b label rows entries _ _ _ h ih =>
    obtain ⟨ha, hrows⟩ := List.pairwise_cons.1 hrows
    obtain ⟨hb, hrows⟩ := List.pairwise_cons.1 hrows
    refine (ih hrows).cons (ha b List.mem_cons_self).le fun e he => ?_
    obtain ⟨c, hc, -, -, hfirst, -⟩ := h.exists_rows e he
    exact hfirst ▸ hb c hc

theorem Describes.ascending {text : String} {entries : List Entry} (h : Describes text entries) :
    Ascending entries := by
  obtain ⟨rows, -, hrows, hdefines⟩ := h
  exact hdefines.ascending hrows

theorem HasRows.exists_line {lines : List (List Char)} {rows : List Row} (h : HasRows lines rows) :
    ∀ row ∈ rows, ∃ line ∈ lines, row.IsOn line := by
  unfold HasRows at h
  have hsub : ∀ line ∈ lines.filter (!Text.isBlankLine ·), line ∈ lines :=
    fun _ hline => List.mem_of_mem_filter hline
  generalize lines.filter (!Text.isBlankLine ·) = filled at h hsub
  induction h with
  | nil => simp
  | cons hon _ ih =>
    obtain ⟨hline, hsub⟩ := List.forall_mem_cons.1 hsub
    exact List.forall_mem_cons.2 ⟨⟨_, hline, hon⟩, ih hsub⟩

/-- No name in a listing breaks a line. -/
theorem Describes.newline_not_mem_name {text : String} {entries : List Entry}
    (h : Describes text entries) : ∀ e ∈ entries, '\n' ∉ e.character.name.toList := by
  obtain ⟨rows, hrows, -, hdefines⟩ := h
  intro e he hnewline
  obtain ⟨a, ha, -, -, -, -, hname⟩ := hdefines.exists_rows e he
  rcases hname _ hnewline with hc | hc
  · obtain ⟨line, hline, field, others, hfields, -⟩ := hrows.exists_line a ha
    have hfield : a.name ∈ line.splitOn ';' := by simp [hfields]
    exact Text.newline_not_mem_of_mem_lines hline (Text.forall_mem_splitOn hfield _ hc).1
  · cases hc

theorem Describes.last_le_max {text : String} {entries : List Entry} (h : Describes text entries) :
    ∀ e ∈ entries, e.last ≤ CodePoint.max := by
  obtain ⟨rows, hrows, -, hdefines⟩ := h
  intro e he
  obtain ⟨-, -, b, hb, -, hlast, -⟩ := hdefines.exists_rows e he
  obtain ⟨line, -, field, others, -, -, digits, -, -, hmax⟩ := hrows.exists_line b hb
  rwa [hlast]

end Entries

section Reader

/-- The reader after rows: it holds the entries they define, or those that all but the last of them
define while that one waits to be closed. -/
structure Progress.Reads (p : Progress) (rows : List Row) : Prop where
  ascending : rows.Pairwise fun a b => a.codePoint < b.codePoint
  previous : p.previous = rows.getLast?.map (·.codePoint)
  entries : match p.opening with
    | none => ∃ entries, Defines rows entries ∧ p.database.Holds entries
    | some o => ∃ done row entries, rows = done ++ [row] ∧ row.codePoint = o.first
      ∧ row.name = o.label ++ firstEnding ∧ row.category = o.category
      ∧ Defines done entries ∧ p.database.Holds entries

theorem start_reads : Progress.start.Reads [] where
  ascending := .nil
  previous := rfl
  entries := ⟨[], .nil, Database.empty_holds⟩

/-- A code point behind the last one is behind all of them. -/
theorem Progress.Reads.codePoint_lt {p : Progress} {rows : List Row} (h : p.Reads rows) {n : Nat}
    (hn : ∀ m, p.previous = some m → m < n) : ∀ row ∈ rows, row.codePoint < n := by
  intro row hrow
  have hprevious := h.previous
  have hascend := h.ascending
  rcases List.eq_nil_or_concat rows with rfl | ⟨init, final, rfl⟩
  · cases hrow
  · simp only [List.concat_eq_append] at hrow hprevious hascend
    have hfinal : final.codePoint < n := hn _ (by simpa using hprevious)
    rcases List.mem_append.1 hrow with hrow | hrow
    · exact ((List.pairwise_append.1 hascend).2.2 row hrow final (by simp)).trans hfinal
    · rwa [List.mem_singleton.1 hrow]

theorem Progress.Reads.place {p p' : Progress} {rows : List Row} (h : p.Reads rows) {line : Nat}
    {row : Row} (hrow : ∀ n, p.previous = some n → n < row.codePoint)
    (hplace : p.place line row = .ok p') : p'.Reads (rows ++ [row]) := by
  have hbefore := h.codePoint_lt hrow
  have hascend : (rows ++ [row]).Pairwise fun a b => a.codePoint < b.codePoint :=
    List.pairwise_append.2 ⟨h.ascending, List.pairwise_singleton _ _, by simpa using hbefore⟩
  have hentries := h.entries
  unfold Progress.place at hplace
  split at hplace
  · rename_i hmark hopening
    cases hplace
    rw [hopening] at hentries
    obtain ⟨entries, hdefines, hholds⟩ := hentries
    obtain ⟨hfirst, hlast⟩ := Mark.ofName_eq_plain_iff.1 hmark
    refine ⟨hascend, by simp, _, hdefines.append (.single hfirst hlast .nil), hholds.define ?_ _⟩
    intro e he
    obtain ⟨a, ha, -, -, hstart, -⟩ := hdefines.exists_rows e he
    exact hstart ▸ hbefore a ha
  · rename_i label hmark hopening
    cases hplace
    rw [hopening] at hentries
    obtain ⟨entries, hdefines, hholds⟩ := hentries
    exact ⟨hascend, by simp, rows, row, entries, rfl, rfl, Mark.ofName_eq_first_iff.1 hmark, rfl,
      hdefines, hholds⟩
  · cases hplace
  · rename_i label o hmark hopening
    split_ifs at hplace with hsame
    cases hplace
    obtain ⟨hlabel, hcategory⟩ := hsame
    rw [hopening] at hentries
    obtain ⟨done, a, entries, rfl, hstart, hname, hopened, hdefines, hholds⟩ := hentries
    have hend := Mark.ofName_eq_last_iff.1 hmark
    have hblock := Defines.block (hlabel ▸ hname) hend (hopened.trans hcategory) .nil
    rw [hstart, hopened, hcategory] at hblock
    have hdone := hdefines.append hblock
    rw [List.append_cons] at hdone
    exact ⟨hascend, by simp, _, hdone, hholds.push (hstart ▸ hbefore a (by simp))⟩
  · cases hplace

theorem HasRows.cons_blank {line : List Char} {lines : List (List Char)} {rows : List Row}
    (h : HasRows lines rows) (hblank : Text.isBlankLine line = true) :
    HasRows (line :: lines) rows := by
  simpa [HasRows, hblank] using h

theorem HasRows.cons {line : List Char} {lines : List (List Char)} {row : Row} {rows : List Row}
    (h : HasRows lines rows) (hblank : ¬ Text.isBlankLine line = true) (hrow : row.IsOn line) :
    HasRows (line :: lines) (row :: rows) := by
  rw [HasRows, List.filter_cons_of_pos (by simpa using hblank)]
  exact .cons hrow h

theorem Progress.Reads.takeAll : ∀ {lines : List (List Char)} {p p' : Progress} {rows : List Row}
    {number : Nat}, p.Reads rows → p.takeAll number lines = .ok p' →
      ∃ more, HasRows lines more ∧ p'.Reads (rows ++ more)
  | [], p, p', rows, number, h, htake => by
    cases htake
    exact ⟨[], .nil, by simpa using h⟩
  | line :: lines, p, p', rows, number, h, htake => by
    unfold Progress.takeAll at htake
    split at htake
    · cases htake
    rename_i p₁ hline
    unfold Progress.take at hline
    split_ifs at hline with hblank
    · cases hline
      obtain ⟨more, hmore, hreads⟩ := h.takeAll htake
      exact ⟨more, hmore.cons_blank hblank, hreads⟩
    · split at hline
      · cases hline
      rename_i row hread
      obtain ⟨hrow, hprevious⟩ := Row.read_eq_ok_iff.1 hread
      obtain ⟨more, hmore, hreads⟩ := (h.place hprevious hline).takeAll htake
      exact ⟨row :: more, hmore.cons hblank hrow, by simpa using hreads⟩

/-- A text that is read is a listing of the entries in the database. -/
theorem holds_of_read {text : String} {db : Database} (h : read text = .ok db) :
    ∃ entries, Describes text entries ∧ db.Holds entries := by
  unfold read readLines at h
  rcases htake : Progress.start.takeAll 1 (Text.lines text.toList) with fault | p
  · rw [htake] at h
    cases h
  · rw [htake] at h
    obtain ⟨rows, hrows, hreads⟩ := start_reads.takeAll htake
    have hentries := hreads.entries
    change p.finish = .ok db at h
    unfold Progress.finish at h
    split at h
    · cases h
    · rename_i hopening
      cases h
      rw [hopening] at hentries
      obtain ⟨entries, hdefines, hholds⟩ := hentries
      exact ⟨entries, ⟨rows, hrows, hreads.ascending, hdefines⟩, hholds⟩

end Reader

end CharRuns.Listing

import CharRuns.Proofs.ListingGrammar

/-!
# What is wrong with a listing

Whether a line passes depends on the line and on the row before it, which alone can have left a
block open. A line without a row fails by itself (`Row.Unreadable`), and a row fails where it stands
if it does not close the block that the row before it opens, or closes none (`Fails`). What has been
read so far stands for the row before the next line (`Progress.Stands`), each line that passes keeps
this, and so the fault of a listing is that of the first line that fails, or of the last row if that
opens a block (`read_diagnosis`).
-/

namespace CharRuns.Listing

/-- Why a line that follows a row with code point `previous` holds no row. Each reason is given
where those before it do not apply. -/
inductive Row.Unreadable (previous : Option Nat) (line : List Char) : Problem → Prop where
  | fieldCount (h : (line.splitOn ';').length ≠ Listing.fieldCount) :
      Unreadable previous line (.fieldCount (line.splitOn ';').length)
  | notHexadecimal {field : List Char} {others : List (List Char)}
      (hfields : line.splitOn ';' = field :: others)
      (hcount : others.length + 1 = Listing.fieldCount)
      (h : ∀ n < CodePoint.wordLimit, ¬ CodePoint.IsNumber field n) :
      Unreadable previous line (.notHexadecimal (String.ofList field))
  | outOfRange {field : List Char} {others : List (List Char)} {n : Nat}
      (hfields : line.splitOn ';' = field :: others)
      (hcount : others.length + 1 = Listing.fieldCount)
      (hnumber : CodePoint.IsNumber field n) (hword : n < CodePoint.wordLimit)
      (h : CodePoint.max < n) :
      Unreadable previous line (.outOfRange n)
  | outOfOrder {field : List Char} {others : List (List Char)} {n p : Nat}
      (hfields : line.splitOn ';' = field :: others)
      (hcount : others.length + 1 = Listing.fieldCount)
      (hfield : CodePoint.IsField field n) (hprevious : previous = some p) (h : n ≤ p) :
      Unreadable previous line (.outOfOrder p n)
  | unknownCategory {field name category : List Char} {others : List (List Char)} {n : Nat}
      (hfields : line.splitOn ';' = field :: name :: category :: others)
      (hcount : others.length + 3 = Listing.fieldCount) (hfield : CodePoint.IsField field n)
      (hprevious : ∀ p, previous = some p → p < n)
      (h : ∀ c : Category, category ≠ c.shortName.toList) :
      Unreadable previous line (.unknownCategory n (String.ofList category))

/-- The row marks the first code point of a block. -/
def Row.Opens (row : Row) : Prop :=
  firstEnding <:+ row.name

/-- The row marks the last code point of the block that `a` opens. -/
def Row.Closes (row a : Row) : Prop :=
  ∃ label, a.name = label ++ firstEnding ∧ row.name = label ++ lastEnding
    ∧ a.category = row.category

/-- The code points ascend from the row before, if there is one. -/
def Row.Ascends (before : Option (Row × Nat)) (row : Row) : Prop :=
  ∀ a, before.map (·.1.codePoint) = some a → a < row.codePoint

/-- The line holds the row, and this may stand behind the row before it: it closes the block that
this opens, or else it closes none. -/
structure Passes (before : Option (Row × Nat)) (line : List Char) (row : Row) : Prop where
  isOn : row.IsOn line
  ascends : row.Ascends before
  closes : ∀ a ∈ before, a.1.Opens → row.Closes a.1
  opened : lastEnding <:+ row.name → ∃ a ∈ before, a.1.Opens

/-- The fault of a line that has a number and a row before it. A block that is not closed is
reported where it opens. -/
inductive Fails (before : Option (Row × Nat)) (line : List Char) (number : Nat) : Fault → Prop where
  | unreadable {problem : Problem}
      (h : Row.Unreadable (before.map (·.1.codePoint)) line problem) :
      Fails before line number ⟨number, problem⟩
  | unclosedBlock {row a : Row} {opened : Nat} (hrow : row.IsOn line)
      (hascends : row.Ascends before) (hbefore : before = some (a, opened)) (hopens : a.Opens)
      (h : ¬ row.Closes a) :
      Fails before line number ⟨opened, .unclosedBlock a.codePoint⟩
  | unopenedBlock {row : Row} (hrow : row.IsOn line) (hascends : row.Ascends before)
      (hopens : ∀ a ∈ before, ¬ a.1.Opens) (h : lastEnding <:+ row.name) :
      Fails before line number ⟨number, .unopenedBlock row.codePoint⟩

/-- All lines pass, with the rows that they hold. -/
inductive AllPass : Option (Row × Nat) → List (List Char × Nat) → List (Row × Nat) → Prop where
  | nil {before : Option (Row × Nat)} : AllPass before [] []
  | cons {before : Option (Row × Nat)} {line : List Char} {number : Nat} {row : Row}
      {lines : List (List Char × Nat)} {rows : List (Row × Nat)} (h : Passes before line row)
      (hrest : AllPass (some (row, number)) lines rows) :
      AllPass before ((line, number) :: lines) ((row, number) :: rows)

/-- The lines that are not blank, with their numbers among all lines, of which the first is
`number`. -/
def filledFrom (number : Nat) (lines : List (List Char)) : List (List Char × Nat) :=
  (lines.zipIdx number).filter fun line => !Text.isBlankLine line.1

/-- The lines of a text that are not blank, each with its number among all lines. -/
def filledLines (text : String) : List (List Char × Nat) :=
  filledFrom 1 (Text.lines text.toList)

/-- A line fails behind lines that all pass. -/
def FirstFails (before : Option (Row × Nat)) (lines : List (List Char × Nat)) (fault : Fault) :
    Prop :=
  ∃ front line number back rows, lines = front ++ (line, number) :: back
    ∧ AllPass before front rows ∧ Fails (rows.getLast?.or before) line number fault

section Rows

variable {previous : Option Nat} {field line : List Char} {problem : Problem}

theorem codePoint_read?_eq_none_iff : CodePoint.read? field = none ↔
    ∀ n < CodePoint.wordLimit, ¬ CodePoint.IsNumber field n := by
  simp only [Option.eq_none_iff_forall_ne_some, ne_eq, codePoint_read?_eq_some_iff_isNumber]
  exact forall_congr' fun n => ⟨fun h hword hnumber => h ⟨hnumber, hword⟩, fun h hn => h hn.2 hn.1⟩

theorem readCodePoint_eq_error_iff : readCodePoint previous field = .error problem ↔
    ((∀ n < CodePoint.wordLimit, ¬ CodePoint.IsNumber field n)
        ∧ problem = .notHexadecimal (String.ofList field))
      ∨ (∃ n, CodePoint.IsNumber field n ∧ n < CodePoint.wordLimit ∧ CodePoint.max < n
        ∧ problem = .outOfRange n)
      ∨ ∃ n p, CodePoint.IsField field n ∧ previous = some p ∧ n ≤ p
        ∧ problem = .outOfOrder p n := by
  constructor
  · intro h
    unfold readCodePoint at h
    split at h
    · rename_i hread
      cases h
      exact .inl ⟨codePoint_read?_eq_none_iff.1 hread, rfl⟩
    · rename_i n hread
      obtain ⟨hnumber, hword⟩ := codePoint_read?_eq_some_iff_isNumber.1 hread
      split_ifs at h with hmax
      · cases h
        exact .inr (.inl ⟨n, hnumber, hword, hmax, rfl⟩)
      · rcases previous with _ | p
        · cases h
        · simp only at h
          split_ifs at h with hle
          cases h
          exact .inr (.inr ⟨n, p, isField_iff.2 ⟨hnumber, not_lt.1 hmax⟩, rfl, hle, rfl⟩)
  · rintro (⟨h, rfl⟩ | ⟨n, hnumber, hword, hmax, rfl⟩ | ⟨n, p, hfield, rfl, hle, rfl⟩)
    · rw [readCodePoint, codePoint_read?_eq_none_iff.2 h]
    · simp only [readCodePoint, codePoint_read?_eq_some_iff_isNumber.2 ⟨hnumber, hword⟩, hmax,
        if_true]
    · have hmax := (isField_iff.1 hfield).2
      simp only [readCodePoint, (codePoint_read?_eq_some_iff hmax).2 hfield, not_lt.2 hmax, hle,
        if_true, if_false]

theorem exists_of_length_add_one {others : List (List Char)}
    (hcount : others.length + 1 = Listing.fieldCount) :
    ∃ name category rest, others = name :: category :: rest
      ∧ rest.length + 3 = Listing.fieldCount := by
  rcases others with _ | ⟨name, _ | ⟨category, rest⟩⟩
  · cases hcount
  · cases hcount
  · exact ⟨name, category, rest, rfl, hcount⟩

theorem exists_fields (hcount : (line.splitOn ';').length = Listing.fieldCount) :
    ∃ field name category others, line.splitOn ';' = field :: name :: category :: others
      ∧ others.length + 3 = Listing.fieldCount := by
  obtain ⟨field, others, hfields⟩ : ∃ field others, line.splitOn ';' = field :: others :=
    List.exists_cons_of_ne_nil (List.splitOn_ne_nil _ _)
  rw [hfields, List.length_cons] at hcount
  obtain ⟨name, category, rest, rfl, hrest⟩ := exists_of_length_add_one hcount
  exact ⟨field, name, category, rest, hfields, hrest⟩

theorem Row.read_of_fields {name category : List Char} {others : List (List Char)}
    (hfields : line.splitOn ';' = field :: name :: category :: others)
    (hcount : others.length + 3 = Listing.fieldCount) :
    Row.read previous line = match readCodePoint previous field with
      | .error problem => .error problem
      | .ok n =>
        match Category.ofShortName? (String.ofList category) with
        | none => .error (.unknownCategory n (String.ofList category))
        | some c => .ok ⟨n, name, c⟩ := by
  rw [Row.read, hfields]
  exact if_pos hcount

theorem Row.read_of_length_ne (h : (line.splitOn ';').length ≠ Listing.fieldCount) :
    Row.read previous line = .error (.fieldCount (line.splitOn ';').length) := by
  unfold Row.read
  split
  · rename_i hfields
    rw [hfields] at h ⊢
    exact if_neg h
  · rfl

theorem ofShortName?_eq_none_iff {text : List Char} :
    Category.ofShortName? (String.ofList text) = none
      ↔ ∀ c : Category, text ≠ c.shortName.toList := by
  simp only [Option.eq_none_iff_forall_ne_some, ne_eq, ofShortName?_eq_some_iff]

/-- The reader of a row tells the first reason why there is none. -/
theorem Row.read_eq_error_iff :
    Row.read previous line = .error problem ↔ Row.Unreadable previous line problem := by
  constructor
  · intro h
    by_cases hcount : (line.splitOn ';').length = Listing.fieldCount
    · obtain ⟨field, name, category, rest, hfields, hrest⟩ := exists_fields hcount
      rw [hfields, List.length_cons] at hcount
      rw [Row.read_of_fields hfields hrest] at h
      split at h
      · rename_i hcode
        cases h
        obtain ⟨h, rfl⟩ | ⟨n, hnumber, hword, hmax, rfl⟩ | ⟨n, p, hfield, hprevious, hle, rfl⟩ :=
          readCodePoint_eq_error_iff.1 hcode
        · exact .notHexadecimal hfields hcount h
        · exact .outOfRange hfields hcount hnumber hword hmax
        · exact .outOfOrder hfields hcount hfield hprevious hle
      · rename_i n hcode
        obtain ⟨hfield, hprevious⟩ := isField_of_readCodePoint hcode
        split at h
        · rename_i hcategory
          cases h
          exact .unknownCategory hfields hrest hfield hprevious
            (ofShortName?_eq_none_iff.1 hcategory)
        · cases h
    · rw [Row.read_of_length_ne hcount] at h
      cases h
      exact .fieldCount hcount
  · intro h
    cases h with
    | fieldCount h => exact Row.read_of_length_ne h
    | notHexadecimal hfields hcount h =>
      obtain ⟨name, category, rest, rfl, hrest⟩ := exists_of_length_add_one hcount
      rw [Row.read_of_fields hfields hrest, readCodePoint_eq_error_iff.2 (.inl ⟨h, rfl⟩)]
    | outOfRange hfields hcount hnumber hword h =>
      obtain ⟨name, category, rest, rfl, hrest⟩ := exists_of_length_add_one hcount
      rw [Row.read_of_fields hfields hrest,
        readCodePoint_eq_error_iff.2 (.inr (.inl ⟨_, hnumber, hword, h, rfl⟩))]
    | outOfOrder hfields hcount hfield hprevious h =>
      obtain ⟨name, category, rest, rfl, hrest⟩ := exists_of_length_add_one hcount
      rw [Row.read_of_fields hfields hrest,
        readCodePoint_eq_error_iff.2 (.inr (.inr ⟨_, _, hfield, hprevious, h, rfl⟩))]
    | unknownCategory hfields hcount hfield hprevious h =>
      rw [Row.read_of_fields hfields hcount, readCodePoint_of_isField hfield hprevious]
      simp only [ofShortName?_eq_none_iff.2 h]

end Rows

section Steps

variable {before : Option (Row × Nat)} {line : List Char} {number : Nat} {row : Row} {fault : Fault}

/-- A line passes or fails. -/
theorem exists_passes_or_fails (before : Option (Row × Nat)) (line : List Char) (number : Nat) :
    (∃ row, Passes before line row) ∨ ∃ fault, Fails before line number fault := by
  rcases hread : Row.read (before.map (·.1.codePoint)) line with problem | row
  · exact .inr ⟨_, .unreadable (Row.read_eq_error_iff.1 hread)⟩
  obtain ⟨hrow, hascends⟩ := Row.read_eq_ok_iff.1 hread
  by_cases hopens : ∃ a ∈ before, a.1.Opens
  · obtain ⟨⟨a, opened⟩, ha, hopens⟩ := hopens
    by_cases hcloses : row.Closes a
    · refine .inl ⟨row, hrow, hascends, fun b hb _ => ?_, fun _ => ⟨_, ha, hopens⟩⟩
      cases Option.mem_unique ha hb
      exact hcloses
    · exact .inr ⟨_, .unclosedBlock hrow hascends ha hopens hcloses⟩
  · simp only [not_exists, not_and] at hopens
    by_cases hlast : lastEnding <:+ row.name
    · exact .inr ⟨_, .unopenedBlock hrow hascends hopens hlast⟩
    · exact .inl ⟨row, hrow, hascends, fun a ha h => absurd h (hopens a ha),
        fun h => absurd h hlast⟩

/-- The block that a row leaves open. -/
def Opening.ofRow? (a : Row × Nat) : Option Opening :=
  match Mark.ofName a.1.name with
  | .first label => some ⟨a.2, a.1.codePoint, label, a.1.category⟩
  | _ => none

theorem Opening.ofRow?_of_not_opens {a : Row × Nat} (h : ¬ a.1.Opens) : ofRow? a = none := by
  unfold ofRow?
  split
  · rename_i label hmark
    exact absurd ⟨label, (Mark.ofName_eq_first_iff.1 hmark).symm⟩ h
  · rfl

theorem Opening.ofRow?_of_name {a : Row} {label : List Char} (h : a.name = label ++ firstEnding)
    (number : Nat) :
    ofRow? (a, number) = some ⟨number, a.codePoint, label, a.category⟩ := by
  rw [ofRow?, Mark.ofName_eq_first_iff.2 h]

/-- What has been read leaves this row before the next line. -/
structure Progress.Stands (p : Progress) (before : Option (Row × Nat)) : Prop where
  previous : p.previous = before.map (·.1.codePoint)
  opening : p.opening = before.bind Opening.ofRow?

variable {p : Progress}

theorem Progress.Stands.opening_eq_none (h : p.Stands before)
    (hopens : ∀ a ∈ before, ¬ a.1.Opens) : p.opening = none := by
  rw [h.opening, Option.bind_eq_none_iff]
  exact fun a ha => Opening.ofRow?_of_not_opens (hopens a ha)

theorem Progress.Stands.opening_eq_some {a : Row} {opened : Nat} {label : List Char}
    (h : p.Stands (some (a, opened))) (ha : a.name = label ++ firstEnding) :
    p.opening = some ⟨opened, a.codePoint, label, a.category⟩ := by
  rw [h.opening, Option.bind_some, Opening.ofRow?_of_name ha]

/-- Where no block is open, a row that closes one is refused. -/
theorem Progress.Stands.place_of_not_opens (h : p.Stands before)
    (hopens : ∀ a ∈ before, ¬ a.1.Opens) (row : Row) (number : Nat) :
    (lastEnding <:+ row.name ∧ p.place number row = .error ⟨number, .unopenedBlock row.codePoint⟩)
      ∨ (¬ lastEnding <:+ row.name ∧ ∃ p', p.place number row = .ok p'
        ∧ p'.Stands (some (row, number))) := by
  unfold Progress.place
  rw [h.opening_eq_none hopens]
  rcases hmark : Mark.ofName row.name with _ | label | label
  · obtain ⟨hfirst, hlast⟩ := Mark.ofName_eq_plain_iff.1 hmark
    exact .inr ⟨hlast, _, rfl, rfl, (Opening.ofRow?_of_not_opens (a := (row, number)) hfirst).symm⟩
  · have hname := Mark.ofName_eq_first_iff.1 hmark
    refine .inr ⟨fun hlast => ?_, _, rfl, rfl, (Opening.ofRow?_of_name hname number).symm⟩
    obtain ⟨label', hlabel'⟩ := hlast
    rw [Mark.ofName_eq_last_iff.2 hlabel'.symm] at hmark
    cases hmark
  · exact .inl ⟨⟨label, (Mark.ofName_eq_last_iff.1 hmark).symm⟩, rfl⟩

theorem Row.closes_iff {a : Row} {label : List Char} (ha : a.name = label ++ firstEnding) :
    row.Closes a ↔ Mark.ofName row.name = .last label ∧ a.category = row.category := by
  rw [Mark.ofName_eq_last_iff]
  constructor
  · rintro ⟨label', ha', hrow, hcategory⟩
    obtain rfl := List.append_cancel_right (ha.symm.trans ha')
    exact ⟨hrow, hcategory⟩
  · rintro ⟨hrow, hcategory⟩
    exact ⟨label, ha, hrow, hcategory⟩

/-- Where a block is open, every row but the one that closes it is refused. -/
theorem Progress.Stands.place_of_opens {a : Row} {opened : Nat} (h : p.Stands (some (a, opened)))
    (hopens : a.Opens) (row : Row) (number : Nat) :
    (¬ row.Closes a ∧ p.place number row = .error ⟨opened, .unclosedBlock a.codePoint⟩)
      ∨ (row.Closes a ∧ ∃ p', p.place number row = .ok p' ∧ p'.Stands (some (row, number))) := by
  obtain ⟨label, hlabel⟩ := hopens
  rw [Row.closes_iff hlabel.symm]
  unfold Progress.place
  rw [h.opening_eq_some hlabel.symm]
  rcases hmark : Mark.ofName row.name with _ | label' | label'
  · exact .inl ⟨by simp, rfl⟩
  · exact .inl ⟨by simp, rfl⟩
  · by_cases hsame : label = label' ∧ a.category = row.category
    · have hrow : ¬ row.Opens := by
        rw [Row.Opens, Mark.ofName_eq_last_iff.1 hmark]
        exact not_firstEnding_of_last label'
      refine .inr ⟨⟨by rw [hsame.1], hsame.2⟩, _, if_pos hsame, rfl, ?_⟩
      exact (Opening.ofRow?_of_not_opens (a := (row, number)) hrow).symm
    · refine .inl ⟨fun hcloses => hsame ⟨?_, hcloses.2⟩, if_neg hsame⟩
      exact (Mark.last.inj hcloses.1).symm

theorem Progress.Stands.read (h : p.Stands before) (hrow : row.IsOn line)
    (hascends : row.Ascends before) : Row.read p.previous line = .ok row := by
  rw [h.previous]
  exact Row.read_eq_ok_iff.2 ⟨hrow, hascends⟩

/-- A line that passes is taken, and its row is the one before the next. -/
theorem Passes.exists_take (hpasses : Passes before line row) (h : p.Stands before)
    (hfilled : Text.isBlankLine line = false) (number : Nat) :
    ∃ p', p.take number line = .ok p' ∧ p'.Stands (some (row, number)) := by
  obtain ⟨hrow, hascends, hcloses, hopened⟩ := hpasses
  have htake : p.take number line = p.place number row := by
    simp only [Progress.take, hfilled, h.read hrow hascends, Bool.false_eq_true, if_false]
  rw [htake]
  by_cases hopens : ∃ a ∈ before, a.1.Opens
  · obtain ⟨⟨a, opened⟩, rfl, hopens⟩ := hopens
    rcases h.place_of_opens hopens row number with ⟨hnot, -⟩ | ⟨-, hplace⟩
    · exact absurd (hcloses _ rfl hopens) hnot
    · exact hplace
  · rcases h.place_of_not_opens (by simpa using hopens) row number with ⟨hlast, -⟩ | ⟨-, hplace⟩
    · exact absurd (hopened hlast) hopens
    · exact hplace

/-- A line that fails is refused for its fault. -/
theorem Fails.take_eq (hfails : Fails before line number fault) (h : p.Stands before)
    (hfilled : Text.isBlankLine line = false) : p.take number line = .error fault := by
  unfold Progress.take
  rw [if_neg (by simp [hfilled])]
  cases hfails with
  | unreadable hunreadable => rw [h.previous, Row.read_eq_error_iff.2 hunreadable]
  | @unclosedBlock row a opened hrow hascends hbefore hopens hcloses =>
    subst hbefore
    rw [h.read hrow hascends]
    rcases h.place_of_opens hopens row number with ⟨-, hplace⟩ | ⟨hyes, -⟩
    · exact hplace
    · exact absurd hyes hcloses
  | @unopenedBlock row hrow hascends hopens hlast =>
    rw [h.read hrow hascends]
    rcases h.place_of_not_opens hopens row number with ⟨-, hplace⟩ | ⟨hnot, -⟩
    · exact hplace
    · exact absurd hlast hnot

end Steps

section Runs

theorem filledFrom_cons (number : Nat) (line : List Char) (lines : List (List Char)) :
    filledFrom number (line :: lines) = if Text.isBlankLine line = true
      then filledFrom (number + 1) lines
      else (line, number) :: filledFrom (number + 1) lines := by
  simp only [filledFrom, List.zipIdx_cons, List.filter_cons]
  cases Text.isBlankLine line <;> rfl

theorem getLast?_cons_or {α : Type} (a : α) (as : List α) (o : Option α) :
    (a :: as).getLast?.or o = as.getLast?.or (some a) := by
  rw [List.getLast?_cons]
  cases as.getLast? <;> rfl

/-- Lines all pass, or there is a first one that fails. -/
theorem exists_allPass_or_firstFails : ∀ (before : Option (Row × Nat))
    (lines : List (List Char × Nat)),
      (∃ rows, AllPass before lines rows) ∨ ∃ fault, FirstFails before lines fault
  | before, [] => .inl ⟨[], .nil⟩
  | before, (line, number) :: lines => by
    rcases exists_passes_or_fails before line number with ⟨row, hpasses⟩ | ⟨fault, hfails⟩
    · rcases exists_allPass_or_firstFails (some (row, number)) lines with
        ⟨rows, hrows⟩ | ⟨fault, front, line', number', back, rows, rfl, hrows, hfails⟩
      · exact .inl ⟨_, .cons hpasses hrows⟩
      · refine .inr ⟨fault, _ :: front, line', number', back, _ :: rows, rfl,
          .cons hpasses hrows, ?_⟩
        rwa [getLast?_cons_or]
    · exact .inr ⟨fault, [], line, number, lines, [], rfl, .nil, hfails⟩

theorem AllPass.exists_takeAll : ∀ {lines : List (List Char)} {before : Option (Row × Nat)}
    {rows : List (Row × Nat)} {p : Progress} {number : Nat},
      AllPass before (filledFrom number lines) rows → p.Stands before →
      ∃ p', p.takeAll number lines = .ok p' ∧ p'.Stands (rows.getLast?.or before)
  | [], before, rows, p, number, hrows, h => by
    cases hrows
    exact ⟨p, rfl, h⟩
  | line :: lines, before, rows, p, number, hrows, h => by
    rw [filledFrom_cons] at hrows
    rw [Progress.takeAll]
    by_cases hblank : Text.isBlankLine line = true
    · rw [if_pos hblank] at hrows
      rw [Progress.take, if_pos hblank]
      exact hrows.exists_takeAll h
    · rw [if_neg hblank] at hrows
      cases hrows with
      | @cons _ _ _ row _ rows hpasses hrows =>
        obtain ⟨p₁, htake, h₁⟩ := hpasses.exists_take h (by simpa using hblank) number
        rw [htake, getLast?_cons_or]
        exact hrows.exists_takeAll h₁

theorem FirstFails.takeAll_eq : ∀ {lines : List (List Char)} {before : Option (Row × Nat)}
    {fault : Fault} {p : Progress} {number : Nat},
      FirstFails before (filledFrom number lines) fault → p.Stands before →
      p.takeAll number lines = .error fault
  | [], before, fault, p, number, hfails, h => by
    obtain ⟨front, _, _, _, _, hlines, -⟩ := hfails
    cases front <;> cases hlines
  | line :: lines, before, fault, p, number, hfails, h => by
    rw [filledFrom_cons] at hfails
    rw [Progress.takeAll]
    by_cases hblank : Text.isBlankLine line = true
    · rw [if_pos hblank] at hfails
      rw [Progress.take, if_pos hblank]
      exact hfails.takeAll_eq h
    · rw [if_neg hblank] at hfails
      have hfilled : Text.isBlankLine line = false := by simpa using hblank
      obtain ⟨front, line', number', back, rows, hlines, hrows, hfails⟩ := hfails
      cases hrows with
      | nil =>
        obtain ⟨⟨rfl, rfl⟩, rfl⟩ := List.cons.inj hlines
        rw [hfails.take_eq h hfilled]
      | @cons _ _ _ row front rows hpasses hrows =>
        obtain ⟨⟨rfl, rfl⟩, hrest⟩ := List.cons.inj hlines
        obtain ⟨p₁, htake, h₁⟩ := hpasses.exists_take h hfilled number
        rw [getLast?_cons_or] at hfails
        rw [htake]
        exact FirstFails.takeAll_eq ⟨front, line', number', back, rows, hrest, hrows, hfails⟩ h₁

theorem start_stands : Progress.start.Stands none :=
  ⟨rfl, rfl⟩

variable {text : String} {fault : Fault} {rows : List (Row × Nat)}

theorem FirstFails.read_eq (h : FirstFails none (filledLines text) fault) :
    read text = .error fault := by
  rw [read, readLines, h.takeAll_eq start_stands]
  rfl

theorem AllPass.read_eq (h : AllPass none (filledLines text) rows) :
    ∃ p : Progress, p.Stands rows.getLast? ∧ read text = p.finish := by
  obtain ⟨p, htake, hstands⟩ := h.exists_takeAll start_stands
  rw [Option.or_none] at hstands
  refine ⟨p, hstands, ?_⟩
  rw [read, readLines, htake]
  rfl

theorem AllPass.exists_read (h : AllPass none (filledLines text) rows)
    (hlast : ∀ a ∈ rows.getLast?, ¬ a.1.Opens) : ∃ db, read text = .ok db := by
  obtain ⟨p, hstands, hread⟩ := h.read_eq
  refine ⟨p.database, ?_⟩
  rw [hread, Progress.finish, hstands.opening_eq_none hlast]

theorem AllPass.read_eq_error (h : AllPass none (filledLines text) rows) {a : Row × Nat}
    (hlast : a ∈ rows.getLast?) (hopens : a.1.Opens) :
    read text = .error ⟨a.2, .unclosedBlock a.1.codePoint⟩ := by
  obtain ⟨p, hstands, hread⟩ := h.read_eq
  obtain ⟨label, hlabel⟩ := hopens
  rw [Option.mem_def.1 hlast] at hstands
  rw [hread, Progress.finish, hstands.opening_eq_some hlabel.symm]
  rfl

/-- A text is refused for the fault of the first line that fails, or, if no line fails but the last
row opens a block, for this block. Any other text is read. -/
theorem read_diagnosis (text : String) :
    (∀ fault, read text = .error fault ↔ FirstFails none (filledLines text) fault
      ∨ ∃ rows a, AllPass none (filledLines text) rows ∧ a ∈ rows.getLast? ∧ a.1.Opens
        ∧ fault = ⟨a.2, .unclosedBlock a.1.codePoint⟩)
    ∧ ((∃ db, read text = .ok db) ↔ ∃ rows, AllPass none (filledLines text) rows
      ∧ ∀ a ∈ rows.getLast?, ¬ a.1.Opens) := by
  have hcases : (∃ rows, AllPass none (filledLines text) rows ∧ ∀ a ∈ rows.getLast?, ¬ a.1.Opens)
      ∨ ∃ fault, read text = .error fault ∧ (FirstFails none (filledLines text) fault
        ∨ ∃ rows a, AllPass none (filledLines text) rows ∧ a ∈ rows.getLast? ∧ a.1.Opens
          ∧ fault = ⟨a.2, .unclosedBlock a.1.codePoint⟩) := by
    rcases exists_allPass_or_firstFails none (filledLines text) with ⟨rows, hrows⟩ | ⟨fault, hfails⟩
    · by_cases hlast : ∃ a ∈ rows.getLast?, a.1.Opens
      · obtain ⟨a, ha, hopens⟩ := hlast
        exact .inr ⟨_, hrows.read_eq_error ha hopens, .inr ⟨rows, a, hrows, ha, hopens, rfl⟩⟩
      · exact .inl ⟨rows, hrows, by simpa using hlast⟩
    · exact .inr ⟨fault, hfails.read_eq, .inl hfails⟩
  constructor
  · intro fault
    constructor
    · intro hread
      rcases hcases with ⟨rows, hrows, hlast⟩ | ⟨fault', hread', hdiagnosis⟩
      · obtain ⟨db, hok⟩ := hrows.exists_read hlast
        cases hread.symm.trans hok
      · cases hread.symm.trans hread'
        exact hdiagnosis
    · rintro (hfails | ⟨rows, a, hrows, ha, hopens, rfl⟩)
      · exact hfails.read_eq
      · exact hrows.read_eq_error ha hopens
  · constructor
    · rintro ⟨db, hread⟩
      rcases hcases with hpass | ⟨fault, hread', -⟩
      · exact hpass
      · cases hread.symm.trans hread'
    · rintro ⟨rows, hrows, hlast⟩
      exact hrows.exists_read hlast

end Runs

end CharRuns.Listing

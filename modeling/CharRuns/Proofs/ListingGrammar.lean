import CharRuns.Listing
import CharRuns.Proofs.Numeral
import CharRuns.Proofs.TextLines

/-!
# The grammar of listings

What a listing says, without the order in which a reader looks at it: which rows its lines hold,
and which entries the rows define. `Row.read` reads the rows that the grammar allows
(`read_eq_ok_iff`), and what a row is marked as is what its name ends in.
-/

namespace CharRuns

/-- The field writes a number, perhaps behind a plus sign. -/
def CodePoint.IsNumber (field : List Char) (n : Nat) : Prop :=
  ∃ digits, (field = digits ∨ field = '+' :: digits) ∧ Hex.IsNumeral digits n

/-- The field writes a code point, perhaps behind a plus sign. -/
def CodePoint.IsField (field : List Char) (n : Nat) : Prop :=
  ∃ digits, (field = digits ∨ field = '+' :: digits) ∧ Hex.IsNumeral digits n ∧ n ≤ max

namespace Listing

/-- The line holds the row in the first three of its fields. -/
def Row.IsOn (row : Row) (line : List Char) : Prop :=
  ∃ field others, line.splitOn ';' = field :: row.name :: row.category.shortName.toList :: others
    ∧ others.length + 3 = fieldCount ∧ CodePoint.IsField field row.codePoint

/-- The rows on the lines that are not blank. -/
def HasRows (lines : List (List Char)) (rows : List Row) : Prop :=
  List.Forall₂ (fun line row => row.IsOn line) (lines.filter (!Text.isBlankLine ·)) rows

/-- A row defines an entry of its own, unless it and the next mark the ends of a block. -/
inductive Defines : List Row → List Entry → Prop where
  | nil : Defines [] []
  | single {row : Row} {rows : List Row} {entries : List Entry}
      (hfirst : ¬ firstEnding <:+ row.name) (hlast : ¬ lastEnding <:+ row.name)
      (h : Defines rows entries) :
      Defines (row :: rows)
        (⟨row.codePoint, row.codePoint, ⟨String.ofList row.name, row.category⟩⟩ :: entries)
  | block {a b : Row} {label : List Char} {rows : List Row} {entries : List Entry}
      (ha : a.name = label ++ firstEnding) (hb : b.name = label ++ lastEnding)
      (hcategory : a.category = b.category) (h : Defines rows entries) :
      Defines (a :: b :: rows)
        (⟨a.codePoint, b.codePoint, ⟨String.ofList (label ++ ['>']), a.category⟩⟩ :: entries)

/-- The text is a listing of the entries. -/
def Describes (text : String) (entries : List Entry) : Prop :=
  ∃ rows : List Row, HasRows (Text.lines text.toList) rows
    ∧ rows.Pairwise (fun a b => a.codePoint < b.codePoint) ∧ Defines rows entries

section Reading

theorem codePoint_read?_eq_some_iff_isNumber {field : List Char} {n : Nat} :
    CodePoint.read? field = some n ↔ CodePoint.IsNumber field n ∧ n < CodePoint.wordLimit := by
  simp only [CodePoint.read?, Option.filter_eq_some_iff, Hex.value?_eq_some_iff,
    decide_eq_true_eq, CodePoint.IsNumber]
  refine and_congr_left fun _ => ⟨fun h => ?_, ?_⟩
  · split at h
    · exact ⟨_, .inr rfl, h⟩
    · exact ⟨_, .inl rfl, h⟩
  · rintro ⟨digits, rfl | rfl, h⟩
    · split
      · -- A numeral does not start with a plus sign.
        exact absurd List.mem_cons_self (h.not_mem rfl)
      · exact h
    · exact h

theorem isField_iff {field : List Char} {n : Nat} :
    CodePoint.IsField field n ↔ CodePoint.IsNumber field n ∧ n ≤ CodePoint.max := by
  unfold CodePoint.IsField CodePoint.IsNumber
  constructor
  · rintro ⟨digits, hfield, hdigits, hn⟩
    exact ⟨⟨digits, hfield, hdigits⟩, hn⟩
  · rintro ⟨⟨digits, hfield, hdigits⟩, hn⟩
    exact ⟨digits, hfield, hdigits, hn⟩

theorem codePoint_read?_eq_some_iff {field : List Char} {n : Nat} (hn : n ≤ CodePoint.max) :
    CodePoint.read? field = some n ↔ CodePoint.IsField field n := by
  have hword : n < CodePoint.wordLimit := Nat.lt_of_le_of_lt hn (by decide)
  rw [codePoint_read?_eq_some_iff_isNumber, isField_iff, and_iff_left hword, and_iff_left hn]

theorem isField_of_readCodePoint {previous : Option Nat} {field : List Char} {n : Nat}
    (h : readCodePoint previous field = .ok n) :
    CodePoint.IsField field n ∧ ∀ p, previous = some p → p < n := by
  unfold readCodePoint at h
  split at h
  · cases h
  · rename_i m hread
    split_ifs at h with hmax
    have hfield := (codePoint_read?_eq_some_iff (Nat.le_of_not_lt hmax)).1 hread
    split at h
    · cases h
      exact ⟨hfield, fun p hp => by cases hp⟩
    · rename_i q
      split_ifs at h with hle
      cases h
      exact ⟨hfield, fun p hp => by cases hp; omega⟩

theorem readCodePoint_of_isField {previous : Option Nat} {field : List Char} {n : Nat}
    (h : CodePoint.IsField field n) (hprevious : ∀ p, previous = some p → p < n) :
    readCodePoint previous field = .ok n := by
  obtain ⟨-, -, -, hn⟩ := id h
  rw [readCodePoint, (codePoint_read?_eq_some_iff hn).2 h]
  dsimp only
  rw [if_neg (by omega)]
  rcases previous with _ | p
  · rfl
  · have := hprevious p rfl
    exact if_neg (by omega)

theorem ofShortName?_eq_some_iff {text : List Char} {c : Category} :
    Category.ofShortName? (String.ofList text) = some c ↔ text = c.shortName.toList := by
  constructor
  · intro h
    rw [← Category.eq_shortName_of_ofShortName? h, String.toList_ofList]
  · rintro rfl
    rw [String.ofList_toList, Category.ofShortName?_shortName]

/-- The rows that are read are those on the line whose code points ascend. -/
theorem Row.read_eq_ok_iff {previous : Option Nat} {line : List Char} {row : Row} :
    Row.read previous line = .ok row ↔
      row.IsOn line ∧ ∀ p, previous = some p → p < row.codePoint := by
  constructor
  · intro h
    unfold Row.read at h
    split at h
    · rename_i field name category others hfields
      split_ifs at h with hcount
      split at h
      · cases h
      · rename_i n hn
        split at h
        · cases h
        · rename_i c hc
          cases h
          rw [ofShortName?_eq_some_iff] at hc
          obtain ⟨hfield, hprevious⟩ := isField_of_readCodePoint hn
          exact ⟨⟨field, others, hc ▸ hfields, hcount, hfield⟩, hprevious⟩
    · cases h
  · rintro ⟨⟨field, others, hfields, hcount, hfield⟩, hprevious⟩
    have hcode := readCodePoint_of_isField hfield hprevious
    rw [Row.read, hfields]
    simp only [hcount, if_true, hcode]
    rw [ofShortName?_eq_some_iff.2 rfl]

theorem before?_eq_some_iff {ending text label : List Char} :
    before? ending text = some label ↔ text = label ++ ending := by
  unfold before?
  split_ifs with h
  · rw [List.isSuffixOf_iff_suffix] at h
    obtain ⟨label', rfl⟩ := h
    simp [eq_comm]
  · rw [List.isSuffixOf_iff_suffix] at h
    simp only [false_iff]
    rintro rfl
    exact h (List.suffix_append _ _)

theorem before?_eq_none_iff {ending text : List Char} :
    before? ending text = none ↔ ¬ ending <:+ text := by
  rw [before?, ite_eq_right_iff, ← List.isSuffixOf_iff_suffix]
  simp

theorem Mark.ofName_eq_first_iff {name label : List Char} :
    Mark.ofName name = .first label ↔ name = label ++ firstEnding := by
  rw [← before?_eq_some_iff, Mark.ofName]
  split
  · rename_i h
    simp [h]
  · rename_i h
    rw [h]
    split <;> simp

theorem not_firstEnding_of_last (label : List Char) : ¬ firstEnding <:+ label ++ lastEnding := by
  rintro ⟨front, h⟩
  have := congrArg (fun l : List Char => l.reverse.take 4) h
  simp [firstEnding, lastEnding] at this

theorem Mark.ofName_eq_last_iff {name label : List Char} :
    Mark.ofName name = .last label ↔ name = label ++ lastEnding := by
  constructor
  · intro h
    unfold Mark.ofName at h
    split at h
    · cases h
    · split at h
      · rename_i label' hlast
        cases h
        exact before?_eq_some_iff.1 hlast
      · cases h
  · rintro rfl
    rw [Mark.ofName, before?_eq_none_iff.2 (not_firstEnding_of_last label)]
    dsimp only
    rw [before?_eq_some_iff.2 rfl]

theorem Mark.ofName_eq_plain_iff {name : List Char} :
    Mark.ofName name = .plain ↔ ¬ firstEnding <:+ name ∧ ¬ lastEnding <:+ name := by
  rw [← before?_eq_none_iff, ← before?_eq_none_iff, Mark.ofName]
  split
  · rename_i h
    simp [h]
  · rename_i h
    split
    · rename_i h'
      simp [h']
    · rename_i h'
      simp [h, h']

end Reading

section Unique

theorem Row.IsOn.unique {row row' : Row} {line : List Char} (h : row.IsOn line)
    (h' : row'.IsOn line) : row = row' := by
  have hread : Row.read none line = .ok row := Row.read_eq_ok_iff.2 ⟨h, fun _ hp => by cases hp⟩
  rw [Row.read_eq_ok_iff.2 ⟨h', fun _ hp => by cases hp⟩] at hread
  cases hread
  rfl

theorem HasRows.unique {lines : List (List Char)} {rows rows' : List Row} (h : HasRows lines rows)
    (h' : HasRows lines rows') : rows = rows' := by
  have hline : Relator.RightUnique fun (line : List Char) (row : Row) => row.IsOn line :=
    fun _ _ _ => Row.IsOn.unique
  exact hline.forall₂ h h'

/-- Rows define their entries in one way only: the mark of a row tells which rule applies. -/
theorem Defines.unique {rows : List Row} {entries entries' : List Entry}
    (h : Defines rows entries) (h' : Defines rows entries') : entries = entries' := by
  induction h generalizing entries' with
  | nil =>
    cases h'
    rfl
  | single hfirst hlast _ ih =>
    cases h' with
    | single _ _ h' => rw [ih h']
    | block ha _ _ _ => exact absurd (ha ▸ List.suffix_append _ _) hfirst
  | block ha hb hcategory _ ih =>
    cases h' with
    | single hfirst _ _ => exact absurd (ha ▸ List.suffix_append _ _) hfirst
    | block ha' _ _ h' =>
      obtain rfl := List.append_cancel_right (ha.symm.trans ha')
      rw [ih h']

theorem Describes.unique {text : String} {entries entries' : List Entry}
    (h : Describes text entries) (h' : Describes text entries') : entries = entries' := by
  obtain ⟨rows, hrows, -, hdefines⟩ := h
  obtain ⟨rows', hrows', -, hdefines'⟩ := h'
  obtain rfl := hrows.unique hrows'
  exact hdefines.unique hdefines'

end Unique

end Listing

end CharRuns

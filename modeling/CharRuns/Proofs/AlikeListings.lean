import CharRuns.Proofs.ListingDiagnosis

/-!
# Listings that read alike

The reader looks at no more of a line than whether it is blank, how many fields it has and, if these
are the fields of a row, what the first three of them are. Two texts whose lines agree in this are
read in step, to the same database or the same fault (`read_eq_of_alike`). A carriage return at the
end of a line is white space and lies in the last field, so the reader does not see it
(`alike_concat_return`), and a listing may as well end its lines in a carriage return and a line
feed.
-/

namespace CharRuns

namespace Text

/-- The text with a carriage return put in front of each line feed. -/
def withReturns (text : List Char) : List Char :=
  text.flatMap fun c => if c = '\n' then ['\r', '\n'] else [c]

/-- The pieces between line feeds with a carriage return behind each of them but the last. -/
def returnedPieces : List (List Char) → List (List Char)
  | [] => []
  | [rest] => [rest]
  | piece :: pieces => (piece ++ ['\r']) :: returnedPieces pieces

theorem returnedPieces_cons (piece : List Char) : ∀ {pieces : List (List Char)}, pieces ≠ [] →
    returnedPieces (piece :: pieces) = (piece ++ ['\r']) :: returnedPieces pieces
  | _ :: _, _ => rfl

theorem returnedPieces_ne_nil : ∀ {pieces : List (List Char)}, pieces ≠ [] →
    returnedPieces pieces ≠ []
  | [_], _ => List.cons_ne_nil _ _
  | _ :: _ :: _, _ => List.cons_ne_nil _ _

theorem returnedPieces_modifyHead (c : Char) : ∀ pieces : List (List Char),
    returnedPieces (pieces.modifyHead (.cons c)) = (returnedPieces pieces).modifyHead (.cons c)
  | [] => rfl
  | [_] => rfl
  | _ :: _ :: _ => rfl

theorem splitOn_withReturns : ∀ text : List Char,
    (withReturns text).splitOn '\n' = returnedPieces (text.splitOn '\n')
  | [] => rfl
  | c :: text => by
    have ih := splitOn_withReturns text
    unfold withReturns at ih ⊢
    rw [List.flatMap_cons, List.splitOn_cons_eq_if_modifyHead c]
    by_cases hc : c = '\n'
    · have hreturn : ('\r' == '\n') = false := by decide
      simp only [hc, if_true, beq_self_eq_true, List.cons_append, List.nil_append,
        List.splitOn_cons_eq_if_modifyHead, hreturn, ih,
        returnedPieces_cons [] (List.splitOn_ne_nil '\n' text)]
      rfl
    · have hother : (c == '\n') = false := by simpa using hc
      simp only [hc, if_false, hother, Bool.false_eq_true, List.cons_append, List.nil_append,
        List.splitOn_cons_eq_if_modifyHead, ih, returnedPieces_modifyHead]

theorem dropReturn_concat (line : List Char) : dropReturn (line ++ ['\r']) = line := by
  rw [dropReturn, if_pos List.getLast?_concat, List.dropLast_concat]

/-- What stands behind a line without the separator belongs to its last field. -/
theorem exists_splitOn_concat {sep c : Char} (hc : c ≠ sep) : ∀ line : List Char,
    ∃ front last, line.splitOn sep = front ++ [last]
      ∧ (line ++ [c]).splitOn sep = front ++ [last ++ [c]]
  | [] => by
    have hother : (c == sep) = false := by simpa using hc
    refine ⟨[], [], List.splitOn_nil sep, ?_⟩
    simp [List.splitOn_cons_eq_if_modifyHead, hother]
  | a :: line => by
    obtain ⟨front, last, hline, hbehind⟩ := exists_splitOn_concat hc line
    simp only [List.cons_append, List.splitOn_cons_eq_if_modifyHead, hline, hbehind]
    by_cases ha : a == sep
    · exact ⟨[] :: front, last, by simp [ha], by simp [ha]⟩
    · rcases front with _ | ⟨piece, front⟩
      · exact ⟨[], a :: last, by simp [ha], by simp [ha]⟩
      · exact ⟨(a :: piece) :: front, last, by simp [ha], by simp [ha]⟩

end Text

namespace Listing

/-- The lines are both blank, or neither is and they have as many fields, of which the first three
are the same if these are the fields of a row. -/
def Alike (line other : List Char) : Prop :=
  (Text.isBlankLine line = true ∧ Text.isBlankLine other = true)
    ∨ (Text.isBlankLine line = false ∧ Text.isBlankLine other = false
      ∧ (line.splitOn ';').length = (other.splitOn ';').length
      ∧ ((line.splitOn ';').length = fieldCount →
        (line.splitOn ';').take 3 = (other.splitOn ';').take 3))

instance (line other : List Char) : Decidable (Alike line other) :=
  inferInstanceAs (Decidable (_ ∨ _))

variable {line other : List Char}

theorem Alike.refl (line : List Char) : Alike line line := by
  by_cases hblank : Text.isBlankLine line = true
  · exact .inl ⟨hblank, hblank⟩
  · rw [Bool.not_eq_true] at hblank
    exact .inr ⟨hblank, hblank, rfl, fun _ => rfl⟩

theorem Row.read_eq_of_take_eq (hlength : (line.splitOn ';').length = (other.splitOn ';').length)
    (hfields : (line.splitOn ';').length = fieldCount →
      (line.splitOn ';').take 3 = (other.splitOn ';').take 3) (previous : Option Nat) :
    Row.read previous line = Row.read previous other := by
  by_cases hcount : (line.splitOn ';').length = fieldCount
  · have htake := hfields hcount
    obtain ⟨field, name, category, rest, hline, hrest⟩ := exists_fields hcount
    obtain ⟨field', name', category', rest', hother, hrest'⟩ := exists_fields (hlength ▸ hcount)
    rw [hline, hother] at htake
    simp only [List.take_succ_cons, List.take_zero, List.cons.injEq, and_true] at htake
    obtain ⟨rfl, rfl, rfl⟩ := htake
    rw [Row.read_of_fields hline hrest, Row.read_of_fields hother hrest']
  · rw [Row.read_of_length_ne hcount, Row.read_of_length_ne (hlength ▸ hcount), hlength]

/-- Whatever was read before, lines that are alike are taken alike. -/
theorem Alike.take_eq (h : Alike line other) (p : Progress) (number : Nat) :
    p.take number line = p.take number other := by
  unfold Progress.take
  rcases h with ⟨hline, hother⟩ | ⟨hline, hother, hlength, hfields⟩
  · rw [if_pos hline, if_pos hother]
  · simp only [hline, hother, Row.read_eq_of_take_eq hlength hfields]

theorem takeAll_eq_of_alike {lines others : List (List Char)} (h : List.Forall₂ Alike lines others)
    (p : Progress) (number : Nat) : p.takeAll number lines = p.takeAll number others := by
  induction h generalizing p number with
  | nil => rfl
  | cons halike _ ih => simp only [Progress.takeAll, halike.take_eq, ih]

theorem alike_concat_return (line : List Char) : Alike line (line ++ ['\r']) := by
  have hblank : Text.isBlankLine (line ++ ['\r']) = Text.isBlankLine line := by
    have hreturn : Text.isBlank '\r' = true := by decide
    simp [Text.isBlankLine, hreturn]
  obtain ⟨front, last, hline, hbehind⟩ := Text.exists_splitOn_concat (by decide : '\r' ≠ ';') line
  rw [Alike, hblank, hline, hbehind]
  cases Text.isBlankLine line with
  | true => exact .inl ⟨rfl, rfl⟩
  | false =>
    refine .inr ⟨rfl, rfl, by simp, fun hcount => ?_⟩
    have hfront : 3 ≤ front.length := by
      simp only [List.length_append, List.length_singleton, fieldCount] at hcount
      omega
    rw [List.take_append_of_le_length hfront, List.take_append_of_le_length hfront]

theorem alike_dropReturn (line : List Char) : Alike (Text.dropReturn line) line := by
  by_cases hreturn : line.getLast? = some '\r'
  · obtain ⟨front, rfl⟩ := List.getLast?_eq_some_iff.1 hreturn
    rw [Text.dropReturn_concat]
    exact alike_concat_return front
  · rw [Text.dropReturn, if_neg hreturn]
    exact .refl line

theorem alike_linesOfPieces : ∀ pieces : List (List Char),
    List.Forall₂ Alike (Text.linesOfPieces pieces)
      (Text.linesOfPieces (Text.returnedPieces pieces))
  | [] => .nil
  | [rest] => List.forall₂_same.2 fun line _ => .refl line
  | piece :: next :: pieces => by
    have hnext := List.cons_ne_nil next pieces
    rw [Text.returnedPieces_cons piece hnext, Text.linesOfPieces_cons piece hnext,
      Text.linesOfPieces_cons _ (Text.returnedPieces_ne_nil hnext), Text.dropReturn_concat]
    exact .cons (alike_dropReturn piece) (alike_linesOfPieces (next :: pieces))

theorem alike_withReturns (text : List Char) :
    List.Forall₂ Alike (Text.lines text) (Text.lines (Text.withReturns text)) := by
  rw [Text.lines, Text.lines, Text.splitOn_withReturns]
  exact alike_linesOfPieces (text.splitOn '\n')

/-- Reading gives the same for texts whose lines are alike one by one, and the same again for the
text with carriage returns in front of the line feeds. -/
theorem read_eq_of_alike (text : String) :
    (∀ other : String, List.Forall₂ Alike (Text.lines text.toList) (Text.lines other.toList) →
        read other = read text)
      ∧ read (String.ofList (Text.withReturns text.toList)) = read text := by
  have hread (other : String)
      (h : List.Forall₂ Alike (Text.lines text.toList) (Text.lines other.toList)) :
      read other = read text := by
    rw [read, read, readLines, readLines, takeAll_eq_of_alike h]
  refine ⟨hread, hread _ ?_⟩
  rw [String.toList_ofList]
  exact alike_withReturns text.toList

/-- The fields behind the third differ, and so do a blank line and a category that is not reached
because its line lacks a field. -/
theorem read_eq_of_alike_trailing :
    let text := "41;LATIN CAPITAL LETTER A;Lu;;;;;;;;;;;;\n\n42;B;Lu;\n"
    let other := "41;LATIN CAPITAL LETTER A;Lu;0;L;;;;;N;;;;0061;\n \t\r\nB;;Zz;\n"
    List.Forall₂ Alike (Text.lines text.toList) (Text.lines other.toList)
      ∧ read other = read text
      ∧ read (String.ofList (Text.withReturns text.toList)) = read text := by
  intro text other
  have halike : List.Forall₂ Alike (Text.lines text.toList) (Text.lines other.toList) := by
    decide +kernel
  obtain ⟨hother, hreturns⟩ := read_eq_of_alike text
  exact ⟨halike, hother other halike, hreturns⟩

end Listing

end CharRuns

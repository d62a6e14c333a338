import CharRuns.Basic
import Mathlib.Data.List.Basic

/-!
# Lines and fields

No line of a text holds a line feed, and no field holds the separator it was split at. Text made of
lines that each end in a line feed splits into these lines (`lines_join`), if none of them holds
a line feed or ends in a carriage return.
-/

namespace CharRuns.Text

theorem forall_mem_splitOn {sep : Char} : ∀ {text piece : List Char}, piece ∈ text.splitOn sep →
    ∀ c ∈ piece, c ∈ text ∧ c ≠ sep
  | [], piece, h, c, hc => by
    obtain rfl : piece = [] := by simpa using h
    cases hc
  | a :: text, piece, h, c, hc => by
    have ih := fun {piece} => @forall_mem_splitOn sep text piece
    rw [List.splitOn_cons_eq_if_modifyHead] at h
    split_ifs at h with ha
    · rcases List.mem_cons.1 h with rfl | h
      · cases hc
      · exact ⟨List.mem_cons_of_mem _ (ih h c hc).1, (ih h c hc).2⟩
    · obtain ⟨p, ps, hps⟩ := List.exists_cons_of_ne_nil (List.splitOn_ne_nil sep text)
      rw [hps] at h ih
      rcases List.mem_cons.1 h with rfl | h
      · rcases List.mem_cons.1 hc with rfl | hc
        · exact ⟨List.mem_cons_self, by simpa using ha⟩
        · have := ih List.mem_cons_self c hc
          exact ⟨List.mem_cons_of_mem _ this.1, this.2⟩
      · have := ih (List.mem_cons_of_mem _ h) c hc
        exact ⟨List.mem_cons_of_mem _ this.1, this.2⟩

theorem mem_of_mem_dropReturn {line : List Char} {c : Char} (h : c ∈ dropReturn line) :
    c ∈ line := by
  unfold dropReturn at h
  split_ifs at h
  · exact List.dropLast_subset _ h
  · exact h

theorem linesOfPieces_cons (piece : List Char) :
    ∀ {pieces : List (List Char)}, pieces ≠ [] →
      linesOfPieces (piece :: pieces) = dropReturn piece :: linesOfPieces pieces
  | _ :: _, _ => rfl

theorem exists_of_mem_linesOfPieces : ∀ {pieces : List (List Char)} {line : List Char},
    line ∈ linesOfPieces pieces → ∃ piece ∈ pieces, ∀ c ∈ line, c ∈ piece
  | [rest], line, h => by
    unfold linesOfPieces at h
    split_ifs at h
    · cases h
    · rw [List.mem_singleton.1 h]
      exact ⟨rest, List.mem_cons_self, fun _ hc => hc⟩
  | piece :: next :: pieces, line, h => by
    rw [linesOfPieces_cons piece (List.cons_ne_nil next pieces)] at h
    rcases List.mem_cons.1 h with rfl | h
    · exact ⟨piece, List.mem_cons_self, fun _ => mem_of_mem_dropReturn⟩
    · obtain ⟨p, hp, hline⟩ := exists_of_mem_linesOfPieces h
      exact ⟨p, List.mem_cons_of_mem _ hp, hline⟩

theorem newline_not_mem_of_mem_lines {text line : List Char} (h : line ∈ lines text) :
    '\n' ∉ line := by
  obtain ⟨piece, hpiece, hline⟩ := exists_of_mem_linesOfPieces h
  exact fun hc => (forall_mem_splitOn hpiece _ (hline _ hc)).2 rfl

/-- The text stays one line when a line feed is put behind it. -/
def IsLine (text : String) : Prop :=
  '\n' ∉ text.toList ∧ text.toList.getLast? ≠ some '\r'

instance (text : String) : Decidable (IsLine text) :=
  inferInstanceAs (Decidable (_ ∧ _))

theorem isLine_of_not_mem {text : String} (hfeed : '\n' ∉ text.toList)
    (hreturn : '\r' ∉ text.toList) : IsLine text :=
  ⟨hfeed, fun hlast => hreturn (List.mem_of_getLast? hlast)⟩

theorem isLine_of_concat {text : String} {front : List Char} {c : Char}
    (h : text.toList = front ++ [c]) (hfront : '\n' ∉ front) (hfeed : c ≠ '\n')
    (hreturn : c ≠ '\r') : IsLine text := by
  unfold IsLine
  rw [h, List.getLast?_concat]
  refine ⟨?_, by simpa using hreturn⟩
  simp only [List.mem_append, List.mem_singleton, not_or]
  exact ⟨hfront, hfeed.symm⟩

theorem lines_flatMap : ∀ {ls : List (List Char)},
    (∀ line ∈ ls, '\n' ∉ line ∧ line.getLast? ≠ some '\r') →
    lines (ls.flatMap (· ++ ['\n'])) = ls
  | [], _ => rfl
  | line :: ls, h => by
    obtain ⟨⟨hfeed, hreturn⟩, hls⟩ := List.forall_mem_cons.1 h
    have ih := lines_flatMap hls
    unfold lines at ih ⊢
    rw [List.flatMap_cons, List.append_assoc, List.singleton_append,
      List.splitOn_append_cons_self_of_not_mem hfeed]
    rw [linesOfPieces_cons line (List.splitOn_ne_nil _ _), ih, dropReturn, if_neg hreturn]

theorem lines_join {ls : List String} (h : ∀ line ∈ ls, IsLine line) :
    lines (String.join (ls.map (· ++ "\n"))).toList = ls.map String.toList := by
  have htext : (String.join (ls.map (· ++ "\n"))).toList
      = (ls.map String.toList).flatMap (· ++ ['\n']) := by
    simp [String.toList_join, List.flatMap_map]
  rw [htext, lines_flatMap]
  intro line hline
  obtain ⟨text, htext, rfl⟩ := List.mem_map.1 hline
  exact h text htext

theorem filterMap_toList_eq_nil {α : Type} {f : List Char → Option α} {ls : List String}
    (h : ∀ line ∈ ls, f line.toList = none) : (ls.map String.toList).filterMap f = [] := by
  rw [List.filterMap_map, List.filterMap_eq_nil_iff]
  exact h

end CharRuns.Text

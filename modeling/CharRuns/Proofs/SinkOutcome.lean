import CharRuns.Artifact
import Mathlib.Data.Nat.Basic

/-!
# What a sink takes

A sink takes bytes as long as there is room (`filled`), and behind the first text that does not fit
it gets no more. So of texts one after the other it ends up with the first bytes of them all
(`Sink.writeAll_eq`), and where they were cut apart leaves no trace. What a sink holds of an
artifact is a beginning of it, and the whole if it fits (`Artifact.writeTo_outcome`).
-/

namespace CharRuns

namespace Sink

/-- The sink with as many of the bytes as there is room for. -/
def filled (s : Sink) (bytes : ByteArray) : Sink :=
  { room := s.room - bytes.size, written := s.written ++ bytes.extract 0 s.room }

theorem filled_empty (s : Sink) : s.filled .empty = s := by
  have hnone : ByteArray.empty.extract 0 s.room = .empty :=
    ByteArray.extract_eq_empty_iff.2 (by simp)
  rw [filled, hnone, ByteArray.append_empty, ByteArray.size_empty, Nat.sub_zero]

theorem filled_append (s : Sink) (front back : ByteArray) :
    s.filled (front ++ back) = (s.filled front).filled back := by
  simp only [filled, ByteArray.size_append, ByteArray.extract_append, ByteArray.append_assoc,
    Nat.sub_add_eq, Nat.zero_sub]

theorem filled_of_full {s : Sink} (h : s.room = 0) (bytes : ByteArray) : s.filled bytes = s := by
  have hnone : bytes.extract 0 s.room = .empty := by rw [h, ByteArray.extract_same]
  rw [filled, hnone, ByteArray.append_empty, h, Nat.zero_sub, ← h]

theorem extract_of_size_le {bytes : ByteArray} {room : Nat} (h : bytes.size ≤ room) :
    bytes.extract 0 room = bytes := by
  rw [← Nat.max_eq_left h, ByteArray.extract_zero_max_size]

theorem write_eq (s : Sink) (text : String) :
    s.write text = (s.filled text.toUTF8, decide (text.toUTF8.size ≤ s.room)) := by
  unfold write filled
  by_cases hfits : text.toUTF8.size ≤ s.room
  · simp only [hfits, if_true, extract_of_size_le hfits, decide_true]
  · have hroom : s.room - text.toUTF8.size = 0 := by omega
    simp only [hfits, if_false, hroom, decide_false]

/-- Texts one after the other fill a sink like the one text that they make up. -/
theorem writeAll_eq : ∀ (s : Sink) (texts : List String), s.writeAll texts
    = (s.filled (String.join texts).toUTF8, decide ((String.join texts).toUTF8.size ≤ s.room))
  | s, [] => by
    rw [writeAll, String.join_nil, String.toUTF8_eq_toByteArray, String.toByteArray_empty,
      filled_empty, ByteArray.size_empty, decide_eq_true (Nat.zero_le s.room)]
  | s, text :: texts => by
    have hjoin : (String.join (text :: texts)).toUTF8
        = text.toUTF8 ++ (String.join texts).toUTF8 := by
      simp only [String.join_cons, String.toUTF8_eq_toByteArray, String.toByteArray_append]
    rw [writeAll, write_eq, hjoin, filled_append, ByteArray.size_append]
    by_cases hfits : text.toUTF8.size ≤ s.room
    · have hrest : (String.join texts).toUTF8.size ≤ (s.filled text.toUTF8).room
          ↔ text.toUTF8.size + (String.join texts).toUTF8.size ≤ s.room := by
        simp only [filled]
        omega
      simp only [hfits, decide_true, writeAll_eq, hrest]
    · have hfull : (s.filled text.toUTF8).room = 0 := by
        simp only [filled]
        omega
      have hover : ¬ text.toUTF8.size + (String.join texts).toUTF8.size ≤ s.room := by omega
      simp only [hfits, hover, decide_false, filled_of_full hfull]

theorem written_filled_ofRoom (room : Nat) (bytes : ByteArray) :
    ((ofRoom room).filled bytes).written = bytes.extract 0 (min room bytes.size) := by
  simp only [ofRoom, filled, ByteArray.empty_append]
  rcases le_total room bytes.size with hfull | hfits
  · rw [Nat.min_eq_left hfull]
  · rw [Nat.min_eq_right hfits, extract_of_size_le hfits, ByteArray.extract_zero_size]

end Sink

namespace Artifact

/-- Whatever pieces the text of an artifact comes in, line by line or otherwise, a sink ends up with
the first bytes of it, as many as there is room for. It is told to be full just if the artifact does
not fit. -/
theorem writeTo_outcome (artifact : Artifact) (table : Table) (db : Database) (room : Nat) :
    let text := artifact.render table db
    let size := text.toUTF8.size
    let result := artifact.writeTo table db (.ofRoom room)
    result.1.written = text.toUTF8.extract 0 (min room size)
      ∧ (result.2 = if size ≤ room then .ok () else .error .sinkFull)
      ∧ ∀ pieces : List String, String.join pieces = text →
        (Sink.ofRoom room).writeAll pieces = (result.1, decide (size ≤ room)) := by
  intro text size result
  have hpieces (pieces : List String) (h : String.join pieces = text) :
      (Sink.ofRoom room).writeAll pieces
        = ((Sink.ofRoom room).filled text.toUTF8, decide (size ≤ room)) := by
    rw [Sink.writeAll_eq, h, Sink.ofRoom]
  have hresult : result = ((Sink.ofRoom room).filled text.toUTF8,
      if size ≤ room then .ok () else .error .sinkFull) := by
    have hlines := hpieces (artifact.endedLines table db) rfl
    simp only [result, writeTo, hlines]
    by_cases hfits : size ≤ room
    · simp only [hfits, decide_true, if_true]
    · simp only [hfits, decide_false, if_false]
  rw [hresult]
  exact ⟨Sink.written_filled_ofRoom room text.toUTF8, rfl, hpieces⟩

/-- The room ends within the two bytes of a letter, in the middle of a row. -/
theorem writeTo_outcome_inside_letter :
    let run : Run := ⟨0xE9, 1, .identifierStart, by decide, by decide, by decide, by decide⟩
    let table : Table := ⟨#[run], 1⟩
    let db := (Database.empty.define 0xE9 ⟨"é", .lowercaseLetter⟩).2
    let artifact := definition "cprun.hpp" .snake
    let front := ["#include \"", "cprun.hpp", "\"\nstd::array<cprun, ", "1",
      "> code_point_runs = \x7b\x7b\n", "  \x7b 0x00e9, 1, 1 \x7d", ", // "]
    let back := ["é", " (", "identifier_start", ")\n", "\x7d\x7d;\n"]
    String.join (front ++ back) = artifact.render table db
      ∧ ∃ sink, artifact.writeTo table db (.ofRoom 87) = (sink, .error .sinkFull)
        ∧ sink.written.data.toList = (String.join front).toUTF8.data.toList ++ [0xC3]
        ∧ (Sink.ofRoom 87).writeAll (front ++ back) = (sink, false) := by
  intro run table db artifact front back
  have hpieces : String.join (front ++ back) = artifact.render table db := by decide +kernel
  have hsize : (String.join (front ++ back)).toUTF8.size = 112 := by decide +kernel
  have hbytes : (String.join (front ++ back)).toUTF8.data.toList.take 87
      = (String.join front).toUTF8.data.toList ++ [0xC3] := by decide +kernel
  obtain ⟨hwritten, houtcome, hall⟩ := writeTo_outcome artifact table db 87
  have hall := hall (front ++ back) hpieces
  have hover : ¬ 112 ≤ 87 := by decide
  rw [← hpieces, hsize, Nat.min_eq_left (by decide)] at hwritten
  rw [← hpieces, hsize, if_neg hover] at houtcome
  rw [← hpieces, hsize, decide_eq_false hover] at hall
  generalize artifact.writeTo table db (.ofRoom 87) = result at *
  obtain ⟨sink, outcome⟩ := result
  cases houtcome
  refine ⟨hpieces, sink, rfl, ?_, hall⟩
  rw [hwritten, ByteArray.data_extract, Array.toList_extract, List.extract_eq_drop_take', ← hbytes,
    List.drop_zero]

end Artifact

end CharRuns

import CharRuns.Proofs.PackedWord
import Mathlib.Tactic.SplitIfs

/-!
# Words that hold a run

A word is its three fields and nothing else, so packing the run that it holds gives the word back
(`pack_eq_of_unpack`). The fields are a run unless there is a reason against it
(`accepted_or_refused`), and of several reasons the first in a fixed order is reported. That a run
is too long is none of them, since nine bits say no more than the longest (`unpack_outcome`).
-/

namespace CharRuns

theorem Rule.exists_ofCode? : ∀ {code : Nat}, code < 4 → code ≠ 0b10 →
    ∃ rule, ofCode? code = some rule
  | 0, _, _ => ⟨_, rfl⟩
  | 1, _, _ => ⟨_, rfl⟩
  | 2, _, hne => absurd rfl hne
  | 3, _, _ => ⟨_, rfl⟩

namespace Run

/-- The fields of a word are a run. -/
structure Accepted (word : UInt32) : Prop where
  rule : ruleField word ≠ 0b10
  length : 1 ≤ lengthField word
  last : startField word + lengthField word - 1 ≤ CodePoint.max

/-- The first reason why the fields of a word are no run. -/
inductive Refused (word : UInt32) : Fault → Prop where
  | unknownRule (hrule : ruleField word = 0b10) : Refused word (.unknownRule 0b10)
  | startOutOfRange (hrule : ruleField word ≠ 0b10) (hstart : CodePoint.max < startField word) :
      Refused word (.startOutOfRange (startField word))
  | empty (hrule : ruleField word ≠ 0b10) (hstart : startField word ≤ CodePoint.max)
      (hlength : lengthField word = 0) : Refused word (.empty (startField word))
  | endOutOfRange (hrule : ruleField word ≠ 0b10) (hstart : startField word ≤ CodePoint.max)
      (hlength : 1 ≤ lengthField word)
      (hlast : CodePoint.max < startField word + lengthField word - 1) :
      Refused word (.endOutOfRange (startField word) (lengthField word))

variable {word : UInt32} {fault : Fault} {r : Run} {start length : Nat} {rule : Rule}

theorem lengthField_le (word : UInt32) : lengthField word ≤ maxLength := by
  unfold lengthField field maxLength
  omega

theorem ruleField_lt (word : UInt32) : ruleField word < 4 := by
  unfold ruleField field
  omega

/-- With a rule the other fields decide. -/
theorem exists_unpack_eq_make (h : ruleField word ≠ 0b10) :
    ∃ rule, unpack word = make (startField word) (lengthField word) rule := by
  obtain ⟨rule, hrule⟩ := Rule.exists_ofCode? (ruleField_lt word) h
  exact ⟨rule, by rw [unpack_eq, hrule]⟩

theorem fields_of_make (h : make start length rule = .ok r) :
    r.start = start ∧ r.length = length ∧ r.rule = rule := by
  unfold make at h
  split_ifs at h
  cases h
  exact ⟨rfl, rfl, rfl⟩

theorem fields_of_unpack (h : unpack word = .ok r) : r.start = startField word
    ∧ r.length = lengthField word ∧ r.rule.code = ruleField word := by
  rw [unpack_eq] at h
  rcases hrule : Rule.ofCode? (ruleField word) with _ | rule
  · rw [hrule] at h
    cases h
  · rw [hrule] at h
    obtain ⟨hstart, hlength, rfl⟩ := fields_of_make h
    exact ⟨hstart, hlength, Rule.code_of_ofCode? hrule⟩

theorem pack_eq_of_unpack (h : unpack word = .ok r) : r.pack = word := by
  obtain ⟨hstart, hlength, hrule⟩ := fields_of_unpack h
  rw [← UInt32.toNat_inj, toNat_pack, hstart, hlength, hrule, ← toNat_eq_fields]

theorem Accepted.of_unpack (h : unpack word = .ok r) : Accepted word := by
  obtain ⟨hstart, hlength, hrule⟩ := fields_of_unpack h
  refine ⟨?_, hlength ▸ r.length_pos, by rw [← hstart, ← hlength]; exact r.last_le⟩
  rw [← hrule]
  cases r.rule <;> decide

theorem Accepted.exists_unpack (h : Accepted word) : ∃ r, unpack word = .ok r := by
  obtain ⟨hrule, hlength, hlast⟩ := h
  obtain ⟨rule, hmake⟩ := exists_unpack_eq_make hrule
  have hle := lengthField_le word
  rw [hmake, make, dif_neg (by omega), dif_neg (by omega), dif_neg (by omega), dif_neg (by omega)]
  exact ⟨_, rfl⟩

theorem Refused.unpack_eq_error (h : Refused word fault) : unpack word = .error fault := by
  have hle := lengthField_le word
  cases h with
  | unknownRule hrule =>
    rw [unpack_eq, hrule]
    rfl
  | startOutOfRange hrule hstart =>
    obtain ⟨rule, hmake⟩ := exists_unpack_eq_make hrule
    rw [hmake, make, dif_pos hstart]
  | empty hrule hstart hlength =>
    obtain ⟨rule, hmake⟩ := exists_unpack_eq_make hrule
    rw [hmake, make, dif_neg (by omega), dif_pos hlength]
  | endOutOfRange hrule hstart hlength hlast =>
    obtain ⟨rule, hmake⟩ := exists_unpack_eq_make hrule
    rw [hmake, make, dif_neg (by omega), dif_neg (by omega), dif_neg (by omega), dif_pos hlast]

theorem accepted_or_refused (word : UInt32) : Accepted word ∨ ∃ fault, Refused word fault := by
  by_cases hrule : ruleField word = 0b10
  · exact .inr ⟨_, .unknownRule hrule⟩
  by_cases hstart : CodePoint.max < startField word
  · exact .inr ⟨_, .startOutOfRange hrule hstart⟩
  have hstart := Nat.le_of_not_lt hstart
  rcases Nat.eq_zero_or_pos (lengthField word) with hlength | hlength
  · exact .inr ⟨_, .empty hrule hstart hlength⟩
  by_cases hlast : CodePoint.max < startField word + lengthField word - 1
  · exact .inr ⟨_, .endOutOfRange hrule hstart hlength hlast⟩
  · exact .inl ⟨hrule, hlength, Nat.le_of_not_lt hlast⟩

theorem unpack_eq_error_iff : unpack word = .error fault ↔ Refused word fault := by
  refine ⟨fun herror => ?_, Refused.unpack_eq_error⟩
  rcases accepted_or_refused word with h | ⟨cause, h⟩
  · obtain ⟨r, hok⟩ := h.exists_unpack
    rw [herror] at hok
    cases hok
  · obtain rfl := Except.error.inj (herror.symm.trans h.unpack_eq_error)
    exact h

/-- Packing and unpacking are inverse to each other between runs and the words whose fields are a
run. Another word is refused for the first of these reasons: the rule field names no rule, the run
starts beyond the code space, it is empty, it ends beyond the code space. -/
theorem unpack_outcome :
    (∀ r : Run, unpack r.pack = .ok r)
      ∧ ∀ word, (∀ r, unpack word = .ok r → r.pack = word)
        ∧ ((∃ r, unpack word = .ok r) ↔ Accepted word)
        ∧ (∀ fault, unpack word = .error fault ↔ Refused word fault)
        ∧ ∀ start length, unpack word ≠ .error (.tooLong start length) := by
  refine ⟨unpack_pack, fun word => ⟨fun r => pack_eq_of_unpack, ?_, ?_, ?_⟩⟩
  · exact ⟨fun ⟨r, h⟩ => .of_unpack h, Accepted.exists_unpack⟩
  · exact fun fault => unpack_eq_error_iff
  · intro start length herror
    cases unpack_eq_error_iff.1 herror

/-- The highest start, of a run that would end one code point beyond the code space. -/
example : unpack 0x4050FFFF = .error (.endOutOfRange 0x10FFFF 2) := by
  rfl

end Run

end CharRuns

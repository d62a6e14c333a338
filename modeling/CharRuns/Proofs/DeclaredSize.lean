import CharRuns.Artifact
import CharRuns.Proofs.Numeral
import CharRuns.Proofs.TextLines

/-!
# The declared size of a table

Every artifact has one line that declares how many runs there are, between two texts of its own
(`declaration`). The number is read back from that line (`size?_sizeLine`) and from no line that
starts in another way (`size?_eq_none`).
-/

namespace CharRuns.Artifact

/-- The number in front of a text that goes on with the mark, and what follows the mark. -/
def number? (value? : List Char → Option Nat) (mark text : List Char) :
    Option (Nat × List Char) :=
  (value? (text.takeWhile Char.isAlphanum)).bind fun n =>
    ((text.dropWhile Char.isAlphanum).dropPrefix? mark).map fun rest => (n, rest)

/-- What an artifact writes before and behind the size of its table. -/
def declaration : Artifact → String × String
  | header _ _ => ("extern std::array<cprun, ", "> code_point_runs;")
  | definition _ _ => ("std::array<cprun, ", "> code_point_runs = \x7b\x7b")
  | packed _ => ("pub static CODE_POINT_RUNS: [u32; ", "] = [")

/-- The line that declares the size of the table. -/
def sizeLine (artifact : Artifact) (size : Nat) : String :=
  s!"{artifact.declaration.1}{size}{artifact.declaration.2}"

/-- The size that a line declares. -/
def size? (artifact : Artifact) (line : List Char) : Option Nat := do
  let rest ← line.dropPrefix? artifact.declaration.1.toList
  let (size, rest) ← number? Decimal.value? artifact.declaration.2.toList rest
  if rest.isEmpty then some size else none

/-- The number ends at the first character that is neither a letter nor a digit. -/
theorem number?_digits {value? : List Char → Option Nat} {digits mark : List Char} {c : Char}
    (hdigits : ∀ d ∈ digits, d.isAlphanum = true) (hc : c.isAlphanum = false) (rest : List Char) :
    number? value? mark (digits ++ c :: rest) = (value? digits).bind fun n =>
      ((c :: rest).dropPrefix? mark).map fun rest => (n, rest) := by
  have htake : (digits ++ c :: rest).takeWhile Char.isAlphanum = digits := by
    rw [List.takeWhile_append_of_pos hdigits]
    simp [hc]
  have hdrop : (digits ++ c :: rest).dropWhile Char.isAlphanum = c :: rest := by
    rw [List.dropWhile_append_of_pos hdigits]
    simp [hc]
  rw [number?, htake, hdrop]

theorem number?_append {value? : List Char → Option Nat} {digits mark : List Char} {n : Nat}
    (hvalue : value? digits = some n) (hdigits : ∀ d ∈ digits, d.isAlphanum = true)
    (hmark : ∃ c cs, mark = c :: cs ∧ c.isAlphanum = false) (rest : List Char) :
    number? value? mark (digits ++ (mark ++ rest)) = some (n, rest) := by
  obtain ⟨c, cs, rfl, hc⟩ := hmark
  rw [List.cons_append, number?_digits hdigits hc, hvalue, Option.bind_some, ← List.cons_append,
    List.dropPrefix?_append_of_beq rest BEq.rfl, Option.map_some]

theorem dropPrefix?_cons_of_ne {c d : Char} (h : c ≠ d) (cs ds : List Char) :
    (c :: cs).dropPrefix? (d :: ds) = none := by
  rw [List.dropPrefix?, if_neg (by simpa using h)]

theorem number?_eq_none {value? : List Char → Option Nat} {digits mark : List Char} {c : Char}
    (hdigits : ∀ d ∈ digits, d.isAlphanum = true) (hc : c.isAlphanum = false)
    (hmark : ∃ d ds, mark = d :: ds ∧ c ≠ d) (rest : List Char) :
    number? value? mark (digits ++ c :: rest) = none := by
  obtain ⟨d, ds, rfl, hne⟩ := hmark
  rw [number?_digits hdigits hc, dropPrefix?_cons_of_ne hne]
  cases value? digits <;> rfl

theorem newline_not_mem_toDigits (n : Nat) : '\n' ∉ Nat.toDigits 10 n := fun h =>
  absurd (Nat.isDigit_of_mem_toDigits (by decide) (by decide) h) (by decide)

theorem toList_sizeLine (artifact : Artifact) (size : Nat) : (artifact.sizeLine size).toList
    = artifact.declaration.1.toList ++ (Nat.toDigits 10 size ++ artifact.declaration.2.toList) := by
  unfold sizeLine
  simp only [String.toList_append, toString, Nat.repr, String.toList_ofList, List.append_assoc]

theorem size?_sizeLine (artifact : Artifact) (size : Nat) :
    artifact.size? (artifact.sizeLine size).toList = some size := by
  have hmark : ∃ c cs, artifact.declaration.2.toList = c :: cs ∧ c.isAlphanum = false := by
    cases artifact <;> simp only [declaration] <;> exact ⟨_, _, rfl, rfl⟩
  have hvalue := Decimal.value?_toDigits size
  have hnumber := number?_append hvalue (Decimal.isAlphanum_of_value? hvalue) hmark []
  rw [List.append_nil] at hnumber
  simp only [size?, toList_sizeLine, List.dropPrefix?_append_of_beq _ BEq.rfl, hnumber,
    Option.bind_eq_bind, Option.bind_some]
  rfl

theorem size?_eq_none {artifact : Artifact} {line : List Char}
    (h : line.head? ≠ artifact.declaration.1.toList.head?) : artifact.size? line = none := by
  have hopening : artifact.declaration.1.toList ≠ [] := by
    cases artifact <;> simp only [declaration] <;> decide
  have hnone : line.dropPrefix? artifact.declaration.1.toList = none := by
    obtain ⟨c, cs, hcs⟩ := List.exists_cons_of_ne_nil hopening
    rw [hcs] at h ⊢
    cases line with
    | nil => rfl
    | cons d ds =>
      exact dropPrefix?_cons_of_ne (fun hdc => h (by rw [hdc]; rfl)) ds cs
  rw [size?, hnone]
  rfl

theorem isLine_sizeLine (artifact : Artifact) (size : Nat) :
    Text.IsLine (artifact.sizeLine size) := by
  have hdigits : '\n' ∉ Nat.toDigits 10 size := newline_not_mem_toDigits size
  have hopening : '\n' ∉ artifact.declaration.1.toList := by
    cases artifact <;> simp only [declaration] <;> decide
  have hclosing : '\n' ∉ artifact.declaration.2.toList
      ∧ ∃ c, c ≠ '\r' ∧ artifact.declaration.2.toList.getLast? = some c := by
    cases artifact <;> simp only [declaration]
    · exact ⟨by decide, ';', by decide, rfl⟩
    · exact ⟨by decide, '\x7b', by decide, rfl⟩
    · exact ⟨by decide, '[', by decide, rfl⟩
  obtain ⟨hfeed, c, hreturn, hlast⟩ := hclosing
  unfold Text.IsLine
  rw [toList_sizeLine, ← List.append_assoc, List.getLast?_append, hlast]
  simp only [List.mem_append, not_or]
  exact ⟨⟨⟨hopening, hdigits⟩, hfeed⟩, by simpa using hreturn⟩

end CharRuns.Artifact

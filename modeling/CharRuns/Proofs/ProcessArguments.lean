import CharRuns.Proofs.ArgumentOutcome

/-!
# Arguments that are bytes

A process makes its arguments into texts one by one. Behind texts that have settled what the
command line comes to it does not matter what the others are, and they are not looked at. Behind
texts that await more, the next one is looked at and has to be a text (`readFrom_bytes`). So either
the arguments come to what the texts in front of them come to, or the turn comes of an argument that
is no text (`not_undecodable_iff`).
-/

namespace CharRuns.Arguments

/-- The outcome of arguments that may go on: an artifact is asked for, or a value is wanted. -/
def Awaits (outcome : Except Fault Command) : Prop :=
  (∃ s, outcome = .ok (.generate s)) ∨ ∃ option, outcome = .error (.valueExpected option)

/-- The arguments come to what the texts in front of them come to, behind the name of the program,
and these are all or do not await more. -/
def ComeTo (arguments : List ByteArray) (outcome : Except Fault Command) : Prop :=
  ∃ (texts : List String) (rest : List ByteArray), arguments = texts.map String.toUTF8 ++ rest
    ∧ parse texts.tail = outcome ∧ (rest = [] ∨ ¬ Awaits outcome)

/-- The turn comes of an argument that is no text: those in front of it are texts and, behind the
name of the program, await more. -/
def Undecodable (arguments : List ByteArray) : Prop :=
  ∃ (texts : List String) (bad : ByteArray) (rest : List ByteArray),
    arguments = texts.map String.toUTF8 ++ bad :: rest
    ∧ String.fromUTF8? bad = none ∧ Awaits (parse texts.tail)

variable {arguments rest : List ByteArray} {texts : List String} {outcome : Except Fault Command}

theorem fromUTF8?_toUTF8 (text : String) : String.fromUTF8? text.toUTF8 = some text := by
  rw [String.toUTF8_eq_toByteArray, String.fromUTF8?, dif_pos text.isValidUTF8]
  rfl

theorem toUTF8_of_fromUTF8? {bytes : ByteArray} {text : String}
    (h : String.fromUTF8? bytes = some text) : bytes = text.toUTF8 := by
  unfold String.fromUTF8? at h
  split at h
  · cases h
    rfl
  · cases h

theorem map_fromUTF8?_toUTF8 (texts : List String) :
    (texts.map String.toUTF8).map String.fromUTF8? = texts.map pure := by
  rw [List.map_map]
  exact List.map_congr_left fun text _ => fromUTF8?_toUTF8 text

/-- Arguments are texts, up to the end or up to one that is none. -/
theorem exists_texts : ∀ arguments : List ByteArray, ∃ texts : List String,
    arguments = texts.map String.toUTF8
      ∨ ∃ bad rest, arguments = texts.map String.toUTF8 ++ bad :: rest
        ∧ String.fromUTF8? bad = none
  | [] => ⟨[], .inl rfl⟩
  | a :: arguments => by
    rcases ha : String.fromUTF8? a with _ | text
    · exact ⟨[], .inr ⟨a, arguments, rfl, ha⟩⟩
    · obtain ⟨texts, htexts⟩ := exists_texts arguments
      rw [toUTF8_of_fromUTF8? ha]
      refine ⟨text :: texts, ?_⟩
      rcases htexts with rfl | ⟨bad, rest, rfl, hbad⟩
      · exact .inl rfl
      · exact .inr ⟨bad, rest, rfl, hbad⟩

theorem Stops.awaits_iff {latest : Option (Mode × String)} {more : List String} {argument : String}
    (h : Stops latest more argument outcome) :
    Awaits outcome ↔ ∃ option, outcome = .error (.valueExpected option) :=
  ⟨fun hawaits => hawaits.resolve_left fun ⟨s, hs⟩ => h.ne_generate s hs, .inr⟩

/-- An option that wants a value asks for the next argument. -/
theorem readFrom_wanting {s : Settings} {chosen : Option String} {target : Target} {name : String}
    (known : name ∈ (Meaning.set target).names) {bad : ByteArray}
    (hbad : String.fromUTF8? bad = none) :
    readFrom String.fromUTF8? s chosen (name.toUTF8 :: bad :: rest) = none := by
  rw [readFrom, fromUTF8?_toUTF8]
  simp only [Option.bind_eq_bind, Option.bind_some, split_of_mem_names known,
    Meaning.ofOption?_eq_some_iff.2 known, hbad, Option.bind_none]

/-- Texts come to the same as bytes, unless they await more and what comes next is no text. -/
theorem readFrom_bytes (texts : List String) (rest : List ByteArray) :
    let read := readFrom String.fromUTF8? .default none (texts.map String.toUTF8 ++ rest)
    (rest = [] ∨ ¬ Awaits (parse texts) → read = some (parse texts))
      ∧ (Awaits (parse texts) → ∀ bad more, rest = bad :: more → String.fromUTF8? bad = none →
        read = none) := by
  intro read
  obtain ⟨items, hagree, htexts⟩ := exists_items [] texts .nil
  rw [List.nil_append] at hagree htexts
  have hfront := map_fromUTF8?_toUTF8 (spelled items)
  rcases htexts with rfl | ⟨argument, more, outcome, rfl, hstops⟩
  · have hparse := parse_spelled hagree
    refine ⟨fun h => ?_, fun _ bad more hrest hbad => ?_⟩
    · have hrest : rest = [] := h.resolve_right fun hnot => hnot (.inl ⟨_, hparse⟩)
      simp only [read, hrest, List.append_nil, hparse]
      exact readFrom_spelled hagree hfront
    · simp only [read, hrest, readFrom_spelled_append hagree hfront]
      rw [readFrom, hbad]
      rfl
  · have hparse := parse_spelled_of_stops hagree hstops
    simp only [read, hparse, List.map_append, List.map_cons, List.append_assoc, List.cons_append,
      hstops.awaits_iff]
    refine ⟨fun h => ?_, fun hwants bad behind hrest hbad => ?_⟩
    · refine readFrom_spelled_of_stops hagree hstops hfront (fromUTF8?_toUTF8 argument) ?_
      intro option hwanted
      have hrest : rest = [] := h.resolve_right fun hnot => hnot ⟨option, hwanted⟩
      rw [hstops.eq_nil_of_valueExpected hwanted, hrest]
      rfl
    · obtain ⟨option, hwanted⟩ := hwants
      cases hwanted
      cases hstops with
      | valueExpected known last =>
        rw [readFrom_spelled_append hagree hfront, last, hrest]
        exact readFrom_wanting known hbad

theorem awaits_parse_nil : Awaits (parse []) :=
  .inl ⟨.default, rfl⟩

/-- The name of the program is passed over, but it has to be a text. -/
theorem parseBytes_name (text : String) (arguments : List ByteArray) :
    parseBytes (text.toUTF8 :: arguments)
      = readFrom String.fromUTF8? .default none arguments := by
  rw [parseBytes, fromUTF8?_toUTF8]
  rfl

theorem ComeTo.parseBytes_eq (h : ComeTo arguments outcome) :
    parseBytes arguments = some outcome := by
  obtain ⟨texts, rest, rfl, rfl, hsettled⟩ := h
  rcases texts with _ | ⟨name, texts⟩
  · rw [hsettled.resolve_right fun hnot => hnot awaits_parse_nil]
    rfl
  · rw [List.map_cons, List.cons_append, parseBytes_name]
    exact (readFrom_bytes texts rest).1 hsettled

theorem Undecodable.parseBytes_eq (h : Undecodable arguments) : parseBytes arguments = none := by
  obtain ⟨texts, bad, rest, rfl, hbad, hawaits⟩ := h
  rcases texts with _ | ⟨name, texts⟩
  · rw [List.map_nil, List.nil_append, parseBytes, hbad]
    rfl
  · rw [List.map_cons, List.cons_append, parseBytes_name]
    exact (readFrom_bytes texts (bad :: rest)).2 hawaits bad rest rfl hbad

/-- Arguments come to something, unless the turn comes of one that is no text. -/
theorem not_undecodable_iff : ¬ Undecodable arguments ↔ ∃ outcome, ComeTo arguments outcome := by
  constructor
  · intro hnot
    obtain ⟨texts, htexts | ⟨bad, rest, harguments, hbad⟩⟩ := exists_texts arguments
    · exact ⟨_, texts, [], by rw [htexts, List.append_nil], rfl, .inl rfl⟩
    · by_cases hawaits : Awaits (parse texts.tail)
      · exact absurd ⟨texts, bad, rest, harguments, hbad, hawaits⟩ hnot
      · exact ⟨_, texts, bad :: rest, harguments, rfl, .inr hawaits⟩
  · rintro ⟨outcome, hcome⟩ hundecodable
    cases hcome.parseBytes_eq.symm.trans hundecodable.parseBytes_eq

end CharRuns.Arguments

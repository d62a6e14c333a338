import CharRuns.Proofs.ArgumentItems

/-!
# What a command line comes to

From the left a command line is a run of items that agree, up to its end or to an argument that is
part of no further one (`exists_items`). In the first case an artifact is asked for, with the
settings that the items make (`parse_eq_generate_iff`). In the second that argument decides, and
nothing behind it matters (`parse_of_stops`).
-/

namespace CharRuns.Arguments

/-- The argument is an option with the meaning, or gives a long one a value. -/
def Asks (argument : String) (meaning : Meaning) : Prop :=
  argument ∈ meaning.names ∨ ∃ name ∈ meaning.names, ∃ value, Joins argument name value

/-- What a command line comes to at an argument that begins no item. Before it `latest` was the last
mode chosen, and `rest` is behind it. -/
inductive Stops (latest : Option (Mode × String)) (rest : List String) (argument : String) :
    Except Fault Command → Prop where
  | help (asks : Asks argument .help) : Stops latest rest argument (.ok .help)
  | version (asks : Asks argument .version) : Stops latest rest argument (.ok .version)
  | needlessValue {mode : Mode} {name value : String} (known : name ∈ (Meaning.mode mode).names)
    (joins : Joins argument name value) : Stops latest rest argument (.error (.needlessValue name))
  | modeConflict {earlier mode : Mode} {first : String} (chosen : latest = some (earlier, first))
    (known : argument ∈ (Meaning.mode mode).names) (differs : mode ≠ earlier) :
    Stops latest rest argument (.error (.modeConflict first argument))
  | valueExpected {target : Target} (known : argument ∈ (Meaning.set target).names)
    (last : rest = []) : Stops latest rest argument (.error (.valueExpected argument))
  /-- A value behind an unknown long option is not told. -/
  | unknownJoined {name value : String} (joins : Joins argument name value)
    (unknown : ∀ meaning : Meaning, name ∉ meaning.names) :
    Stops latest rest argument (.error (.unknownOption name))
  | unknownAlone (alone : ∀ name value, ¬ Joins argument name value)
    (unknown : ∀ meaning : Meaning, argument ∉ meaning.names)
    (dashed : isDashed argument.toList = true) :
    Stops latest rest argument (.error (.unknownOption argument))
  | stray (plain : isDashed argument.toList = false) :
    Stops latest rest argument (.error (.strayArgument argument))

theorem ofOption?_eq_none_iff {name : String} :
    Meaning.ofOption? name = none ↔ ∀ meaning : Meaning, name ∉ meaning.names := by
  simp only [Option.eq_none_iff_forall_ne_some, ne_eq, Meaning.ofOption?_eq_some_iff]

theorem isDashed_iff {text : List Char} : isDashed text = true ↔ ∃ c cs, text = '-' :: c :: cs := by
  constructor
  · intro h
    unfold isDashed at h
    split at h
    · exact ⟨_, _, rfl⟩
    · cases h
  · rintro ⟨c, cs, rfl⟩
    rfl

theorem refuse_eq (text : String) : refuse text
    = if isDashed text.toList = true then .unknownOption text else .strayArgument text := by
  unfold refuse
  split
  · rename_i c cs htext
    rw [if_pos (isDashed_iff.2 ⟨c, cs, htext⟩)]
  · rename_i hother
    rw [if_neg]
    rw [isDashed_iff]
    rintro ⟨c, cs, htext⟩
    exact hother c cs htext

theorem isDashed_append {text : List Char} (h : isLong text = true) (more : List Char) :
    isDashed (text ++ more) = true := by
  unfold isLong at h
  split at h
  · rfl
  · cases h

theorem Joins.isDashed_name {argument name value : String} (h : Joins argument name value) :
    isDashed name.toList = true := by
  have hdashed := isDashed_append h.long []
  rwa [List.append_nil] at hdashed

theorem Joins.isDashed {argument name value : String} (h : Joins argument name value) :
    Arguments.isDashed argument.toList = true := by
  rw [h.text, String.append_assoc, String.toList_append]
  exact isDashed_append h.long _

variable {s : Settings} {chosen : Option String} {argument : String} {rest : List String}
  {outcome : Except Fault Command}

theorem Asks.exists_split {meaning : Meaning} (h : Asks argument meaning) :
    ∃ name value, split argument = (name, value) ∧ Meaning.ofOption? name = some meaning := by
  rcases h with known | ⟨name, known, value, joins⟩
  · exact ⟨argument, none, split_of_mem_names known, Meaning.ofOption?_eq_some_iff.2 known⟩
  · exact ⟨name, some value, joins.split_eq, Meaning.ofOption?_eq_some_iff.2 known⟩

/-- A decisive argument decides, however the arguments are made into texts. The reader asks for the
next one only if a value is wanted. -/
theorem Stops.readFrom_eq {m : Type → Type} [Monad m] [LawfulMonad m] {α : Type}
    {text : α → m String} {latest : Option (Mode × String)}
    (h : Stops latest rest argument outcome) (hlatest : latest = chosen.map (s.mode, ·)) {a : α}
    (ha : text a = pure argument) {behind : List α}
    (hbehind : ∀ option, outcome = .error (.valueExpected option) → behind = []) :
    readFrom text s chosen (a :: behind) = pure outcome := by
  rw [readFrom, ha, pure_bind]
  cases h with
  | help asks =>
    obtain ⟨name, value, hsplit, hmeaning⟩ := asks.exists_split
    simp only [hsplit, hmeaning]
  | version asks =>
    obtain ⟨name, value, hsplit, hmeaning⟩ := asks.exists_split
    simp only [hsplit, hmeaning]
  | needlessValue known joins =>
    simp only [joins.split_eq, Meaning.ofOption?_eq_some_iff.2 known]
  | modeConflict hchosen known differs =>
    rw [hchosen] at hlatest
    obtain ⟨first, rfl, hfirst⟩ := Option.map_eq_some_iff.1 hlatest.symm
    cases hfirst
    simp only [split_of_mem_names known, Meaning.ofOption?_eq_some_iff.2 known, if_neg differs]
  | valueExpected known last =>
    simp only [split_of_mem_names known, Meaning.ofOption?_eq_some_iff.2 known,
      hbehind argument rfl]
  | unknownJoined joins unknown =>
    simp only [joins.split_eq, ofOption?_eq_none_iff.2 unknown, refuse_eq, joins.isDashed_name,
      if_true]
  | unknownAlone alone unknown dashed =>
    simp only [split_eq_self alone, ofOption?_eq_none_iff.2 unknown, refuse_eq, dashed, if_true]
  | stray plain =>
    have alone (name value : String) : ¬ Joins argument name value := fun joins => by
      simp [joins.isDashed] at plain
    have unknown (meaning : Meaning) : argument ∉ meaning.names := fun known => by
      simp [(Meaning.of_mem_names argument known).2.1] at plain
    simp only [split_eq_self alone, ofOption?_eq_none_iff.2 unknown, refuse_eq, plain,
      Bool.false_eq_true, if_false]

/-- A long option that is given a value sets it, or else it is decisive. -/
theorem Joins.exists_item_or_stops {name value : String} (joins : Joins argument name value)
    (latest : Option (Mode × String)) (rest : List String) :
    (∃ item : Item, item.arguments = [argument] ∧ item.mode? = none)
      ∨ ∃ outcome, Stops latest rest argument outcome := by
  cases hmeaning : Meaning.ofOption? name with
  | none => exact .inr ⟨_, .unknownJoined joins (ofOption?_eq_none_iff.1 hmeaning)⟩
  | some meaning =>
    have known : name ∈ meaning.names := Meaning.ofOption?_eq_some_iff.1 hmeaning
    cases meaning with
    | help => exact .inr ⟨_, .help (.inr ⟨name, known, value, joins⟩)⟩
    | version => exact .inr ⟨_, .version (.inr ⟨name, known, value, joins⟩)⟩
    | set target =>
      have hargument := congrArg ([·]) joins.text.symm
      exact .inl ⟨.joined target name value known joins.long, hargument, rfl⟩
    | mode mode => exact .inr ⟨_, .needlessValue known joins⟩

/-- An argument begins an item that keeps the mode, or else it is decisive. -/
theorem exists_item_or_stops (latest : Option (Mode × String)) (argument : String)
    (rest : List String) :
    (∃ (item : Item) (more : List String), argument :: rest = item.arguments ++ more
        ∧ ∀ chosen ∈ item.mode?, ∀ earlier ∈ latest, earlier.1 = chosen.1)
      ∨ ∃ outcome, Stops latest rest argument outcome := by
  by_cases hjoins : ∃ name value, Joins argument name value
  · obtain ⟨name, value, joins⟩ := hjoins
    refine (joins.exists_item_or_stops latest rest).imp_left ?_
    rintro ⟨item, hitem, hmode⟩
    exact ⟨item, rest, by rw [hitem]; rfl, by simp [hmode]⟩
  · have alone (name value : String) : ¬ Joins argument name value :=
      fun joins => hjoins ⟨name, value, joins⟩
    cases hmeaning : Meaning.ofOption? argument with
    | none =>
      have unknown := ofOption?_eq_none_iff.1 hmeaning
      cases hdashed : isDashed argument.toList with
      | true => exact .inr ⟨_, .unknownAlone alone unknown hdashed⟩
      | false => exact .inr ⟨_, .stray hdashed⟩
    | some meaning =>
      have known : argument ∈ meaning.names := Meaning.ofOption?_eq_some_iff.1 hmeaning
      cases meaning with
      | help => exact .inr ⟨_, .help (.inl known)⟩
      | version => exact .inr ⟨_, .version (.inl known)⟩
      | set target =>
        cases rest with
        | nil => exact .inr ⟨_, .valueExpected known rfl⟩
        | cons value more =>
          exact .inl ⟨.apart target argument value known, more, rfl, by simp [Item.mode?]⟩
      | mode mode =>
        by_cases hconflict : ∃ earlier first, latest = some (earlier, first) ∧ mode ≠ earlier
        · obtain ⟨earlier, first, hlatest, hne⟩ := hconflict
          exact .inr ⟨_, .modeConflict hlatest known hne⟩
        · refine .inl ⟨.mode mode argument known, rest, rfl, ?_⟩
          rintro chosen hchosen ⟨earlier, first⟩ hlatest
          cases hchosen
          by_contra hne
          exact hconflict ⟨earlier, first, hlatest, Ne.symm hne⟩

/-- Behind items that agree, a command line goes on with more of them, up to its end or to a
decisive argument. -/
theorem exists_items : ∀ (items : List Item) (arguments : List String), Agree items →
    ∃ more, Agree (items ++ more) ∧ (arguments = spelled more
      ∨ ∃ argument rest outcome, arguments = spelled more ++ argument :: rest
        ∧ Stops (latestMode? (items ++ more)) rest argument outcome)
  | items, [], h => ⟨[], by rwa [List.append_nil], .inl rfl⟩
  | items, argument :: rest, h => by
    rcases exists_item_or_stops (latestMode? items) argument rest with
      ⟨item, more, harguments, hmode⟩ | ⟨outcome, hstops⟩
    · have hshorter : more.length < (argument :: rest).length := by
        rw [harguments, List.length_append]
        cases item <;> simp [Item.arguments]
      obtain ⟨others, hagree, hothers⟩ :=
        exists_items (items ++ [item]) more (agree_concat_iff.2 ⟨h, hmode⟩)
      rw [List.append_assoc, List.singleton_append] at hagree hothers
      refine ⟨item :: others, hagree, ?_⟩
      rw [harguments]
      rcases hothers with rfl | ⟨argument', rest', outcome, rfl, hstops⟩
      · exact .inl rfl
      · refine .inr ⟨argument', rest', outcome, ?_, hstops⟩
        simp [spelled]
    · refine ⟨[], by rwa [List.append_nil], .inr ⟨argument, rest, outcome, rfl, ?_⟩⟩
      rwa [List.append_nil]
termination_by _ arguments => arguments.length
decreasing_by exact hshorter

theorem Stops.ne_generate {latest : Option (Mode × String)} (h : Stops latest rest argument outcome)
    (s : Settings) : outcome ≠ .ok (.generate s) := by
  cases h <;> exact nofun

/-- What stands behind a decisive argument matters only where a value is wanted. -/
theorem Stops.congr {latest : Option (Mode × String)} {rest' : List String}
    (h : Stops latest rest argument outcome)
    (hrest : ∀ option, outcome = .error (.valueExpected option) → rest = [] → rest' = []) :
    Stops latest rest' argument outcome := by
  cases h with
  | help asks => exact .help asks
  | version asks => exact .version asks
  | needlessValue known joins => exact .needlessValue known joins
  | modeConflict chosen known differs => exact .modeConflict chosen known differs
  | valueExpected known last => exact .valueExpected known (hrest argument rfl last)
  | unknownJoined joins unknown => exact .unknownJoined joins unknown
  | unknownAlone alone unknown dashed => exact .unknownAlone alone unknown dashed
  | stray plain => exact .stray plain

/-- What stands behind a decisive argument can be left out. -/
theorem Stops.of_append {latest : Option (Mode × String)} {front back : List String}
    (h : Stops latest (front ++ back) argument outcome) : Stops latest front argument outcome :=
  h.congr fun _ _ hnil => (List.append_eq_nil_iff.1 hnil).1

variable {items : List Item}

section Read

variable {m : Type → Type} [Monad m] [LawfulMonad m] {α : Type} {text : α → m String}
  {front : List α}

theorem readFrom_spelled (h : Agree items) (hfront : front.map text = (spelled items).map pure) :
    readFrom text .default none front = pure (.ok (.generate (settingsOf items))) := by
  have hread := readFrom_spelled_append h hfront []
  rwa [List.append_nil, readFrom] at hread

theorem readFrom_spelled_of_stops (h : Agree items)
    (hstops : Stops (latestMode? items) rest argument outcome)
    (hfront : front.map text = (spelled items).map pure) {a : α} (ha : text a = pure argument)
    {behind : List α} (hbehind : ∀ option, outcome = .error (.valueExpected option) → behind = []) :
    readFrom text .default none (front ++ a :: behind) = pure outcome := by
  rw [readFrom_spelled_append h hfront]
  refine hstops.readFrom_eq ?_ ha hbehind
  cases hlatest : latestMode? items with
  | none => rfl
  | some latest => simp [settingsOf, hlatest]

end Read

theorem parse_spelled (h : Agree items) :
    parse (spelled items) = .ok (.generate (settingsOf items)) :=
  readFrom_spelled (m := Id) h rfl

theorem Stops.eq_nil_of_valueExpected {latest : Option (Mode × String)}
    (h : Stops latest rest argument outcome) {option : String}
    (houtcome : outcome = .error (.valueExpected option)) : rest = [] := by
  cases h <;> first | assumption | cases houtcome

theorem parse_spelled_of_stops (h : Agree items)
    (hstops : Stops (latestMode? items) rest argument outcome) :
    parse (spelled items ++ argument :: rest) = outcome :=
  readFrom_spelled_of_stops (m := Id) h hstops rfl rfl fun _ => hstops.eq_nil_of_valueExpected

/-- An artifact is asked for just if the arguments are items that agree, one after the other, and
then each setting is as the last item for it says, or as it is by default. -/
theorem parse_eq_generate_iff {arguments : List String} {s : Settings} :
    parse arguments = .ok (.generate s)
      ↔ ∃ items, arguments = spelled items ∧ Agree items ∧ s = settingsOf items := by
  constructor
  · intro hparse
    obtain ⟨items, hagree, harguments⟩ := exists_items [] arguments .nil
    rw [List.nil_append] at hagree harguments
    rcases harguments with rfl | ⟨argument, rest, outcome, rfl, hstops⟩
    · rw [parse_spelled hagree] at hparse
      cases hparse
      exact ⟨items, rfl, hagree, rfl⟩
    · rw [parse_spelled_of_stops hagree hstops] at hparse
      exact absurd hparse (hstops.ne_generate s)
  · rintro ⟨items, rfl, hagree, rfl⟩
    exact parse_spelled hagree

/-- Behind items that agree, an argument is either decisive or begins a further item that agrees
with them. If it is decisive, the command line comes to what it says, whatever is behind it. -/
theorem parse_of_stops (h : Agree items) (argument : String) (rest : List String) :
    (∀ outcome, Stops (latestMode? items) rest argument outcome →
        parse (spelled items ++ argument :: rest) = outcome)
      ∧ ((∃ outcome, Stops (latestMode? items) rest argument outcome)
        ↔ ∀ item more, argument :: rest = item.arguments ++ more → ¬ Agree (items ++ [item])) := by
  refine ⟨fun outcome => parse_spelled_of_stops h, ?_, fun hnone => ?_⟩
  · rintro ⟨outcome, hstops⟩ item more harguments hagree
    obtain ⟨first, front, hitem⟩ : ∃ first front, item.arguments = first :: front := by
      cases item <;> exact ⟨_, _, rfl⟩
    rw [hitem, List.cons_append, List.cons.injEq] at harguments
    obtain ⟨rfl, rfl⟩ := harguments
    have hparse := parse_spelled hagree
    rw [spelled_concat, hitem, parse_spelled_of_stops h hstops.of_append] at hparse
    exact hstops.ne_generate _ hparse
  · rcases exists_item_or_stops (latestMode? items) argument rest with
      ⟨item, more, harguments, hmode⟩ | hstops
    · exact absurd (agree_concat_iff.2 ⟨h, hmode⟩) (hnone item more harguments)
    · exact hstops

/-- A mode is repeated under another name, values look like options, and then the mode changes in
front of a call for help. -/
theorem parse_of_stops_mode_conflict :
    let items : List Item := [.mode .definition "-c" (by decide),
      .apart .output "-o" "--rust" (by decide), .mode .definition "--cpp" (by decide),
      .joined .listing "--unicode-data" "-d=" (by decide) (by decide)]
    Agree items
      ∧ Stops (latestMode? items) ["--help"] "--rust" (.error (.modeConflict "--cpp" "--rust"))
      ∧ parse ["-c", "-o", "--rust", "--cpp", "--unicode-data=-d=", "--rust", "--help"]
        = .error (.modeConflict "--cpp" "--rust") := by
  intro items
  have hagree : Agree items := by decide
  have hstops : Stops (latestMode? items) ["--help"] "--rust"
      (.error (.modeConflict "--cpp" "--rust")) :=
    .modeConflict rfl (by decide : "--rust" ∈ (Meaning.mode .packed).names) (by decide)
  exact ⟨hagree, hstops, (parse_of_stops hagree "--rust" ["--help"]).1 _ hstops⟩

end CharRuns.Arguments

import CharRuns.Command
import Mathlib.Data.List.Induction
import Mathlib.Data.List.TakeWhile

/-!
# The items of a command line

A command line that asks for an artifact is made of items: a setting with its value, in two
arguments or joined into one, or a mode. An argument of which a part is read as an option is split
at its first equals sign and nowhere else (`Joins`), so a value may look like anything. An item that
agrees with the modes before it is read off the front of the arguments, however these are made into
texts (`readFrom_item`), and after items in turn the last of them for each setting has settled it
(`readFrom_spelled_append`).
-/

namespace CharRuns.Arguments

/-- A dash in front of something. -/
def isDashed : List Char → Bool
  | '-' :: _ :: _ => true
  | _ => false

namespace Meaning

/-- The options that have a meaning. -/
def names : Meaning → List String
  | help => ["-h", "--help"]
  | version => ["-V", "--version"]
  | set .listing => ["-u", "--unicode-data"]
  | set .headerFile => ["-f", "--header-file"]
  | set .includeGuard => ["--include-guard"]
  | set .output => ["-o", "--output"]
  | mode .header => ["--hpp"]
  | mode .definition => ["-c", "--cpp"]
  | mode .packed => ["--rust"]
  | mode .dump => ["-d", "--dump"]

/-- A known option begins with a dash and goes on, and no equals sign is in it. -/
theorem of_mem_names {meaning : Meaning} : ∀ name ∈ meaning.names,
    ofOption? name = some meaning ∧ isDashed name.toList = true ∧ '=' ∉ name.toList := by
  rcases meaning with _ | _ | target | mode
  · decide
  · decide
  · cases target <;> decide
  · cases mode <;> decide

theorem ofOption?_eq_some_iff {name : String} {meaning : Meaning} :
    ofOption? name = some meaning ↔ name ∈ meaning.names := by
  constructor
  · intro h
    unfold ofOption? at h
    split at h <;> cases h <;> decide
  · exact fun h => (of_mem_names name h).1

end Meaning

/-- The argument gives the long option `name` a value behind its first equals sign. -/
structure Joins (argument name value : String) : Prop where
  text : argument = name ++ "=" ++ value
  first : '=' ∉ name.toList
  long : isLong name.toList = true

variable {argument name value : String}

theorem Joins.split_eq (h : Joins argument name value) : split argument = (name, some value) := by
  obtain ⟨rfl, hfirst, hlong⟩ := h
  have hbefore : ∀ c ∈ name.toList, decide (c ≠ '=') = true := by
    intro c hc
    simpa using ne_of_mem_of_not_mem hc hfirst
  have htext : (name ++ "=" ++ value).toList = name.toList ++ '=' :: value.toList := by
    simp [String.toList_append]
  have htake : (name ++ "=" ++ value).toList.takeWhile (· ≠ '=') = name.toList := by
    rw [htext, List.takeWhile_append_of_pos hbefore]
    simp
  have hdrop : (name ++ "=" ++ value).toList.dropWhile (· ≠ '=') = '=' :: value.toList := by
    rw [htext, List.dropWhile_append_of_pos hbefore]
    simp
  simp only [split, htake, hdrop, hlong, if_true, String.ofList_toList]

theorem split_eq_self (h : ∀ name value, ¬ Joins argument name value) :
    split argument = (argument, none) := by
  cases hdrop : argument.toList.dropWhile (· ≠ '=') with
  | nil => simp only [split, hdrop]
  | cons c value =>
    have hc : c = '=' := by
      have hhead := List.head?_dropWhile_not (· ≠ '=') argument.toList
      rw [hdrop] at hhead
      simpa using hhead
    have htext : argument.toList.takeWhile (· ≠ '=') ++ c :: value = argument.toList := by
      rw [← hdrop, List.takeWhile_append_dropWhile]
    have hfront : '=' ∉ argument.toList.takeWhile (· ≠ '=') := fun hmem => by
      simpa using List.mem_takeWhile_imp hmem
    generalize htake : argument.toList.takeWhile (· ≠ '=') = front at htext hfront
    -- A long option in front of the sign would be given the value.
    have hshort : ¬ isLong front = true := by
      intro hlong
      refine h (String.ofList front) (String.ofList value) ⟨?_, ?_, ?_⟩
      · rw [← String.toList_inj, ← htext, hc]
        simp [String.toList_append]
      · rwa [String.toList_ofList]
      · rwa [String.toList_ofList]
    simp only [split, htake, hdrop, hshort, if_false, Bool.false_eq_true]

theorem split_of_mem_names {meaning : Meaning} (known : name ∈ meaning.names) :
    split name = (name, none) := by
  refine split_eq_self fun front value hjoins => (Meaning.of_mem_names name known).2.2 ?_
  rw [hjoins.text]
  simp [String.toList_append]

/-- A setting and its value, in two arguments or in one, or a mode. -/
inductive Item where
  | apart (target : Target) (name value : String) (known : name ∈ (Meaning.set target).names)
  | joined (target : Target) (name value : String) (known : name ∈ (Meaning.set target).names)
    (long : isLong name.toList = true)
  | mode (mode : Mode) (name : String) (known : name ∈ (Meaning.mode mode).names)

namespace Item

/-- The arguments that an item is spelled with. -/
def arguments : Item → List String
  | apart _ name value _ => [name, value]
  | joined _ name value _ _ => [name ++ "=" ++ value]
  | mode _ name _ => [name]

/-- The mode that an item chooses, with the option it is chosen by. -/
def mode? : Item → Option (Mode × String)
  | mode chosen name _ => some (chosen, name)
  | _ => none

/-- The value that an item gives a setting. -/
def value? (setting : Target) : Item → Option String
  | apart target _ value _ | joined target _ value _ _ =>
    if target = setting then some value else none
  | mode _ _ _ => none

/-- The settings behind an item. -/
def apply (s : Settings) : Item → Settings
  | apart target _ value _ | joined target _ value _ _ => target.set value s
  | mode chosen _ _ => { s with mode := chosen }

end Item

/-- The arguments that items make up. -/
def spelled (items : List Item) : List String :=
  items.flatMap Item.arguments

/-- The modes that items choose, with the options they are chosen by. -/
def modesOf (items : List Item) : List (Mode × String) :=
  items.filterMap Item.mode?

/-- The items do not choose different modes. -/
def Agree (items : List Item) : Prop :=
  (modesOf items).Pairwise fun a b => a.1 = b.1

instance (items : List Item) : Decidable (Agree items) :=
  inferInstanceAs (Decidable (List.Pairwise _ _))

/-- The mode chosen last, with the option it was chosen by. -/
def latestMode? (items : List Item) : Option (Mode × String) :=
  (modesOf items).getLast?

/-- The value that a setting was given last. -/
def latestValue? (items : List Item) (setting : Target) : Option String :=
  (items.filterMap (Item.value? setting)).getLast?

/-- Every setting as the last item for it has it, or else as it is by default. -/
def settingsOf (items : List Item) : Settings :=
  { listing := (latestValue? items .listing).getD Settings.default.listing
    headerFile := (latestValue? items .headerFile).getD Settings.default.headerFile
    includeGuard := (latestValue? items .includeGuard).getD Settings.default.includeGuard
    mode := ((latestMode? items).map (·.1)).getD Settings.default.mode
    output := (latestValue? items .output).or Settings.default.output }

variable {items : List Item} {item : Item}

theorem spelled_concat (items : List Item) (item : Item) :
    spelled (items ++ [item]) = spelled items ++ item.arguments := by
  simp [spelled]

theorem latestMode?_concat (items : List Item) (item : Item) :
    latestMode? (items ++ [item]) = item.mode?.or (latestMode? items) := by
  cases hmode : item.mode? <;> simp [latestMode?, modesOf, hmode]

theorem latestValue?_concat (items : List Item) (item : Item) (setting : Target) :
    latestValue? (items ++ [item]) setting
      = (item.value? setting).or (latestValue? items setting) := by
  cases hvalue : item.value? setting <;> simp [latestValue?, hvalue]

theorem settingsOf_concat (items : List Item) (item : Item) :
    settingsOf (items ++ [item]) = item.apply (settingsOf items) := by
  cases item with
  | apart target name value known =>
    cases target <;> simp [settingsOf, latestMode?_concat, latestValue?_concat, Item.mode?,
      Item.value?, Item.apply, Target.set]
  | joined target name value known long =>
    cases target <;> simp [settingsOf, latestMode?_concat, latestValue?_concat, Item.mode?,
      Item.value?, Item.apply, Target.set]
  | mode mode name known =>
    simp [settingsOf, latestMode?_concat, latestValue?_concat, Item.mode?, Item.value?, Item.apply]

/-- An item more agrees with the rest if it chooses the mode chosen last, or none. -/
theorem agree_concat_iff : Agree (items ++ [item])
    ↔ Agree items ∧ ∀ chosen ∈ item.mode?, ∀ latest ∈ latestMode? items, latest.1 = chosen.1 := by
  have hmodes : modesOf (items ++ [item]) = modesOf items ++ item.mode?.toList := by
    cases hmode : item.mode? <;> simp [modesOf, hmode]
  rw [Agree, hmodes, List.pairwise_append, Agree, latestMode?]
  refine and_congr_right fun hitems => ?_
  constructor
  · rintro ⟨-, hall⟩ chosen hchosen latest hlatest
    exact hall latest (List.mem_of_getLast? hlatest) chosen (Option.mem_toList.2 hchosen)
  · intro hlatest
    refine ⟨Option.pairwise_toList, fun earlier hearlier chosen hchosen => ?_⟩
    cases hlast : (modesOf items).getLast? with
    | none =>
      rw [List.getLast?_eq_none_iff.1 hlast] at hearlier
      cases hearlier
    | some latest =>
      have hsame := hlatest chosen (Option.mem_toList.1 hchosen) latest hlast
      obtain ⟨front, hfront⟩ := List.getLast?_eq_some_iff.1 hlast
      rw [hfront] at hearlier hitems
      rcases List.mem_append.1 hearlier with hbefore | hself
      · obtain ⟨-, -, hcross⟩ := List.pairwise_append.1 hitems
        exact (hcross earlier hbefore latest List.mem_cons_self).trans hsame
      · rw [List.mem_singleton.1 hself, hsame]

section Read

variable {m : Type → Type} [Monad m] [LawfulMonad m] {α : Type} {text : α → m String}

/-- An item is read off the front of the arguments, if it does not change the mode. -/
theorem readFrom_item {s : Settings} {chosen : Option String} (item : Item)
    (hmode : ∀ mode name, item.mode? = some (mode, name) → chosen = none ∨ mode = s.mode)
    {front : List α} (hfront : front.map text = item.arguments.map pure) (rest : List α) :
    readFrom text s chosen (front ++ rest)
      = readFrom text (item.apply s) ((item.mode?.map (·.2)).or chosen) rest := by
  cases item with
  | apart target name value known =>
    obtain ⟨a, _, rfl, ha, hfront⟩ := List.map_eq_cons_iff.1 hfront
    obtain ⟨b, _, rfl, hb, hnone⟩ := List.map_eq_cons_iff.1 hfront
    rw [List.map_eq_nil_iff.1 hnone, List.cons_append, readFrom, ha, pure_bind,
      split_of_mem_names known]
    simp only [Meaning.ofOption?_eq_some_iff.2 known, List.singleton_append, hb, pure_bind]
    rfl
  | joined target name value known long =>
    have hjoins : Joins (name ++ "=" ++ value) name value :=
      ⟨rfl, (Meaning.of_mem_names name known).2.2, long⟩
    obtain ⟨a, _, rfl, ha, hnone⟩ := List.map_eq_cons_iff.1 hfront
    rw [List.map_eq_nil_iff.1 hnone, List.singleton_append, readFrom, ha, pure_bind,
      hjoins.split_eq]
    simp only [Meaning.ofOption?_eq_some_iff.2 known]
    rfl
  | mode mode name known =>
    obtain ⟨a, _, rfl, ha, hnone⟩ := List.map_eq_cons_iff.1 hfront
    rw [List.map_eq_nil_iff.1 hnone, List.singleton_append, readFrom, ha, pure_bind,
      split_of_mem_names known]
    simp only [Meaning.ofOption?_eq_some_iff.2 known]
    rcases hmode mode name rfl with rfl | rfl
    · rfl
    · cases chosen <;> simp [Item.apply, Item.mode?]

/-- After items the reader goes on with the settings that they make and the mode chosen last. -/
theorem readFrom_spelled_append (h : Agree items) {front : List α}
    (hfront : front.map text = (spelled items).map pure) (rest : List α) :
    readFrom text .default none (front ++ rest)
      = readFrom text (settingsOf items) ((latestMode? items).map (·.2)) rest := by
  induction items using List.reverseRecOn generalizing front rest with
  | nil =>
    rw [List.map_eq_nil_iff.1 hfront]
    rfl
  | append_singleton items item ih =>
    obtain ⟨hitems, hitem⟩ := agree_concat_iff.1 h
    have hmode (mode : Mode) (name : String) (hchosen : item.mode? = some (mode, name)) :
        (latestMode? items).map (·.2) = none ∨ mode = (settingsOf items).mode := by
      cases hlatest : latestMode? items with
      | none => exact .inl rfl
      | some latest =>
        have hsame : latest.1 = mode := hitem _ hchosen latest hlatest
        simp only [settingsOf, hlatest, Option.map_some, Option.getD_some, hsame, or_true]
    rw [spelled_concat, List.map_append] at hfront
    obtain ⟨init, last, rfl, hinit, hlast⟩ := List.map_eq_append_iff.1 hfront
    rw [List.append_assoc, ih hitems hinit, readFrom_item item hmode hlast, settingsOf_concat,
      latestMode?_concat, Option.map_or]

end Read

end CharRuns.Arguments

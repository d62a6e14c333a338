import CharRuns.Proofs.ArgumentOutcome

/-!
# The spellings of a setting

Arguments that do not end in want of a value are items that agree, or they have come to their
outcome whatever is put behind them (`exists_items_or_settled`). Behind items it does not matter how
an option and its value are spelled, as all spellings make the same item of them
(`parse_spelled_set`). So neither does it behind any such arguments (`parse_respelled`).
-/

namespace CharRuns.Arguments

variable {front : List String} {items : List Item}

theorem exists_items_or_settled (h : ∀ option, parse front ≠ .error (.valueExpected option)) :
    (∃ items, front = spelled items ∧ Agree items)
      ∨ (∀ s, parse front ≠ .ok (.generate s)) ∧ ∀ back, parse (front ++ back) = parse front := by
  obtain ⟨items, hagree, hfront⟩ := exists_items [] front .nil
  rw [List.nil_append] at hagree hfront
  rcases hfront with hitems | ⟨argument, rest, outcome, rfl, hstops⟩
  · exact .inl ⟨items, hitems, hagree⟩
  · have hparse := parse_spelled_of_stops hagree hstops
    rw [hparse] at h ⊢
    refine .inr ⟨hstops.ne_generate, fun back => ?_⟩
    rw [List.append_assoc, List.cons_append]
    exact parse_spelled_of_stops hagree
      (hstops.congr fun option houtcome _ => absurd houtcome (h option))

/-- Behind items, an item that chooses no mode is applied to what they make. -/
theorem parse_spelled_set (h : Agree items) (item : Item) (hmode : item.mode? = none)
    (back : List String) : parse (spelled items ++ (item.arguments ++ back))
      = readFrom (m := Id) pure (item.apply (settingsOf items)) ((latestMode? items).map (·.2))
        back := by
  have hnone : ∀ mode name, item.mode? = some (mode, name) →
      (latestMode? items).map (·.2) = none ∨ mode = (settingsOf items).mode := by
    simp [hmode]
  have hitem := readFrom_item (m := Id) item hnone rfl back
  rw [hmode] at hitem
  exact (readFrom_spelled_append (m := Id) h rfl _).trans hitem

/-- Behind arguments that do not end in want of a value, an option may have its value joined to it
or behind it, and may be long or short: the command line comes to the same. If these arguments ask
for an artifact, they still do, with the value set. If not, they have come to their outcome. -/
theorem parse_respelled (hfront : ∀ option, parse front ≠ .error (.valueExpected option))
    {target : Target} {long : String} (known : long ∈ (Meaning.set target).names)
    (hlong : isLong long.toList = true) (value : String) (back : List String) :
    (∀ name ∈ (Meaning.set target).names,
        parse (front ++ name :: value :: back) = parse (front ++ (long ++ "=" ++ value) :: back))
      ∧ (∀ s, parse front = .ok (.generate s) →
        parse (front ++ [long ++ "=" ++ value]) = .ok (.generate (target.set value s)))
      ∧ ((∀ s, parse front ≠ .ok (.generate s)) →
        parse (front ++ (long ++ "=" ++ value) :: back) = parse front) := by
  rcases exists_items_or_settled hfront with ⟨items, rfl, hagree⟩ | ⟨hother, hsettled⟩
  · have hjoined := parse_spelled_set hagree (.joined target long value known hlong) rfl
    refine ⟨fun name hname => ?_, fun s hs => ?_, fun hother => ?_⟩
    · have hapart := parse_spelled_set hagree (.apart target name value hname) rfl back
      exact hapart.trans (hjoined back).symm
    · rw [parse_spelled hagree] at hs
      cases hs
      exact hjoined []
    · exact absurd (parse_spelled hagree) (hother _)
  · refine ⟨fun name _ => ?_, fun s hs => absurd hs (hother s), fun _ => hsettled _⟩
    rw [hsettled, hsettled]

/-- A value that looks like a call for help is read behind one that looks like a mode, and is not
read behind modes that differ. -/
theorem parse_respelled_help_as_value :
    let items := ["-c", "-o", "--rust"]
    let unlike := ["-d", "--hpp", "-o"]
    let s := { Settings.default with mode := .definition, output := some "--rust" }
    (∀ option, parse items ≠ .error (.valueExpected option)) ∧ parse items = .ok (.generate s)
      ∧ (∀ name ∈ ["-u", "--unicode-data"], parse (items ++ [name, "--help=", "--hpp", "-h"])
        = parse (items ++ ["--unicode-data=--help=", "--hpp", "-h"]))
      ∧ parse (items ++ ["--unicode-data=--help="])
        = .ok (.generate { s with listing := "--help=" })
      ∧ (∀ option, parse unlike ≠ .error (.valueExpected option))
      ∧ parse (unlike ++ ["--unicode-data=--help=", "-h"])
        = .error (.modeConflict "-d" "--hpp") := by
  intro items unlike s
  have hitems : parse items = .ok (.generate s) := by decide +kernel
  have hunlike : parse unlike = .error (.modeConflict "-d" "--hpp") := by decide +kernel
  have hvalue : ∀ option, parse items ≠ .error (.valueExpected option) := by simp [hitems]
  have hvalue' : ∀ option, parse unlike ≠ .error (.valueExpected option) := by simp [hunlike]
  have hlong : "--unicode-data" ∈ (Meaning.set .listing).names := by decide
  obtain ⟨hsame, hset, -⟩ := parse_respelled hvalue hlong (by decide) "--help=" ["--hpp", "-h"]
  obtain ⟨-, -, hsettled⟩ := parse_respelled hvalue' hlong (by decide) "--help=" ["-h"]
  have hstopped := (hsettled (by simp [hunlike])).trans hunlike
  exact ⟨hvalue, hitems, hsame, hset s hitems, hvalue', hstopped⟩

end CharRuns.Arguments

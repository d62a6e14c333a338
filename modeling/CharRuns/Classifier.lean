import CharRuns.Database
import CharRuns.Rule

/-!
# Classifying code points

The rule of a code point follows from its general category, but a few characters play a part
that their category does not imply: tabulation is a control and yet white space, the dollar sign
may begin an identifier. An override substitutes a category for one code point, assigned or not.
A list of overrides is accepted if it ascends and every substitute has the rule that its override
declares.
-/

namespace CharRuns

/-- A category to use at one code point, and the rule it is expected to give. -/
structure Override where
  codePoint : Nat
  category : Category
  rule : Rule
  deriving DecidableEq, Repr

/-- What a list of overrides is checked for. -/
structure Classifier.Acceptable (overrides : List Override) : Prop where
  le_max : ∀ o ∈ overrides, o.codePoint ≤ CodePoint.max
  ascend : overrides.Pairwise fun a b => a.codePoint < b.codePoint
  agree : ∀ o ∈ overrides, o.category.rule? = some o.rule

/-- Overrides that have been accepted. -/
structure Classifier where
  overrides : Array Override
  acceptable : Classifier.Acceptable overrides.toList
  deriving DecidableEq

namespace Classifier

instance (overrides : List Override) : Decidable (Acceptable overrides) :=
  decidable_of_iff
    ((∀ o ∈ overrides, o.codePoint ≤ CodePoint.max)
      ∧ overrides.Pairwise (fun a b => a.codePoint < b.codePoint)
      ∧ ∀ o ∈ overrides, o.category.rule? = some o.rule)
    ⟨fun ⟨h₁, h₂, h₃⟩ => ⟨h₁, h₂, h₃⟩, fun ⟨h₁, h₂, h₃⟩ => ⟨h₁, h₂, h₃⟩⟩

/-- Why a list of overrides is refused, or does not suit a database. -/
inductive Fault where
  | outOfRange (codePoint : Nat)
  | outOfOrder (previous codePoint : Nat)
  | mismatch (codePoint : Nat) (category : Category) (expected : Rule) (found : Option Rule)
  | unassigned (codePoint : Nat) (expected : Rule)
  deriving DecidableEq, Repr

/-- A fault in words. -/
def Fault.message : Fault → String
  | outOfRange n =>
    s!"override for {CodePoint.display n} is beyond {CodePoint.display CodePoint.max}"
  | outOfOrder previous n =>
    s!"override for {CodePoint.display n} follows {CodePoint.display previous}; "
      ++ "overrides must be unique and ascending"
  | mismatch n category expected found =>
    s!"override for {CodePoint.display n} substitutes {category.display}, "
      ++ s!"which maps to {Rule.describe found} instead of {expected.name}"
  | unassigned n expected =>
    s!"override target {CodePoint.display n} ({expected.name}) "
      ++ "is not defined by the Unicode database"

/-- Checks one override that follows one for the code point `previous`. -/
def checkOverride (previous : Option Nat) (o : Override) : Except Fault Unit :=
  if CodePoint.max < o.codePoint then .error (.outOfRange o.codePoint)
  else
    match previous.filter (o.codePoint ≤ ·) with
    | some p => .error (.outOfOrder p o.codePoint)
    | none =>
      if o.category.rule? = some o.rule then .ok ()
      else .error (.mismatch o.codePoint o.category o.rule o.category.rule?)

/-- Checks overrides in turn, the first behind one for the code point `previous`. -/
def checkOverrides (previous : Option Nat) : List Override → Except Fault Unit
  | [] => .ok ()
  | o :: os =>
    match checkOverride previous o with
    | .error fault => .error fault
    | .ok () => checkOverrides (some o.codePoint) os

theorem checkOverride_eq_ok {previous : Option Nat} {o : Override}
    (h : checkOverride previous o = .ok ()) :
    (∀ p ∈ previous, p < o.codePoint)
      ∧ o.codePoint ≤ CodePoint.max ∧ o.category.rule? = some o.rule := by
  unfold checkOverride at h
  split at h
  · cases h
  rename_i hmax
  split at h
  · cases h
  rename_i hbehind
  split at h
  · rename_i hagree
    refine ⟨fun p hp => ?_, Nat.le_of_not_lt hmax, hagree⟩
    simpa using Option.filter_eq_none_iff.1 hbehind p hp
  · cases h

/-- Overrides that pass lie behind the one in front of them, as each lies behind the one before. -/
theorem checkOverrides_eq_ok : ∀ {previous : Option Nat} {overrides : List Override},
    checkOverrides previous overrides = .ok () →
      (∀ p ∈ previous, ∀ o ∈ overrides, p < o.codePoint) ∧ Acceptable overrides
  | _, [], _ => ⟨nofun, nofun, .nil, nofun⟩
  | previous, o :: os, h => by
    rw [checkOverrides] at h
    split at h
    · cases h
    rename_i hcheck
    obtain ⟨hbehind, hmax, hagree⟩ := checkOverride_eq_ok hcheck
    obtain ⟨hafter, hos⟩ := checkOverrides_eq_ok h
    refine ⟨fun p hp => ?_, ?_, ?_, ?_⟩
    · exact List.forall_mem_cons.2 ⟨hbehind p hp, fun a ha =>
        Nat.lt_trans (hbehind p hp) (hafter _ rfl a ha)⟩
    · exact List.forall_mem_cons.2 ⟨hmax, hos.le_max⟩
    · exact List.pairwise_cons.2 ⟨hafter _ rfl, hos.ascend⟩
    · exact List.forall_mem_cons.2 ⟨hagree, hos.agree⟩

/-- The classifier with given overrides, or what is wrong with the first that may not stand where it
does. -/
def ofOverrides (overrides : List Override) : Except Fault Classifier :=
  match h : checkOverrides none overrides with
  | .error fault => .error fault
  | .ok () => .ok ⟨overrides.toArray, (checkOverrides_eq_ok h).2⟩

end Classifier

/-- The characters whose part in the grammar differs from their category's. -/
def Override.standard : List Override :=
  [ whitespace 0x0009
  , whitespace 0x000A
  , whitespace 0x000B
  , whitespace 0x000C
  , whitespace 0x000D
  , whitespace 0x0020
  , identifierStart 0x0024
  , identifierStart 0x005F
  , whitespace 0x00A0
  , identifierPart 0x200C
  , identifierPart 0x200D
  , whitespace 0xFEFF ]
where
  whitespace (n : Nat) : Override := ⟨n, .spaceSeparator, .whitespace⟩
  identifierStart (n : Nat) : Override := ⟨n, .otherLetter, .identifierStart⟩
  identifierPart (n : Nat) : Override := ⟨n, .spacingMark, .identifierPart⟩

namespace Classifier

/-- The classifier with the standard overrides. -/
def standard : Classifier :=
  ⟨Override.standard.toArray, by decide⟩

/-- Checks that a database assigns the code points of all overrides. -/
def requireAssigned (c : Classifier) (db : Database) : Except Fault Unit :=
  match c.overrides.find? fun o => (db.characterAt? o.codePoint).isNone with
  | some o => .error (.unassigned o.codePoint o.rule)
  | none => .ok ()

/-- The standard classifier, if it suits a database. -/
def standardFor (db : Database) : Except Fault Classifier :=
  match standard.requireAssigned db with
  | .error fault => .error fault
  | .ok () => .ok standard

/-- The override for a code point, found by binary search. -/
def overrideAt? (c : Classifier) (n : Nat) : Option Override :=
  let i := Search.boundary (fun o => o.codePoint < n) c.overrides
  c.overrides[i]?.filter (·.codePoint = n)

/-- The rule of a code point with a given category, or with none if it is unassigned. -/
def classify (c : Classifier) (n : Nat) (category : Option Category) : Option Rule :=
  match c.overrideAt? n with
  | some o => o.category.rule?
  | none => category.bind Category.rule?

end Classifier

end CharRuns

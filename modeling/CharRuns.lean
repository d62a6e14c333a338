import CharRuns.Main
import CharRuns.Proofs.AcceptedOverrides
import CharRuns.Proofs.AcceptedWords
import CharRuns.Proofs.AlikeListings
import CharRuns.Proofs.ArgumentItems
import CharRuns.Proofs.ArgumentOutcome
import CharRuns.Proofs.ArgumentSpellings
import CharRuns.Proofs.ArtifactText
import CharRuns.Proofs.AssignedRows
import CharRuns.Proofs.BlockPlacement
import CharRuns.Proofs.Boundary
import CharRuns.Proofs.Canonical
import CharRuns.Proofs.CursorPositions
import CharRuns.Proofs.DatabaseEntries
import CharRuns.Proofs.DatabaseHistory
import CharRuns.Proofs.DatabaseIteration
import CharRuns.Proofs.DeclaredSize
import CharRuns.Proofs.DefinitionOrder
import CharRuns.Proofs.DefinitionText
import CharRuns.Proofs.DumpText
import CharRuns.Proofs.EncodeOutcome
import CharRuns.Proofs.EncoderHistory
import CharRuns.Proofs.Encoding
import CharRuns.Proofs.EncodingPieces
import CharRuns.Proofs.Expansion
import CharRuns.Proofs.FewestRuns
import CharRuns.Proofs.GeneratedRules
import CharRuns.Proofs.GenerationOutcome
import CharRuns.Proofs.HostLaws
import CharRuns.Proofs.IterationOrder
import CharRuns.Proofs.ListingAcceptance
import CharRuns.Proofs.ListingDiagnosis
import CharRuns.Proofs.ListingEntries
import CharRuns.Proofs.ListingGrammar
import CharRuns.Proofs.MacroNames
import CharRuns.Proofs.Numeral
import CharRuns.Proofs.Overrides
import CharRuns.Proofs.OverridesOutcome
import CharRuns.Proofs.PackedText
import CharRuns.Proofs.PackedWord
import CharRuns.Proofs.ProcessArguments
import CharRuns.Proofs.ReachableDatabase
import CharRuns.Proofs.RefusedPushes
import CharRuns.Proofs.SessionOutcome
import CharRuns.Proofs.SinkOutcome
import CharRuns.Proofs.StartSearch
import CharRuns.Proofs.TableDefects
import CharRuns.Proofs.TableRules
import CharRuns.Proofs.TabulatedRules
import CharRuns.Proofs.TextLines
import CharRuns.Workspace

import DiagLayout.Main
import DiagLayout.Corpus
import DiagLayout.Proofs.NoFault
import DiagLayout.Proofs.Feeding
import DiagLayout.Proofs.Freshness
import DiagLayout.Proofs.Rendering
import DiagLayout.Proofs.Derivations
import DiagLayout.Proofs.Replay
import DiagLayout.Proofs.FoldedText
import DiagLayout.Proofs.FillRule
import DiagLayout.Proofs.CleanCuts
import DiagLayout.Proofs.QuotedLiterals
import DiagLayout.Proofs.FoldTargets
import DiagLayout.Proofs.WholeGroups
import DiagLayout.Proofs.SubstitutionLines
import DiagLayout.Proofs.InstructionSites
import DiagLayout.Proofs.WidthBound
import DiagLayout.Proofs.FittingExpressions
import DiagLayout.Proofs.ValueColumns
import DiagLayout.Proofs.BracketLanguage
import DiagLayout.Proofs.TokenPartition
import DiagLayout.Proofs.RegionStructure
import DiagLayout.Proofs.FoldedDepth
import DiagLayout.Proofs.LongerReading
import DiagLayout.Proofs.Narrowing
import DiagLayout.Proofs.LoneMarks
import DiagLayout.Proofs.OperatorNames
import DiagLayout.Proofs.BracketFaults
import DiagLayout.Proofs.CorpusLines
import DiagLayout.Proofs.CommandInputs
import DiagLayout.Proofs.PrinterFrames
import DiagLayout.Proofs.SizeOverrides
import DiagLayout.Proofs.EventAccounting

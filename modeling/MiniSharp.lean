import MiniSharp.Analysis.Damage
import MiniSharp.Datum.Match
import MiniSharp.Main
import MiniSharp.Shell.Menu
import MiniSharp.Suite.Extraction
import MiniSharp.Proofs.Outcome
import MiniSharp.Proofs.ParsedForms
import MiniSharp.Proofs.TokenForms
import MiniSharp.Proofs.Lexemes
import MiniSharp.Proofs.CheckedPlaces
import MiniSharp.Proofs.TypeChecking
import MiniSharp.Proofs.BlockScope
import MiniSharp.Proofs.CheckedForms
import MiniSharp.Proofs.FreshNames
import MiniSharp.Proofs.LoweredScopes
import MiniSharp.Proofs.GivenNames
import MiniSharp.Proofs.Binding
import MiniSharp.Proofs.Naming
import MiniSharp.Proofs.Totality
import MiniSharp.Proofs.TokenLayout
import MiniSharp.Proofs.CheckingOrder
import MiniSharp.Proofs.NameResolution
import MiniSharp.Proofs.Grammar
import MiniSharp.Proofs.GrammarCompleteness
import MiniSharp.Proofs.ReadingSteps
import MiniSharp.Proofs.ExpressionReading
import MiniSharp.Proofs.ProgramReading
import MiniSharp.Proofs.Unambiguity
import MiniSharp.Proofs.Acceptance
import MiniSharp.Proofs.Twins
import MiniSharp.Proofs.TwinReading
import MiniSharp.Proofs.TwinChecking
import MiniSharp.Proofs.TwinLowering
import MiniSharp.Proofs.LayoutIndependence
import MiniSharp.Proofs.FunctionOrder
import MiniSharp.Proofs.SeparateCompilation
import MiniSharp.Proofs.TargetTyping
import MiniSharp.Proofs.TypedLowering
import MiniSharp.Proofs.TokenMaps
import MiniSharp.Proofs.Concatenation
import MiniSharp.Proofs.DatumText
import MiniSharp.Proofs.DatumLayout
import MiniSharp.Proofs.DatumPatterns
import MiniSharp.Proofs.SuiteSections
import MiniSharp.Proofs.ShortestDecimal
import MiniSharp.Proofs.TreeData
import MiniSharp.Proofs.Depiction
import MiniSharp.Proofs.DistinctTexts
import MiniSharp.Proofs.PhaseAgreement
import MiniSharp.Proofs.Characters
import MiniSharp.Proofs.Literals
import MiniSharp.Proofs.Frames
import MiniSharp.Proofs.ChosenNames
import MiniSharp.Proofs.PrintedLines
import MiniSharp.Proofs.Nesting
import MiniSharp.Proofs.FileLayout
import MiniSharp.Proofs.Regrouping
import MiniSharp.Proofs.WrittenBack
import MiniSharp.Proofs.LiteralValues
import MiniSharp.Proofs.DamagedNotes
import MiniSharp.Proofs.ParserCursor
import MiniSharp.Proofs.TokenBuffer
import MiniSharp.Proofs.ScopeHistory
import MiniSharp.Proofs.SymbolTables
import MiniSharp.Proofs.SuiteJoining
import MiniSharp.Proofs.PathPlaces
import MiniSharp.Proofs.FileChanges
import MiniSharp.Proofs.MachineCalls
import MiniSharp.Proofs.ProjectWriting
import MiniSharp.Proofs.ReportedLines
import MiniSharp.Proofs.NumberedNames
import MiniSharp.Proofs.MenuRuns

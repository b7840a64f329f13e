import JavaMinus.BitSet.Signed
import JavaMinus.Main
import JavaMinus.Text.Wire
import JavaMinus.Proofs.Behaviour
import JavaMinus.Proofs.Execution
import JavaMinus.Proofs.Thinning
import JavaMinus.Proofs.BitSetElements
import JavaMinus.Proofs.LivenessEquations
import JavaMinus.Proofs.ConstantStates
import JavaMinus.Proofs.ConstantPropagation
import JavaMinus.Proofs.Simplification
import JavaMinus.Proofs.ProperColoring
import JavaMinus.Proofs.InterferenceGraph
import JavaMinus.Proofs.SlotLayout
import JavaMinus.Proofs.RegisterPlacement
import JavaMinus.Proofs.SourceMeaning
import JavaMinus.Proofs.EmittedCode
import JavaMinus.Proofs.ListedMethods
import JavaMinus.Proofs.CodeSegments
import JavaMinus.Proofs.ReadTrees
import JavaMinus.Proofs.ExpressionCode
import JavaMinus.Proofs.StatementCode
import JavaMinus.Proofs.MethodCode
import JavaMinus.Proofs.ValuedTrees
import JavaMinus.Proofs.TidyCode
import JavaMinus.Proofs.AcceptedPrograms
import JavaMinus.Proofs.ControlPaths
import JavaMinus.Proofs.WellMadeMethods
import JavaMinus.Proofs.CarefulCode
import JavaMinus.Proofs.WrittenTemporaries
import JavaMinus.Proofs.StackMachine
import JavaMinus.Proofs.SelectedOperations
import JavaMinus.Proofs.InstructionSelection
import JavaMinus.Proofs.AssembledMethods
import JavaMinus.Proofs.RegisterLimit
import JavaMinus.Proofs.PrintedTokens
import JavaMinus.Proofs.ReadingBack
import JavaMinus.Proofs.RoundTrip
import JavaMinus.Proofs.SelectedLines
import JavaMinus.Proofs.StackHeights
import JavaMinus.Proofs.TypedCode
import JavaMinus.Proofs.TypedSimplification
import JavaMinus.Proofs.EmittedBodies
import JavaMinus.Proofs.StageRuns
import JavaMinus.Proofs.GrammarRules
import JavaMinus.Proofs.ExpressionLevels
import JavaMinus.Proofs.AcceptedTexts
import JavaMinus.Proofs.IndexedTables
import JavaMinus.Proofs.BuiltTables
import JavaMinus.Proofs.DeclarationOrder
import JavaMinus.Proofs.TypingRules
import JavaMinus.Proofs.TypedLookups
import JavaMinus.Proofs.OverloadResolution
import JavaMinus.Proofs.CheckedTypes
import JavaMinus.Proofs.TypedFiles
import JavaMinus.Proofs.ExhaustiveSearch
import JavaMinus.Proofs.FewestSlots
import JavaMinus.Proofs.IdempotentSimplification
import JavaMinus.Proofs.NormalForms
import JavaMinus.Proofs.AwaitedPhrases
import JavaMinus.Proofs.FirstErrors
import JavaMinus.Proofs.PartsRoundTrip
import JavaMinus.Proofs.FaithfulScanning
import JavaMinus.Proofs.FiniteSets
import JavaMinus.Proofs.CompleteMarks
import JavaMinus.Proofs.ExportedTrees
import JavaMinus.Proofs.ExactLiveness
import JavaMinus.Proofs.OperandAccess
import JavaMinus.Proofs.SaturationQueue
import JavaMinus.Proofs.DistinctOverloads

import StackMachine.Evaluation
import StackMachine.Main
import StackMachine.Proofs.Actions
import StackMachine.Proofs.Linking
import StackMachine.Proofs.Steps
import StackMachine.Proofs.Straight
import StackMachine.Proofs.Effects
import StackMachine.Proofs.Runs
import StackMachine.Proofs.Comparison
import StackMachine.Proofs.StackBound
import StackMachine.Proofs.LineInput
import StackMachine.Proofs.FaultFrame
import StackMachine.Proofs.LabelResolution
import StackMachine.Proofs.Truncation
import StackMachine.Proofs.Checking
import StackMachine.Proofs.Operators
import StackMachine.Proofs.Soundness
import StackMachine.Proofs.Quoting
import StackMachine.Proofs.Literals
import StackMachine.Proofs.Decimal.Nearest
import StackMachine.Proofs.Decimal.Interval
import StackMachine.Proofs.Decimal.Packing
import StackMachine.Proofs.Decimal.Readback
import StackMachine.Proofs.ExprCode
import StackMachine.Proofs.Generated
import StackMachine.Proofs.Labelling
import StackMachine.Proofs.LabelCount
import StackMachine.Proofs.StmtCode
import StackMachine.Proofs.Simulation
import StackMachine.Proofs.Compilation
import StackMachine.Proofs.Agreement
import StackMachine.Proofs.Definedness
import StackMachine.Proofs.TypeSoundness
import StackMachine.Proofs.InstructionText
import StackMachine.Proofs.Grammar
import StackMachine.Proofs.RoundTrip
import StackMachine.Proofs.Assembled
import StackMachine.Proofs.StackDepth
import StackMachine.Proofs.Initialization
import StackMachine.Proofs.CommandLine
import StackMachine.Proofs.FirstDeclarations
import StackMachine.Proofs.CoreLanguage
import StackMachine.Proofs.AssemblyLines
import StackMachine.Proofs.CheckingOrder
import StackMachine.Proofs.IntegerArithmetic
import StackMachine.Proofs.ForwardJumps
import StackMachine.Proofs.Renaming
import StackMachine.Proofs.PrintedLines
import StackMachine.Proofs.ListingRows
import StackMachine.Proofs.Arguments
import StackMachine.Proofs.Concatenation

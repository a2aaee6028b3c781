import Oxtra.Library.FlowGraph
import Oxtra.Library.WrappedArithmetic
import Oxtra.Library.Ring
import Oxtra.Library.RiscV.Instruction
import Oxtra.Library.RiscV.Encoding
import Oxtra.Library.RiscV.Semantics
import Oxtra.Library.RiscV.Program
import Oxtra.Flags
import Oxtra.Fadec
import Oxtra.Utils
import Oxtra.Elf
import Oxtra.Instruction
import Oxtra.FlagPrediction
import Oxtra.StaticList
import Oxtra.StaticList.Sections
import Oxtra.CodeStore
import Oxtra.CodeStore.Pages
import Oxtra.CodeStore.Insertion
import Oxtra.CodeStore.Lookup
import Oxtra.Encoding
import Oxtra.ExecutionContext
import Oxtra.JumpTable
import Oxtra.Helper
import Oxtra.Helper.LoadImmediate
import Oxtra.Instructions.ControlFlow
import Oxtra.FlagEvaluation.Stubs
import Oxtra.FlagEvaluation.Values
import Oxtra.FlagEvaluation.Evaluators
import Oxtra.FlagEvaluation.Dispatch
import Oxtra.Dispatcher.Reroute
import Oxtra.Dispatcher.Brk
import Oxtra.Dispatcher.ReturnStack
import Oxtra.CodeGenerator.Block
import Oxtra.CodeGenerator.FlagElimination
import Oxtra.CodeGenerator.Chaining
import Oxtra.Dispatcher.Outcome
import Oxtra.Dispatcher.Transparency
import Oxtra.Dispatcher.Tlb
import Oxtra.Dispatcher.CallTable
import Oxtra.Dispatcher.Return
import Oxtra.Decoding
import Oxtra.Decoding.Agreement
import Oxtra.CodeGenerator.Translate
import Oxtra.CodeStore.Bounds
import Oxtra.CodeStore.NextBlock
import Oxtra.CodeGenerator.Overlap
import Oxtra.Elf.File
import Oxtra.Elf.Unpack
import Oxtra.Elf.Contents
import Oxtra.Instruction.FlagUpdates
import Oxtra.Instruction.Operands
import Oxtra.Instructions.Operations
import Oxtra.Instructions.Multiplication
import Oxtra.Instructions.Shifts
import Oxtra.Instructions.BitTest
import Oxtra.Instructions.Conditions
import Oxtra.Instructions.Memory
import Oxtra.Instructions.String
import Oxtra.Instructions.Generate
import Oxtra.Library.RiscV.Trace
import Oxtra.Encoding.Effects
import Oxtra.Helper.Registers
import Oxtra.Instruction.Addresses
import Oxtra.Instruction.Accesses
import Oxtra.Instruction.AddressAgreement
import Oxtra.Instructions.DirectLoads
import Oxtra.FlagEvaluation.Evaluation
import Oxtra.Instruction.FlagEffects
import Oxtra.Helper.Parts
import Oxtra.Instruction.ResultFlags
import Oxtra.Instruction.OperandValues
import Oxtra.Instructions.Execution
import Oxtra.Instructions.Arithmetic
import Oxtra.Instructions.RegisterOperations
import Oxtra.Instructions.Addition
import Oxtra.Instructions.Subtraction
import Oxtra.Instructions.Comparison
import Oxtra.Instruction.FieldSparing
import Oxtra.Instructions.Sparing
import Oxtra.Instructions.LimbAddition
import Oxtra.Helper.LoadAddress
import Oxtra.Instructions.ConditionalJumps
import Oxtra.Instructions.Logic
import Oxtra.Instructions.UnaryOperations
import Oxtra.Instructions.ConditionalSets
import Oxtra.Instructions.BitTests
import Oxtra.Instructions.ImmediateShifts
import Oxtra.Instructions.ClShifts
import Oxtra.Instruction.WriteBacks
import Oxtra.Instructions.MemoryOperations
import Oxtra.Library.Rotations
import Oxtra.Instructions.Rotations
import Oxtra.Library.TwosComplement
import Oxtra.Instruction.ExtendedOperands
import Oxtra.Instructions.Divisions
import Oxtra.Instructions.Products
import Oxtra.Dispatcher.Shrinking
import Oxtra.Dispatcher.GuestStack
import Oxtra.Instructions.Moves
import Oxtra.Instructions.StackOperands
import Oxtra.Instructions.StackInstructions
import Oxtra.Instructions.Repetitions
import Oxtra.Instructions.StringComparisons
import Oxtra.Instructions.ConditionalMoves
import Oxtra.Instructions.Lengths
import Oxtra.CodeGenerator.Batch
import Oxtra.CodeGenerator.UndeclaredFlags
import Oxtra.Elf.Readable
import Oxtra.Encoding.Pseudo
import Oxtra.Debugger.Blocks
import Oxtra.Debugger.PrintFlags
import Oxtra.Instruction.SubRegisters
import Oxtra.Library.Snapping
import Oxtra.Debugger.BreakPoints
import Oxtra.Debugger.Translation
import Oxtra.Debugger.Sessions
import Oxtra.Library.RiscV.Agreement
import Oxtra.Instructions.Pruning
import Oxtra.Instructions.PrunedRuns
import Oxtra.Instructions.ReachedStates
import Oxtra.Guest.Machine
import Oxtra.Guest.Represents
import Oxtra.Guest.Operations
import Oxtra.Guest.Moves
import Oxtra.Guest.Conditions
import Oxtra.Guest.MemoryMoves
import Oxtra.Guest.Forms
import Oxtra.Guest.Blocks
import Oxtra.Guest.Translations
import Oxtra.Guest.Runs
import Oxtra.CodeGenerator.Links
import Oxtra.CodeGenerator.StoredCode
import Oxtra.Library.RiscV.Endings
import Oxtra.Instruction.FieldLoads
import Oxtra.Instruction.FlagRenewals
import Oxtra.Instructions.FlagRenewals
import Oxtra.CodeGenerator.DeclaredFlags

import WordMachine.Assembly.Immediate
import WordMachine.Assembly.Printer
import WordMachine.Assembly.Token
import WordMachine.Debug.CallStack
import WordMachine.Debug.Command
import WordMachine.Debug.Inspection
import WordMachine.Debug.PointTable
import WordMachine.Debug.Session
import WordMachine.Debug.Tracker
import WordMachine.Debug.Watch
import WordMachine.Instruction.Basic
import WordMachine.Instruction.Codec
import WordMachine.Instruction.Field
import WordMachine.Instruction.Flags
import WordMachine.Instruction.Format
import WordMachine.Instruction.InstructionSet
import WordMachine.Instruction.Opcode
import WordMachine.Instruction.Register
import WordMachine.Machine.Alu
import WordMachine.Machine.Basic
import WordMachine.Machine.Cost
import WordMachine.Machine.Effect
import WordMachine.Machine.Image
import WordMachine.Machine.Listing
import WordMachine.Machine.Memory
import WordMachine.Machine.Operation
import WordMachine.Machine.RegisterFile
import WordMachine.Machine.Run
import WordMachine.Machine.Trap
import WordMachine.Program.AddressMap
import WordMachine.Program.Basic
import WordMachine.Program.Binding
import WordMachine.Program.DebugInfo
import WordMachine.Program.Forms
import WordMachine.Program.Link
import WordMachine.Program.Lookup
import WordMachine.Program.NameTable
import WordMachine.Program.Placement
import WordMachine.Program.Reference
import WordMachine.Proofs.AcceptedOperands
import WordMachine.Proofs.Accounting
import WordMachine.Proofs.AddressLookup
import WordMachine.Proofs.AddressUse
import WordMachine.Proofs.AdmittedFormats
import WordMachine.Proofs.Breakpoints
import WordMachine.Proofs.Comparison
import WordMachine.Proofs.CountedPoints
import WordMachine.Proofs.DataAccess
import WordMachine.Proofs.DataFlow
import WordMachine.Proofs.Driving
import WordMachine.Proofs.Events
import WordMachine.Proofs.Execution
import WordMachine.Proofs.FaithfulListing
import WordMachine.Proofs.FieldBits
import WordMachine.Proofs.FreshStart
import WordMachine.Proofs.Goals
import WordMachine.Proofs.ImmediateGrammar
import WordMachine.Proofs.IntactCode
import WordMachine.Proofs.IntegerArithmetic
import WordMachine.Proofs.InterchangeableLines
import WordMachine.Proofs.LineEvents
import WordMachine.Proofs.LineSteps
import WordMachine.Proofs.LinkedAgain
import WordMachine.Proofs.Linking
import WordMachine.Proofs.LoadedImage
import WordMachine.Proofs.Meaning
import WordMachine.Proofs.MemoryBytes
import WordMachine.Proofs.MemoryFrame
import WordMachine.Proofs.NameLookup
import WordMachine.Proofs.NamedOperands
import WordMachine.Proofs.OpenCalls
import WordMachine.Proofs.Outcome
import WordMachine.Proofs.Packing
import WordMachine.Proofs.PlacedApart
import WordMachine.Proofs.PlacedProgram
import WordMachine.Proofs.PointHits
import WordMachine.Proofs.PreciseFaults
import WordMachine.Proofs.PrintedText
import WordMachine.Proofs.PrintedTokens
import WordMachine.Proofs.PushedWords
import WordMachine.Proofs.RelatedRuns
import WordMachine.Proofs.Relinking
import WordMachine.Proofs.RelocatedLookup
import WordMachine.Proofs.Relocation
import WordMachine.Proofs.RepeatedOperands
import WordMachine.Proofs.Retirement
import WordMachine.Proofs.Returning
import WordMachine.Proofs.Rounds
import WordMachine.Proofs.SettledCode
import WordMachine.Proofs.SideBySide
import WordMachine.Proofs.SoundFormats
import WordMachine.Proofs.StandardOperations
import WordMachine.Proofs.StepSplitting
import WordMachine.Proofs.StopCounts
import WordMachine.Proofs.Telling
import WordMachine.Proofs.Transparency
import WordMachine.Proofs.WatchedBytes
import WordMachine.Proofs.Watchpoints
import WordMachine.Proofs.WriteHistory
import WordMachine.Text.Blank
import WordMachine.Text.Hex
import WordMachine.Text.Letters
import WordMachine.Text.Numeral
import WordMachine.Word

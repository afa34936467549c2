import MachineCode.Allocation
import MachineCode.Allocation.LinearScan
import MachineCode.Code
import MachineCode.CommandLine
import MachineCode.CommandLine.Arguments
import MachineCode.CommandLine.Files
import MachineCode.Config
import MachineCode.Error
import MachineCode.Fault
import MachineCode.Frame
import MachineCode.Function
import MachineCode.Instruction
import MachineCode.Json
import MachineCode.Json.Decode
import MachineCode.Json.Reader
import MachineCode.Json.Token
import MachineCode.LiveRange
import MachineCode.Liveness
import MachineCode.Log
import MachineCode.Lowering
import MachineCode.Lowering.Assignment
import MachineCode.Lowering.SpillCode
import MachineCode.Main
import MachineCode.Operand
import MachineCode.Proofs.AddressText
import MachineCode.Proofs.BuildEvents
import MachineCode.Proofs.Building
import MachineCode.Proofs.CallSafety
import MachineCode.Proofs.CalleeSaved
import MachineCode.Proofs.ClassPressure
import MachineCode.Proofs.CodeEdits
import MachineCode.Proofs.CodeSequence
import MachineCode.Proofs.CompileOutcome
import MachineCode.Proofs.ControlFlow
import MachineCode.Proofs.FixedRanges
import MachineCode.Proofs.Folds
import MachineCode.Proofs.FrameEncoding
import MachineCode.Proofs.FrameExecution
import MachineCode.Proofs.FrameLayout
import MachineCode.Proofs.FrameMoves
import MachineCode.Proofs.FrameRounding
import MachineCode.Proofs.FrameSizes
import MachineCode.Proofs.HiddenUses
import MachineCode.Proofs.Interference
import MachineCode.Proofs.Intervals
import MachineCode.Proofs.JsonText
import MachineCode.Proofs.LoweredCode
import MachineCode.Proofs.Machine
import MachineCode.Proofs.MeaningPreservation
import MachineCode.Proofs.OperandSeparation
import MachineCode.Proofs.PhysicalRanges
import MachineCode.Proofs.Recording
import MachineCode.Proofs.RegisterSharing
import MachineCode.Proofs.RegisterText
import MachineCode.Proofs.RelabeledCode
import MachineCode.Proofs.Relabeling
import MachineCode.Proofs.Renaming
import MachineCode.Proofs.ReplayNumbering
import MachineCode.Proofs.ReplayRenaming
import MachineCode.Proofs.RiscVExecution
import MachineCode.Proofs.ScanInvariant
import MachineCode.Proofs.SessionIndependence
import MachineCode.Proofs.SourceOrder
import MachineCode.Proofs.SpillMinimality
import MachineCode.Proofs.SpillPaths
import MachineCode.Proofs.SpillTransparency
import MachineCode.Proofs.StackDiscipline
import MachineCode.Proofs.StackSlots
import MachineCode.Proofs.TraceDecoding
import MachineCode.Proofs.TraceJson
import MachineCode.Proofs.TwoRuns
import MachineCode.Proofs.VirtualRanges
import MachineCode.Proofs.X86Execution
import MachineCode.Register
import MachineCode.RegisterFile
import MachineCode.RegisterMap
import MachineCode.Session
import MachineCode.Target
import MachineCode.Target.RiscV
import MachineCode.Target.X86
import MachineCode.Terminal
import MachineCode.Text
import MachineCode.Trace
import MachineCode.Trace.Replay
import MachineCode.Word

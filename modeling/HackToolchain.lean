import HackToolchain.CommandLine.FileTree
import HackToolchain.Main
import HackToolchain.Proofs.AssembledRuns
import HackToolchain.Proofs.Assembly.Acceptance
import HackToolchain.Proofs.Assembly.Bindings
import HackToolchain.Proofs.Assembly.Execution
import HackToolchain.Proofs.Assembly.Faults
import HackToolchain.Proofs.Assembly.Grammar
import HackToolchain.Proofs.Assembly.Image
import HackToolchain.Proofs.Assembly.Layout
import HackToolchain.Proofs.Assembly.Link
import HackToolchain.Proofs.Assembly.Loops
import HackToolchain.Proofs.Assembly.Parts
import HackToolchain.Proofs.Assembly.Phases
import HackToolchain.Proofs.Assembly.Reading
import HackToolchain.Proofs.Assembly.RenamedText
import HackToolchain.Proofs.Assembly.Renaming
import HackToolchain.Proofs.Assembly.Spelling
import HackToolchain.Proofs.Assembly.Within
import HackToolchain.Proofs.Assembly.Words
import HackToolchain.Proofs.BinaryLines
import HackToolchain.Proofs.BinaryText
import HackToolchain.Proofs.CallReturn
import HackToolchain.Proofs.CommandBlocks
import HackToolchain.Proofs.CommandLine.Action
import HackToolchain.Proofs.CommandLine.Directory
import HackToolchain.Proofs.CommandLine.FileTree
import HackToolchain.Proofs.CommandLine.Options
import HackToolchain.Proofs.CommandLine.Path
import HackToolchain.Proofs.CommandLine.Reordering
import HackToolchain.Proofs.CommandListing
import HackToolchain.Proofs.ComputeLines
import HackToolchain.Proofs.EarlyHalts
import HackToolchain.Proofs.FailingCommands
import HackToolchain.Proofs.FaultyUnits
import HackToolchain.Proofs.GeneratedLabels
import HackToolchain.Proofs.GeneratedText
import HackToolchain.Proofs.LabelClashes
import HackToolchain.Proofs.List
import HackToolchain.Proofs.Lowering.Blocks
import HackToolchain.Proofs.Lowering.Branch
import HackToolchain.Proofs.Lowering.Calls
import HackToolchain.Proofs.Lowering.Emission
import HackToolchain.Proofs.Lowering.Families
import HackToolchain.Proofs.Lowering.Frame
import HackToolchain.Proofs.Lowering.Jumps
import HackToolchain.Proofs.Lowering.Labels
import HackToolchain.Proofs.Lowering.Layout
import HackToolchain.Proofs.Lowering.Loads
import HackToolchain.Proofs.Lowering.Numbering
import HackToolchain.Proofs.Lowering.Passages
import HackToolchain.Proofs.Lowering.Program
import HackToolchain.Proofs.Lowering.References
import HackToolchain.Proofs.Lowering.Scopes
import HackToolchain.Proofs.Lowering.Simulation
import HackToolchain.Proofs.Lowering.Source
import HackToolchain.Proofs.Lowering.Statics
import HackToolchain.Proofs.Lowering.Straight
import HackToolchain.Proofs.Lowering.StraightRun
import HackToolchain.Proofs.Lowering.Writable
import HackToolchain.Proofs.Machine.Computation
import HackToolchain.Proofs.Machine.Ending
import HackToolchain.Proofs.Machine.Execution
import HackToolchain.Proofs.Machine.FailingSteps
import HackToolchain.Proofs.Machine.Halting
import HackToolchain.Proofs.Machine.Stack
import HackToolchain.Proofs.MachineCode.Digits
import HackToolchain.Proofs.ResumedRuns
import HackToolchain.Proofs.StaticCells
import HackToolchain.Proofs.StraightLine
import HackToolchain.Proofs.Text.ByteOrder
import HackToolchain.Proofs.Text.Code
import HackToolchain.Proofs.Text.FirstLines
import HackToolchain.Proofs.Text.Layout
import HackToolchain.Proofs.Text.Lexemes
import HackToolchain.Proofs.Text.Pieces
import HackToolchain.Proofs.Text.Plain
import HackToolchain.Proofs.Text.Replace
import HackToolchain.Proofs.Text.Scan
import HackToolchain.Proofs.Text.Tidy
import HackToolchain.Proofs.Toolchain
import HackToolchain.Proofs.TranslatedDirectories
import HackToolchain.Proofs.Vm.Comparison
import HackToolchain.Proofs.Vm.Effect
import HackToolchain.Proofs.Vm.Frame
import HackToolchain.Proofs.Vm.Grammar
import HackToolchain.Proofs.Vm.Machine
import HackToolchain.Proofs.Vm.Scratch
import HackToolchain.Proofs.Vm.Store
import HackToolchain.Proofs.Vm.Written

import CilCompiler.Assembly.Basic
import CilCompiler.Assembly.Instruction
import CilCompiler.Assembly.Opcode
import CilCompiler.Assembly.TypeSig
import CilCompiler.Build
import CilCompiler.Command.Arguments
import CilCompiler.Command.Files
import CilCompiler.Command.Path
import CilCompiler.Command.Run
import CilCompiler.Compile
import CilCompiler.Decimal.Binary64
import CilCompiler.Decimal.Layout
import CilCompiler.Decimal.Shortest
import CilCompiler.Document.Grammar
import CilCompiler.Document.Moment
import CilCompiler.Document.Number
import CilCompiler.Document.Text
import CilCompiler.Document.Value
import CilCompiler.Failure
import CilCompiler.Host.Bridge
import CilCompiler.Host.Manifest
import CilCompiler.Image.Basic
import CilCompiler.Image.Binary
import CilCompiler.Image.Tables
import CilCompiler.Image.Validation
import CilCompiler.Listing.Body
import CilCompiler.Listing.Declaration
import CilCompiler.Listing.Error
import CilCompiler.Listing.Grammar
import CilCompiler.Listing.Lexer
import CilCompiler.Listing.Token
import CilCompiler.Lowering.Event
import CilCompiler.Lowering.Handle
import CilCompiler.Lowering.Layout
import CilCompiler.Lowering.Linking
import CilCompiler.Lowering.Schedule
import CilCompiler.Lowering.Selection
import CilCompiler.Lowering.Slot
import CilCompiler.Lowering.SlotTable
import CilCompiler.Main
import CilCompiler.Numbering
import CilCompiler.Options
import CilCompiler.Parser
import CilCompiler.Text.Blank
import CilCompiler.Text.Hex
import CilCompiler.Text.Hidden
import CilCompiler.Text.Quoted
import CilCompiler.Wasm.Binary
import CilCompiler.Wasm.Op
import CilCompiler.Wasm.Render
import CilCompiler.Wasm.Validation
import CilCompiler.Proofs.Flow
import CilCompiler.Proofs.Growth
import CilCompiler.Proofs.Slots
import CilCompiler.Proofs.Steps
import CilCompiler.Proofs.Linked
import CilCompiler.Proofs.Execution
import CilCompiler.Proofs.Machine
import CilCompiler.Proofs.Source
import CilCompiler.Proofs.Expansion
import CilCompiler.Proofs.Regions
import CilCompiler.Proofs.Sequences
import CilCompiler.Proofs.Effects
import CilCompiler.Proofs.Preservation
import CilCompiler.Proofs.Compiled
import CilCompiler.Proofs.Imports
import CilCompiler.Proofs.WellFormed
import CilCompiler.Proofs.CallLinking
import CilCompiler.Proofs.Shapes
import CilCompiler.Proofs.Validity
import CilCompiler.Proofs.CallShapes
import CilCompiler.Proofs.BinaryReader
import CilCompiler.Proofs.BinaryRoundTrip
import CilCompiler.Proofs.Acceptable
import CilCompiler.Proofs.Acceptance
import CilCompiler.Proofs.ListingText
import CilCompiler.Proofs.Printer
import CilCompiler.Proofs.Reading
import CilCompiler.Proofs.ListingRoundTrip
import CilCompiler.Proofs.Requests
import CilCompiler.Proofs.NamedCode
import CilCompiler.Proofs.Drafts
import CilCompiler.Proofs.DraftOutcomes
import CilCompiler.Proofs.MethodDrafts
import CilCompiler.Proofs.ModuleDrafts
import CilCompiler.Proofs.FirstReference
import CilCompiler.Proofs.Guards
import CilCompiler.Proofs.Reordering
import CilCompiler.Proofs.Faults
import CilCompiler.Proofs.Overflow
import CilCompiler.Proofs.OperandShapes
import CilCompiler.Proofs.Landing
import CilCompiler.Proofs.Relabelling
import CilCompiler.Proofs.Analysis
import CilCompiler.Proofs.SlotRequests
import CilCompiler.Proofs.FieldLayout
import CilCompiler.Proofs.Exports
import CilCompiler.Proofs.Opacity
import CilCompiler.Proofs.InstructionText
import CilCompiler.Proofs.Lookahead
import CilCompiler.Proofs.Surroundings
import CilCompiler.Proofs.Literals
import CilCompiler.Proofs.SlotNames
import CilCompiler.Proofs.LineSeams
import CilCompiler.Proofs.Positions
import CilCompiler.Proofs.Hereditary
import CilCompiler.Proofs.FreeLayout
import CilCompiler.Proofs.EndMark
import CilCompiler.Proofs.Escaping
import CilCompiler.Proofs.Redefinition
import CilCompiler.Proofs.Registers
import CilCompiler.Proofs.CommandRuns
import CilCompiler.Proofs.TypeHandles
import CilCompiler.Proofs.Nesting
import CilCompiler.Proofs.Rendering

import Abacus.Assembly
import Abacus.Bytes.Crc32
import Abacus.Bytes.Cursor
import Abacus.Bytes.LittleEndian
import Abacus.Chunk.Basic
import Abacus.Chunk.File
import Abacus.Chunk.Listing
import Abacus.Chunk.Structured
import Abacus.Chunk.Validity
import Abacus.Command.Action
import Abacus.Command.Arguments
import Abacus.Command.Execute
import Abacus.Command.Output
import Abacus.Command.Switches
import Abacus.Command.Task
import Abacus.Compiler
import Abacus.Diagnostic
import Abacus.Evaluation
import Abacus.Files.Path
import Abacus.Files.Tree
import Abacus.Host
import Abacus.Log
import Abacus.Log.Filter
import Abacus.Machine
import Abacus.Main
import Abacus.Number.Binary64
import Abacus.Number.Fixed
import Abacus.Number.Layout
import Abacus.Number.Numeral
import Abacus.Number.Ratio
import Abacus.Number.Shortest
import Abacus.Opcode
import Abacus.Precedence
import Abacus.Program
import Abacus.Sample
import Abacus.Text.Blank
import Abacus.Text.Lines
import Abacus.Text.Pad
import Abacus.Text.Split
import Abacus.Text.Terminal
import Abacus.Token.Basic
import Abacus.Token.Lexer
import Abacus.Token.Source
import Abacus.Value
import Abacus.World
import Abacus.Proofs.Grammar
import Abacus.Proofs.Passage
import Abacus.Proofs.Reader
import Abacus.Proofs.Generation
import Abacus.Proofs.Translation
import Abacus.Proofs.Acceptance
import Abacus.Proofs.Execution
import Abacus.Proofs.Preservation
import Abacus.Proofs.Worlds
import Abacus.Proofs.Faults
import Abacus.Proofs.Fields
import Abacus.Proofs.ChunkFile
import Abacus.Proofs.Instructions
import Abacus.Proofs.Operations
import Abacus.Proofs.Columns
import Abacus.Proofs.Boundaries
import Abacus.Proofs.Lexemes
import Abacus.Proofs.Tokenizing
import Abacus.Proofs.Invariants
import Abacus.Proofs.WellFormed
import Abacus.Proofs.Beginnings
import Abacus.Proofs.Blame
import Abacus.Proofs.Diagnosis
import Abacus.Proofs.Checksum
import Abacus.Proofs.Refinement
import Abacus.Proofs.SideBySide
import Abacus.Proofs.Replaying
import Abacus.Proofs.Layout
import Abacus.Proofs.Emission
import Abacus.Proofs.Sharing
import Abacus.Proofs.SingleLine
import Abacus.Proofs.Conversation
import Abacus.Proofs.FileTree
import Abacus.Proofs.WholeFiles
import Abacus.Proofs.Assembling
import Abacus.Proofs.Stepwise
import Abacus.Proofs.ReadBack
import Abacus.Proofs.Rounding
import Abacus.Proofs.SixDigits
import Abacus.Proofs.Lockstep
import Abacus.Proofs.Delimited
import Abacus.Proofs.Samples
import Abacus.Proofs.Tracing
import Abacus.Proofs.Encoding
import Abacus.Proofs.Positions
import Abacus.Proofs.Readings
import Abacus.Proofs.BitSerial

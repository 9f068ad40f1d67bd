import ParsingMachine.Byte.Set
import ParsingMachine.Byte.Escape
import ParsingMachine.Text.Lenient
import ParsingMachine.Text.CodePoint
import ParsingMachine.Grammar.Tree
import ParsingMachine.Grammar.Reach
import ParsingMachine.Grammar.Simplify
import ParsingMachine.Grammar.JumpTable
import ParsingMachine.Grammar.Factor
import ParsingMachine.Source.Load
import ParsingMachine.Semantics.Walk
import ParsingMachine.Program.Listing
import ParsingMachine.Compile.Basic
import ParsingMachine.Machine.Run
import ParsingMachine.Grammar.Shape
import ParsingMachine.Proofs.Text.Encoding
import ParsingMachine.Proofs.Source.Agreement
import ParsingMachine.Proofs.Source.Pages
import ParsingMachine.Proofs.Source.Residency
import ParsingMachine.Proofs.Source.Refinement
import ParsingMachine.Proofs.Source.Decoding
import ParsingMachine.Proofs.Source.Excerpt
import ParsingMachine.Proofs.Source.Markers
import ParsingMachine.Proofs.Semantics.Yields
import ParsingMachine.Proofs.Semantics.Adequacy
import ParsingMachine.Proofs.Semantics.Refines
import ParsingMachine.Proofs.Semantics.Steady
import ParsingMachine.Proofs.Semantics.Kept
import ParsingMachine.Proofs.Semantics.Settled
import ParsingMachine.Proofs.Semantics.References
import ParsingMachine.Proofs.Grammar.Extension
import ParsingMachine.Proofs.Grammar.Reach
import ParsingMachine.Proofs.Grammar.Search
import ParsingMachine.Proofs.Grammar.Resolution
import ParsingMachine.Proofs.Grammar.Simplify
import ParsingMachine.Proofs.Grammar.FirstByte
import ParsingMachine.Proofs.Grammar.JumpTable
import ParsingMachine.Proofs.Grammar.Attachment
import ParsingMachine.Proofs.Grammar.Factor
import ParsingMachine.Proofs.Grammar.Correspond
import ParsingMachine.Proofs.Grammar.Passes
import ParsingMachine.Proofs.Grammar.Order
import ParsingMachine.Proofs.Grammar.Provenance
import ParsingMachine.Proofs.Grammar.Found
import ParsingMachine.Proofs.Grammar.Canonical
import ParsingMachine.Proofs.Grammar.Meaning
import ParsingMachine.Proofs.Grammar.CommonHead
import ParsingMachine.Proofs.Grammar.Shape
import ParsingMachine.Proofs.Graph.Explore
import ParsingMachine.Proofs.Machine.Execution
import ParsingMachine.Proofs.Machine.Image
import ParsingMachine.Proofs.Machine.Buffers
import ParsingMachine.Proofs.Machine.Encoding
import ParsingMachine.Proofs.Machine.Brackets
import ParsingMachine.Proofs.Machine.Confinement
import ParsingMachine.Proofs.Compile.Session
import ParsingMachine.Proofs.Compile.Encode
import ParsingMachine.Proofs.Compile.Layout
import ParsingMachine.Proofs.Compile.Correctness
import ParsingMachine.Proofs.Compile.Packrat
import ParsingMachine.Proofs.Compile.Edits
import ParsingMachine.Proofs.Compile.Asks
import ParsingMachine.Proofs.Compile.Termination
import ParsingMachine.Proofs.Compile.Brackets
import ParsingMachine.Proofs.Compile.Placement
import ParsingMachine.Proofs.Compile.WellLinked
import ParsingMachine.Proofs.Compile.Discipline
import ParsingMachine.Proofs.Compile.Emission
import ParsingMachine.Proofs.Compile.Linking
import ParsingMachine.Proofs.Compile.MemoPlan
import ParsingMachine.Proofs.Compile.Halting
import ParsingMachine.Proofs.Compile.Reuse
import ParsingMachine.Proofs.Compile.Requests
import ParsingMachine.Proofs.Compile.Attribution
import ParsingMachine.Proofs.Compile.Prediction
import ParsingMachine.Proofs.Compile.Reachable
import ParsingMachine.Proofs.Byte.Reading
import ParsingMachine.Proofs.Program.Dispatch
import ParsingMachine.Proofs.Program.Listing
import ParsingMachine.Proofs.Grammar.Notation

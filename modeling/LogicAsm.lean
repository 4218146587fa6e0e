import LogicAsm.Main
import LogicAsm.Proofs.Results
import LogicAsm.Proofs.Scanning
import LogicAsm.Proofs.Places
import LogicAsm.Proofs.Reading
import LogicAsm.Proofs.Outlines
import LogicAsm.Proofs.Sources
import LogicAsm.Proofs.Layout.Blocks
import LogicAsm.Proofs.Layout.Partition
import LogicAsm.Proofs.Layout.Rereading
import LogicAsm.Proofs.Layout.FixedPoint
import LogicAsm.Proofs.Words
import LogicAsm.Proofs.BitSets
import LogicAsm.Proofs.BitSetHistory
import LogicAsm.Proofs.Flow.Edges
import LogicAsm.Proofs.Flow.Reaching
import LogicAsm.Proofs.Flow.Solver
import LogicAsm.Proofs.Flow.Unset
import LogicAsm.Proofs.Flow.Visits
import LogicAsm.Proofs.Rounding
import LogicAsm.Proofs.Numerals
import LogicAsm.Proofs.Edits
import LogicAsm.Proofs.Overlaps
import LogicAsm.Proofs.Replacement
import LogicAsm.Proofs.Jumps.Margins
import LogicAsm.Proofs.Jumps.Arrangement
import LogicAsm.Proofs.Jumps.NodeEdits
import LogicAsm.Proofs.Jumps.Destinations
import LogicAsm.Proofs.Jumps.Rewriting
import LogicAsm.Proofs.Jumps.Renumbering
import LogicAsm.Proofs.Jumps.Targets
import LogicAsm.Proofs.Jumps.Numbering
import LogicAsm.Proofs.Jumps.Redirecting
import LogicAsm.Proofs.Jumps.FreshLabels
import LogicAsm.Proofs.Jumps.LabelEdits
import LogicAsm.Proofs.Jumps.Applicable
import LogicAsm.Proofs.Jumps.Labelling
import LogicAsm.Proofs.Jumps.TargetLabels
import LogicAsm.Proofs.Jumps.LabelledProgram
import LogicAsm.Proofs.Jumps.NumberEdits
import LogicAsm.Proofs.Jumps.RoundTrip
import LogicAsm.Proofs.Jumps.Opcodes
import LogicAsm.Proofs.Spans
import LogicAsm.Proofs.Flow.Counters
import LogicAsm.Proofs.Chaining
import LogicAsm.Proofs.Flow.DeclaredLabels
import LogicAsm.Proofs.Extents
import LogicAsm.Proofs.Pointing
import LogicAsm.Proofs.Reports
import LogicAsm.Proofs.Reach
import LogicAsm.Proofs.SourceFaults
import LogicAsm.Proofs.Stores
import LogicAsm.Proofs.InPlace
import LogicAsm.Proofs.Jumps.Landmarks
import LogicAsm.Proofs.Jumps.Inserting
import LogicAsm.Proofs.Jumps.NewNames
import LogicAsm.Proofs.Jumps.Captures
import LogicAsm.Proofs.Jumps.References
import LogicAsm.Proofs.Jumps.Agreement
import LogicAsm.Proofs.LineEndings
import LogicAsm.Proofs.LexicalProblems
import LogicAsm.Proofs.Lookups
import LogicAsm.Proofs.Comments
import LogicAsm.Proofs.Jumps.Segments
import LogicAsm.Proofs.Jumps.Trimming
import LogicAsm.Proofs.Jumps.KeptComments
import LogicAsm.Proofs.EditDistance
import LogicAsm.Proofs.Suggestions
import LogicAsm.Proofs.ColorTags
import LogicAsm.Proofs.NumberGrammar
import LogicAsm.Proofs.NumberPattern

import StyleTrim.Token.Stream
import StyleTrim.Selector.Matching
import StyleTrim.Sheet.Parser
import StyleTrim.Sheet.Printer
import StyleTrim.Page.Scan
import StyleTrim.Sanitize.Sanitizer
import StyleTrim.Filter
import StyleTrim.Merge.Merger
import StyleTrim.Report.Report
import StyleTrim.Disk.Disk
import StyleTrim.Job.Filter
import StyleTrim.Job.Merge
import StyleTrim.Main
import StyleTrim.Proofs.Sheet.Steps
import StyleTrim.Proofs.Page.Forest
import StyleTrim.Proofs.Sheet.Growth
import StyleTrim.Proofs.Filter.Liveness
import StyleTrim.Proofs.Sheet.Compare
import StyleTrim.Proofs.Token.Context
import StyleTrim.Proofs.Token.Numerals
import StyleTrim.Proofs.Token.Shape
import StyleTrim.Proofs.Token.Again
import StyleTrim.Proofs.Token.Closing
import StyleTrim.Proofs.Sanitize.Matching
import StyleTrim.Proofs.Sanitize.Replace
import StyleTrim.Proofs.Sanitize.Spans
import StyleTrim.Proofs.Sanitize.Clean
import StyleTrim.Proofs.Sanitize.Cuts
import StyleTrim.Proofs.Sanitize.Pruned
import StyleTrim.Proofs.Sanitize.Remaining
import StyleTrim.Proofs.Sanitize.Tokens
import StyleTrim.Proofs.Sanitize.Taking
import StyleTrim.Proofs.Sanitize.Missed
import StyleTrim.Proofs.Token.Neighbours
import StyleTrim.Proofs.Token.Rewritten
import StyleTrim.Proofs.Token.Settled
import StyleTrim.Proofs.Sheet.Stretches
import StyleTrim.Proofs.Sheet.Splitting
import StyleTrim.Proofs.Sheet.Ahead
import StyleTrim.Proofs.Token.Marks
import StyleTrim.Proofs.Sheet.Pieces
import StyleTrim.Proofs.Sheet.Reread
import StyleTrim.Proofs.Selector.Spacing
import StyleTrim.Proofs.Selector.Preludes
import StyleTrim.Proofs.Merge.Adding
import StyleTrim.Proofs.Merge.Declared
import StyleTrim.Proofs.Merge.Balance
import StyleTrim.Proofs.Sheet.Roundtrip
import StyleTrim.Proofs.Token.Places
import StyleTrim.Proofs.Token.Parting
import StyleTrim.Proofs.Selector.Places
import StyleTrim.Proofs.Sheet.Places
import StyleTrim.Proofs.Sheet.Appended
import StyleTrim.Proofs.Filter.Again
import StyleTrim.Proofs.Token.Lossless
import StyleTrim.Proofs.Sheet.Modes
import StyleTrim.Proofs.Token.Terminated
import StyleTrim.Proofs.Token.Unescaped
import StyleTrim.Proofs.Sheet.Closed
import StyleTrim.Proofs.Sanitize.Pieces
import StyleTrim.Proofs.Filter.Untouched
import StyleTrim.Proofs.Text.Characters
import StyleTrim.Proofs.Token.Characters
import StyleTrim.Proofs.Sheet.Characters
import StyleTrim.Proofs.Sanitize.Characters
import StyleTrim.Proofs.Merge.Characters
import StyleTrim.Proofs.Merge.Isolation
import StyleTrim.Proofs.Job.Accounts
import StyleTrim.Proofs.Sheet.Joined
import StyleTrim.Proofs.Merge.Cutting
import StyleTrim.Proofs.Page.Fragments
import StyleTrim.Proofs.Filter.MoreFacts
import StyleTrim.Proofs.Page.StartTags
import StyleTrim.Proofs.Report.Reader
import StyleTrim.Proofs.Text.Decimals
import StyleTrim.Proofs.Report.Readback
import StyleTrim.Proofs.Disk.Changes
import StyleTrim.Proofs.Job.Writing
import StyleTrim.Proofs.Disk.Trees
import StyleTrim.Proofs.Disk.Resolved
import StyleTrim.Proofs.Disk.Confined
import StyleTrim.Proofs.Sheet.Nesting
import StyleTrim.Proofs.Merge.FontFaces
import StyleTrim.Proofs.Selector.Shapes
import StyleTrim.Proofs.Sheet.Shapes
import StyleTrim.Proofs.Sheet.Braces
import StyleTrim.Proofs.Sheet.Nested
import StyleTrim.Proofs.Sheet.Blocks
import StyleTrim.Proofs.Sheet.Groups
import StyleTrim.Proofs.Selector.Spelling
import StyleTrim.Proofs.Token.Separators
import StyleTrim.Proofs.Token.Sealed
import StyleTrim.Proofs.Selector.Grammar
import StyleTrim.Proofs.Selector.Elements
import StyleTrim.Proofs.Token.Enclosed
import StyleTrim.Proofs.Selector.Tight
import StyleTrim.Proofs.Selector.Compact
import StyleTrim.Proofs.Sheet.Scopes
import StyleTrim.Proofs.CommandLine.Units
import StyleTrim.Proofs.Selector.Rounds
import StyleTrim.Proofs.Sheet.Turns
import StyleTrim.Proofs.Sheet.Rounds
import StyleTrim.Proofs.Sanitize.Missed

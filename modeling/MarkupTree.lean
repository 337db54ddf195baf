import MarkupTree.Text.Ascii
import MarkupTree.Text.White
import MarkupTree.Text.Break
import MarkupTree.Text.Split
import MarkupTree.Text.Lines
import MarkupTree.Text.Printable
import MarkupTree.Text.Quoted
import MarkupTree.Markup.Reference
import MarkupTree.Markup.Void
import MarkupTree.Markup.Token
import MarkupTree.Markup.StartTag
import MarkupTree.Markup.RawText
import MarkupTree.Markup.Lexeme
import MarkupTree.Journal
import MarkupTree.Tree.Node
import MarkupTree.Tree.Policy
import MarkupTree.Tree.Stats
import MarkupTree.Tree.Failure
import MarkupTree.Tree.Builder
import MarkupTree.Tree.Pass
import MarkupTree.Tree.Outline
import MarkupTree.Tree.Session
import MarkupTree.Json.Numeral
import MarkupTree.Json.Value
import MarkupTree.Json.Reader
import MarkupTree.Json.Pretty
import MarkupTree.Tree.Codec
import MarkupTree.Files.Path
import MarkupTree.Files.Cause
import MarkupTree.Files.Store
import MarkupTree.Files.Tree
import MarkupTree.Page.Failure
import MarkupTree.Page.Resource
import MarkupTree.Page.BootTag
import MarkupTree.Page.Render
import MarkupTree.Page.Writer
import MarkupTree.Golden.Expected
import MarkupTree.Golden.LineDiff
import MarkupTree.Golden.Fixtures
import MarkupTree.Random.Generator
import MarkupTree.Random.Knob
import MarkupTree.Cli.Arguments
import MarkupTree.Cli.Command
import MarkupTree.Main
import MarkupTree.Proofs.Replay.Parallel
import MarkupTree.Proofs.Replay.Trail
import MarkupTree.Proofs.Replay.Correspondence
import MarkupTree.Proofs.Pass.Settling
import MarkupTree.Proofs.Pass.Confluence
import MarkupTree.Proofs.Lexing.Order
import MarkupTree.Proofs.Replay.Events
import MarkupTree.Proofs.Replay.Fidelity
import MarkupTree.Proofs.Lexing.Spelling
import MarkupTree.Proofs.Pass.Lowering
import MarkupTree.Proofs.Pass.Respelling
import MarkupTree.Proofs.Pass.RoundTrip
import MarkupTree.Proofs.Pass.Completion
import MarkupTree.Proofs.Replay.Conservation
import MarkupTree.Proofs.Pass.Skeleton
import MarkupTree.Proofs.Lexing.Locality
import MarkupTree.Proofs.Lexing.NormalForm
import MarkupTree.Proofs.Lexing.Printing
import MarkupTree.Proofs.Lexing.Seam
import MarkupTree.Proofs.Replay.Splitting
import MarkupTree.Proofs.Lexing.Tiling
import MarkupTree.Proofs.Lexing.Replacement
import MarkupTree.Proofs.Lexing.Pieces
import MarkupTree.Proofs.Page.BootElement
import MarkupTree.Proofs.Page.Loader
import MarkupTree.Proofs.Page.Rendering
import MarkupTree.Proofs.Replay.Carrying
import MarkupTree.Proofs.Pass.Places
import MarkupTree.Proofs.Pass.Failing
import MarkupTree.Proofs.Json.Rereading
import MarkupTree.Proofs.Json.Trees
import MarkupTree.Proofs.Pass.Appending
import MarkupTree.Proofs.Pass.RawContent
import MarkupTree.Proofs.Files.Paths
import MarkupTree.Proofs.Files.Walking
import MarkupTree.Proofs.Files.Changes
import MarkupTree.Proofs.Page.Copying
import MarkupTree.Proofs.Page.Writing
import MarkupTree.Proofs.Page.Interruption
import MarkupTree.Proofs.Page.Confinement
import MarkupTree.Proofs.Replay.Origins
import MarkupTree.Proofs.Replay.Joining
import MarkupTree.Proofs.Replay.Tracing
import MarkupTree.Proofs.Replay.Policies
import MarkupTree.Proofs.Replay.Opacity
import MarkupTree.Proofs.Replay.Voids
import MarkupTree.Proofs.Lexing.Boundaries
import MarkupTree.Proofs.Lexing.LetterCase
import MarkupTree.Proofs.Lexing.References
import MarkupTree.Proofs.Replay.Reading
import MarkupTree.Proofs.Replay.Nesting
import MarkupTree.Proofs.Replay.Counting
import MarkupTree.Proofs.Pass.Accounting
import MarkupTree.Proofs.Lexing.Encodings
import MarkupTree.Proofs.Outline.Lines
import MarkupTree.Proofs.Outline.Trees
import MarkupTree.Proofs.Golden.Lines
import MarkupTree.Proofs.Golden.Differences
import MarkupTree.Proofs.Golden.Outlines
import MarkupTree.Proofs.Json.Grammar
import MarkupTree.Proofs.Json.Layouts
import MarkupTree.Proofs.Replay.CheckedStack
import MarkupTree.Proofs.Replay.Faultless
import MarkupTree.Proofs.Lexing.Octets
import MarkupTree.Proofs.Lexing.CloseTagSearch
import MarkupTree.Proofs.Random.Period

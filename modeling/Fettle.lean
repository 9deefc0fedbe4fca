import Fettle.Text.Blank
import Fettle.Text.Lines
import Fettle.Text.Bytes
import Fettle.Text.Quoted
import Fettle.Tree.Event
import Fettle.Position
import Fettle.RuleId
import Fettle.Config.Settings
import Fettle.Config.Basic
import Fettle.Directive
import Fettle.Engine.Activation
import Fettle.Engine.Correction
import Fettle.Engine.Run
import Fettle.Kotlin.Delimited
import Fettle.Kotlin.Lexeme
import Fettle.Kotlin.Run
import Fettle.Report.Codec
import Fettle.Proofs.Tree.Sound
import Fettle.Proofs.Tree.Leaves
import Fettle.Proofs.Rules.Rewrite
import Fettle.Proofs.Text.Lines
import Fettle.Proofs.Engine.Passes
import Fettle.Proofs.Engine.Reporting
import Fettle.Proofs.Rules.Outline
import Fettle.Proofs.Rules.Settling
import Fettle.Arena.Basic
import Fettle.Arena.Builder
import Fettle.Proofs.Arena.Layout
import Fettle.Proofs.Tree.Frame
import Fettle.Proofs.Arena.Links
import Fettle.Proofs.Arena.Walk
import Fettle.Proofs.Arena.Exchange
import Fettle.Proofs.Arena.Built
import Fettle.Proofs.Arena.Linked
import Fettle.Proofs.Engine.Stable
import Fettle.Proofs.Tree.Offsets
import Fettle.Proofs.Engine.Switching
import Fettle.Proofs.Tree.Intact
import Fettle.Proofs.Text.Thinned
import Fettle.Proofs.Rules.Success
import Fettle.Proofs.Rules.Directives
import Fettle.Proofs.Kotlin.Scanning
import Fettle.Proofs.Kotlin.Lexing
import Fettle.Proofs.Kotlin.Readable
import Fettle.Proofs.Kotlin.Pieces
import Fettle.Proofs.Kotlin.Legible
import Fettle.Proofs.Kotlin.Reread
import Fettle.Proofs.Rules.Findings
import Fettle.Proofs.Text.Shifted
import Fettle.Proofs.Kotlin.Surroundings
import Fettle.Proofs.Kotlin.Verdicts
import Fettle.Proofs.Kotlin.Reformat
import Fettle.Proofs.Order.Queue
import Fettle.Proofs.Order.Topological
import Fettle.Proofs.Order.Late
import Fettle.Proofs.Text.Returns
import Fettle.Proofs.Rules.LineBreaks
import Fettle.Proofs.Text.Boundaries
import Fettle.Proofs.Engine.Placing
import Fettle.Proofs.Rules.Places
import Fettle.Proofs.Config.Resolving
import Fettle.Proofs.Order.Sorting
import Fettle.Proofs.Engine.Emission
import Fettle.Proofs.Order.Registering
import Fettle.Proofs.Engine.Activity
import Fettle.Proofs.Engine.Isolation
import Fettle.Proofs.Engine.Selection
import Fettle.Proofs.Text.LastLine
import Fettle.Proofs.Rules.Reach
import Fettle.Proofs.Rules.SilentLine
import Fettle.Proofs.Rules.Spared
import Fettle.Proofs.Rules.Orderly
import Fettle.Proofs.Rules.Unfailing
import Fettle.Proofs.Text.Words
import Fettle.Proofs.Rules.Undirected
import Fettle.Proofs.Rules.NormalForm
import Fettle.Proofs.Arena.Reachable
import Fettle.Proofs.Arena.Refusal
import Fettle.Proofs.Arena.Effect
import Fettle.Proofs.Report.Reading
import Fettle.Proofs.Kotlin.Converted
import Fettle.Proofs.Arena.Searching
import Fettle.Proofs.Arena.Offsets
import Fettle.Proofs.Text.InLine
import Fettle.Proofs.Text.PositionIndex
import Fettle.Proofs.Naming.Grammar
import Fettle.Proofs.Order.Cycle
import Fettle.Proofs.Engine.Limit
import Fettle.Proofs.Rules.Effective
import Fettle.Proofs.Naming.Directive
import Fettle.Proofs.Config.Enabling
import Fettle.Proofs.Config.Entries
import Fettle.Proofs.Config.Ordered
import Fettle.Proofs.Text.Bytewise
import Fettle.Proofs.Config.Layering
import Fettle.Proofs.Config.Fingerprint
import Fettle.Proofs.Config.Spelling

import SepiaLang.Main
import SepiaLang.Syntax.Alike
import SepiaLang.Syntax.Walk
import SepiaLang.Value.Same
import SepiaLang.Proofs.Computation
import SepiaLang.Proofs.Occurrence
import SepiaLang.Proofs.Sparing
import SepiaLang.Proofs.SingleExit
import SepiaLang.Proofs.Moments
import SepiaLang.Proofs.Parse.Window
import SepiaLang.Proofs.Parse.Yield
import SepiaLang.Proofs.Parse.Sound
import SepiaLang.Proofs.Parse.Accept
import SepiaLang.Proofs.Numeral
import SepiaLang.Proofs.Parse.Spelling
import SepiaLang.Proofs.Scan.Partition
import SepiaLang.Proofs.Confined
import SepiaLang.Proofs.Discipline
import SepiaLang.Proofs.Scopes.Growth
import SepiaLang.Proofs.Scopes.Reach
import SepiaLang.Proofs.Parse.Built
import SepiaLang.Proofs.WordRange
import SepiaLang.Proofs.SideBySide
import SepiaLang.Proofs.DepthLimit
import SepiaLang.Proofs.Interchange.Codec
import SepiaLang.Proofs.Text.Utf8
import SepiaLang.Proofs.Json.RoundTrip
import SepiaLang.Proofs.Dump
import SepiaLang.Proofs.Scan.Lexes
import SepiaLang.Proofs.Parse.Echo
import SepiaLang.Proofs.Parse.Resume
import SepiaLang.Proofs.Parse.Join
import SepiaLang.Proofs.Pieces
import SepiaLang.Proofs.Parse.Record
import SepiaLang.Proofs.LogLevel
import SepiaLang.Proofs.Parse.Canonical
import SepiaLang.Proofs.Scan.Chunks
import SepiaLang.Proofs.Identity.Coherent
import SepiaLang.Proofs.Identity.Passing
import SepiaLang.Proofs.Identity.Equality
import SepiaLang.Proofs.Renaming
import SepiaLang.Proofs.Unmentioned
import SepiaLang.Proofs.Parse.Related
import SepiaLang.Proofs.Parse.NestingLimit
import SepiaLang.Proofs.Parse.Local
import SepiaLang.Proofs.Parse.Precedence
import SepiaLang.Proofs.Guarded
import SepiaLang.Proofs.Scan.Checked
import SepiaLang.Proofs.RunResult
import SepiaLang.Proofs.Parse.Proper
import SepiaLang.Proofs.Complete
import SepiaLang.Proofs.Parse.Charges
import SepiaLang.Proofs.Parse.Loops
import SepiaLang.Proofs.Parse.Recovery
import SepiaLang.Proofs.Arithmetic
import SepiaLang.Proofs.Dialogue
import SepiaLang.Proofs.Scopes.Chains
import SepiaLang.Proofs.Assignment
import SepiaLang.Proofs.Entries
import SepiaLang.Proofs.MapLiteral
import SepiaLang.Proofs.Parse.Refuse
import SepiaLang.Proofs.ReadBack
import SepiaLang.Proofs.Comments
import SepiaLang.Proofs.Scan.Ending
import SepiaLang.Proofs.Parse.Unclosed
import SepiaLang.Proofs.Parse.Shows
import SepiaLang.Proofs.FunctionText
import SepiaLang.Proofs.Scan.Spacing
import SepiaLang.Proofs.Parse.Outline
import SepiaLang.Proofs.Interchange.Failures
import SepiaLang.Proofs.Parse.Closing
import SepiaLang.Proofs.Waiting
import SepiaLang.Proofs.Scan.Calls

import Descent.Main
import Descent.Proofs.Offset
import Descent.Proofs.Loop.Greedy
import Descent.Proofs.Loop.Interleave
import Descent.Proofs.Lazy.Sticky
import Descent.Proofs.Account.Raised
import Descent.Proofs.Lazy.Carried
import Descent.Proofs.Progress.Grammar
import Descent.Proofs.Bracket.Nested
import Descent.Proofs.Quoted.Spelled
import Descent.Proofs.Markup.Content
import Descent.Proofs.Markup.Span
import Descent.Proofs.Markup.Order
import Descent.Proofs.Inside
import Descent.Proofs.Merge.Monoid
import Descent.Proofs.Loop.Additive
import Descent.Proofs.Loop.Tagged
import Descent.Proofs.Loop.Strict
import Descent.Proofs.Trace.Nested
import Descent.Proofs.Choice.FirstMatch

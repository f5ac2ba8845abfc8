import Lox.Main
import Lox.Syntax.Outline
import Lox.Proofs.Grammar.Accepted
import Lox.Proofs.Syntax.RoundTrip
import Lox.Proofs.Run.ForLoop
import Lox.Proofs.Run.ContextFree
import Lox.Proofs.Session.Lexical
import Lox.Proofs.Session.Joined
import Lox.Proofs.Session.Sound
import Lox.Proofs.Run.Declares
import Lox.Proofs.Run.Defined
import Lox.Proofs.Session.Unlined
import Lox.Proofs.Source.LongestMatch
import Lox.Proofs.Run.Message
import Lox.Proofs.CommandLine.ExitStatus
import Lox.Proofs.Source.Place
import Lox.Proofs.Syntax.Pointed
import Lox.Proofs.Session.Pointed
import Lox.Proofs.Number.Shortest
import Lox.Proofs.Number.Plain
import Lox.Proofs.Number.Distinct
import Lox.Proofs.Syntax.Rendered
import Lox.Proofs.Source.Legible
import Lox.Proofs.Syntax.Distinguished
import Lox.Proofs.Session.Chained
import Lox.Proofs.CommandLine.LineByLine
import Lox.Proofs.Syntax.Unended
import Lox.Proofs.Source.Layout
import Lox.Proofs.Source.Extent
import Lox.Proofs.Grammar.Tolerated
import Lox.Proofs.Syntax.Contained
import Lox.Proofs.Run.Shared
import Lox.Proofs.Source.Stray
import Lox.Proofs.Source.LineEnd
import Lox.Proofs.Value.Exchanged
import Lox.Proofs.Run.Exchanged
import Lox.Proofs.Session.Exchanged
import Lox.Proofs.Number.Rounding
import Lox.Proofs.Number.Fewest
import Lox.Proofs.Number.Bits
import Lox.Proofs.Source.Shown
import Lox.Proofs.Session.Printed

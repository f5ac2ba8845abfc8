import Lox.Proofs.Grammar.SettledStatement
import Lox.Proofs.Syntax.Declared

namespace Lox.Grammar

open Syntax

end Lox.Grammar

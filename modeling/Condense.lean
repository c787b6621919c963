import Condense.Settings.Stored
import Condense.Proofs.Expression.Sequence
import Condense.Proofs.Json.Key
import Condense.Proofs.Json.Literal
import Condense.Proofs.Minify.BuiltIns
import Condense.Proofs.Minify.Combination
import Condense.Proofs.Minify.Sums
import Condense.Proofs.Output.Chunks
import Condense.Proofs.Output.Mappings
import Condense.Proofs.Rename.Capture
import Condense.Proofs.Rename.Idempotence
import Condense.Proofs.Scope.Lookup
import Condense.Proofs.Scope.Reshaping
import Condense.Proofs.Scoping.Standing
import Condense.Proofs.Settings.Substitution
import Condense.Proofs.Settings.Validity
import Condense.Proofs.Statement.RoundTrip
import Condense.Proofs.Syntax.Equivalence
import Condense.Proofs.Syntax.StatementLists
import Condense.Proofs.Token.Numeral
import Condense.Proofs.Token.Quotation

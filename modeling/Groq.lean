import Groq.Main
import Groq.Proofs.Bytes.Delimiters
import Groq.Proofs.Bytes.Parser
import Groq.Proofs.Context.Lookup
import Groq.Proofs.Dataset.RoundTrip
import Groq.Proofs.Eval.Constant
import Groq.Proofs.Eval.Filtering
import Groq.Proofs.Eval.Finite
import Groq.Proofs.Eval.Grouping
import Groq.Proofs.Eval.Instants
import Groq.Proofs.Eval.Limits
import Groq.Proofs.Eval.Literals
import Groq.Proofs.Eval.Reads
import Groq.Proofs.Eval.References
import Groq.Proofs.Eval.Scoping
import Groq.Proofs.Eval.Slicing
import Groq.Proofs.Eval.Sorting
import Groq.Proofs.Eval.Unknown
import Groq.Proofs.Query.Brackets
import Groq.Proofs.Query.Kept
import Groq.Proofs.Query.Layout
import Groq.Proofs.Query.Limits
import Groq.Proofs.Query.Precedence
import Groq.Proofs.Query.Quoting
import Groq.Proofs.Query.Reuse
import Groq.Proofs.Query.Signs
import Groq.Proofs.Query.Stability
import Groq.Proofs.Query.WellFormed
import Groq.Proofs.Scope.Frames
import Groq.Proofs.Value.Difference
import Groq.Proofs.Value.Equality
import Groq.Proofs.Value.Matching
import Groq.Proofs.Value.Renderings
import Groq.Proofs.Value.Splitting
import Groq.Proofs.Value.Unique

import Clojurust.Datalog.Triples
import Clojurust.Ir.Rebind
import Clojurust.Bencode.Completion
import Clojurust.Transaction.Depth
import Clojurust.Value.OnceCell
import Clojurust.Value.Queue
import Clojurust.Channel.Linearize
import Clojurust.Future.Settle
import Clojurust.Net.LengthPrefix
import Clojurust.Gas.Exact
import Clojurust.Transit.RoundTrip
import Clojurust.Clone.Faithful
import Clojurust.Compiler.Bridges
import Clojurust.Compiler.InlineCache
import Clojurust.Ir.Agreement
import Clojurust.Ir.Resolution
import Clojurust.Builtins.SortedHistory
import Clojurust.Builtins.AnonFn
import Clojurust.Builtins.Csv
import Clojurust.Multimethod.Dispatch
import Clojurust.Atom.Validator
import Clojurust.Agents.Serial
import Clojurust.Region.Bump
import Clojurust.Region.Poison
import Clojurust.Loader.Once
import Clojurust.Project.TaskOrder

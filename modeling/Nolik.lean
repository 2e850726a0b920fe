import Nolik.NonceReuse
import Nolik.Integrity
import Nolik.Verify
import Nolik.Aborts
import Nolik.Forks
import Nolik.Delivery
import Nolik.Acceptance
import Nolik.Opening
import Nolik.Derive
import Nolik.JsWasm
import Nolik.FrontEnds
import Nolik.JsArguments
import Nolik.JsMessages
import Nolik.Ffi
import Nolik.Cli
import Nolik.Macro
import Nolik.Runs
import Nolik.Convergence
import Nolik.Agreement
import Nolik.Wire
import Nolik.Library.Hex
import Nolik.Session
import Nolik.FfiMetadata
import Nolik.FfiMemory
import Nolik.JsSession
import Nolik.Clients

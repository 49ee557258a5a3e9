import Wires.Impl.Mcp
import Wires.Impl.StoredView

/-!
# The tool list that follows the view

`mcp_cmd` and `serve_following` of `wires/caller/mcp.rs`: a poll asks for the
view again and sends each new one on a channel, a mapper sends its services on
another, and the server takes them from there between its messages. A `watch`
channel holds the last value sent, and how many were; who reads it has seen so
many. Each of the three goes at its own pace. The channels live as long as the
server.
-/

namespace Wires

/-- A `watch` channel: the last value, and how many were sent. -/
structure Watched (α : Type) where
  value : α
  version : Nat

/-- `Sender::send` and `send_replace`. -/
def Watched.send {α : Type} (w : Watched α) (value : α) : Watched α := ⟨value, w.version + 1⟩

variable [Crypto]

/-- What `wires mcp` keeps: the poll's view, the two channels and how much of each was read, the
server, and how often it told its client that the list changed. -/
structure Following (root : NodeId) where
  held : Option (HeldView root)
  views : Watched (Option (HeldView root))
  mapped : Nat
  tools : Watched (List ViewService)
  seen : Nat
  server : McpServer
  notes : Nat

/-- What happens next. -/
inductive FollowingEvent where
  /-- A round of `poll`; `file` is what stands at `view.json`. -/
  | round (file : ViewFile) (o : Outside)
  /-- The mapper sees that the view changed. -/
  | maps
  /-- `serve_following` sees that the services changed. -/
  | follows
  /-- `serve_following` reads a line. -/
  | line (line : String)

namespace Following

variable {root : NodeId}

/-- `mcp_cmd`, once it has a usable view or none. -/
def start (initial : Option (HeldView root)) : Following root :=
  let services := (initial.map fun h => servicesIn h.view).getD []
  { held := initial
    views := ⟨initial, 0⟩
    mapped := 0
    tools := ⟨services, 0⟩
    seen := 0
    server := (McpServer.new services).withListChanged
    notes := 0 }

variable [Web] [Jaq]

/-- One step. -/
def step (s : Following root) : FollowingEvent → Option (Following root)
  | .round file o =>
    match ((polling s.held true o).alone file).2 with
    | some next => some { s with held := some next, views := s.views.send (some next) }
    | none => some s
  | .maps =>
    if s.mapped = s.views.version then none
    else
      let s := { s with mapped := s.views.version }
      match s.views.value with
      | some held => some { s with tools := s.tools.send (servicesIn held.view) }
      | none => some s
  | .follows =>
    if s.seen = s.tools.version then none
    else
      let (server, changed) := s.server.setServices s.tools.value
      some { s with
        seen := s.tools.version
        server
        notes := if changed then s.notes + 1 else s.notes }
  | .line line => some { s with server := (s.server.handleLine line).1 }

end Following

end Wires

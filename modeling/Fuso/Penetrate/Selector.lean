import Fuso.Async.Copy
import Fuso.Guard.Fallback
import Fuso.Socks.Handshake

/-!
# The adapter chain

How `async_penetrate_handle` treats a visitor: it marks the stream, lets the adapters of the
selector look at it one after the other, and hands it over with what they have looked at written to
the other side first. `Visit.step` is one turn of this future; `dst` is the data connection that the
client answers the mapping with. What can only end the task without a route (the timeout, a client
that does not answer) is left out.
-/

namespace Fuso
open Turn

structure Config where
  enableSocks : Bool
  enableSocksUdp : Bool
  socks5Username : Option Bytes
  socks5Password : Option Bytes
  whoami : Bytes

/-- `get_auth!`. -/
def Config.getAuth (cfg : Config) : S5Authenticate :=
  match cfg.socks5Password, cfg.socks5Username with
  | some pwd, some username => .newStandard username pwd
  | some pwd, none => .newStandard cfg.whoami pwd
  | _, _ => .newSkip

inductive Adapter where
  | simpleSocksMock
  | socksMock
  | directMock
  deriving DecidableEq

/-- The message of `finish_udp_forward`. -/
def finishUdpForward : Bytes := [0x05, 0x02, 0x00, 0x01, 0x00, 0x00, 0x00, 0x00, 0x00, 0x00]

/-- How a visit ends: with the visitor and the data connection to be joined, with the visitor's
stream to be closed, or with a udp forwarding service. -/
inductive Visited where
  | route (adapter : Adapter) (src dst : Duplex)
  | close (visitor : Duplex)
  | provider (visitor : Duplex)

/-- Where control is in a visit: in the loop over the adapters, in a handshake, in
`finish_udp_forward`, behind the answer of the client, or in the `write_all` to it. -/
inductive Visit where
  | select (adapters : List Adapter) (fallback : Fallback Duplex)
  | handshake (adapter : Adapter) (adapters : List Adapter)
      (socks : Socks5.Pc × Socks5 (Fallback Duplex))
  | finishUdp (writeAll : (Bytes × Nat) × Fallback Duplex)
  | mapped (adapter : Adapter) (src : Fallback Duplex)
  | copy (adapter : Adapter) (src : Fallback Duplex) (writeAll : (Bytes × Nat) × Duplex)

namespace Visit

def start (visitor : Duplex) (adapters : List Adapter) : Visit :=
  .select adapters (Fallback.new visitor false).mark

section
variable (oc : Bool) (cfg : Config) (dst : Duplex)

/-- `SimpleSocksMock::call` and `SocksMock::call` behind the handshake. -/
def onSocket (adapter : Adapter) (socket : Socket) (stream : Fallback Duplex) :
    Turn Visit (Exit Visited) :=
  let stream := stream.consumeBackData
  match socket.kind with
  | .tcp => .again (.mapped adapter stream)
  | .udp =>
    if adapter = .socksMock ∧ cfg.enableSocksUdp then
      .ready (.mapped adapter stream) (.ret (.ok (.provider stream.intoInner)))
    else .again (.finishUdp ((finishUdpForward, 0), stream))
  | _ => .ready (.mapped adapter stream) .undefined

def step : Visit → Turn Visit (Exit Visited)
  | .select [] fallback => .ready (.select [] fallback) (.ret (.ok (.close fallback.intoInner)))
  | .select (adapter :: adapters) fallback =>
    let fallback := fallback.mark
    if adapter = .directMock then .again (.mapped adapter fallback)
    else if cfg.enableSocks then
      .again (.handshake adapter adapters (.select, Socks5.new cfg.getAuth fallback))
    else .again (.select adapters fallback.backward)
  | .handshake adapter adapters socks =>
    match Socks5.step oc socks with
    | .again socks => .again (.handshake adapter adapters socks)
    | .pending socks => .pending (.handshake adapter adapters socks)
    | .ready socks (.ret (.ok socket)) => onSocket cfg adapter socket socks.2.stream
    | .ready socks (.ret (.error e)) =>
      if e.isSocksError then .again (.select adapters socks.2.stream.backward)
      else .ready (.handshake adapter adapters socks) (.ret (.error e))
    | .ready socks .panic => .ready (.handshake adapter adapters socks) .panic
    | .ready socks .undefined => .ready (.handshake adapter adapters socks) .undefined
  | .finishUdp writeAll =>
    match WriteAll.step writeAll with
    | .again writeAll => .again (.finishUdp writeAll)
    | .pending writeAll => .pending (.finishUdp writeAll)
    | .ready writeAll (.ok ()) =>
      .ready (.finishUdp writeAll) (.ret (.ok (.close writeAll.2.intoInner)))
    | .ready writeAll (.error e) => .ready (.finishUdp writeAll) (.ret (.error e))
  | .mapped adapter src =>
    match src.backward.backData with
    | (src, none) => .ready (.mapped adapter src) (.ret (.ok (.route adapter src.intoInner dst)))
    | (src, some data) => .again (.copy adapter src ((data, 0), dst))
  | .copy adapter src writeAll =>
    match WriteAll.step writeAll with
    | .again writeAll => .again (.copy adapter src writeAll)
    | .pending writeAll => .pending (.copy adapter src writeAll)
    | .ready writeAll (.ok ()) =>
      .ready (.copy adapter src writeAll) (.ret (.ok (.route adapter src.intoInner writeAll.2)))
    | .ready writeAll (.error e) => .ready (.copy adapter src writeAll) (.ret (.error e))

end
end Visit
end Fuso

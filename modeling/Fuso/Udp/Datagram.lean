import Fuso.Udp.Session
import Mathlib.Logic.Function.Basic

/-!
# `Datagram`

One UDP socket for many virtual ones. A task receives the datagrams and puts each into the session
of its sender.
-/

namespace Fuso.Udp

/-- The sessions under the hashes of the addresses, and whether the receiver task still runs. -/
structure Datagram where
  udpSessions : UInt64 → Option Session
  receiving : Bool

namespace Datagram

def new : Datagram := ⟨fun _ => none, true⟩

/-- What a `recv_from` of the task is over with. -/
inductive Recv (A E : Type) where
  | received (addr : A) (data : Bytes)
  | failed (e : E)

inductive Event (A E : Type) where
  | recv (r : Recv A E)
  | connect (addr : A)
  /-- A virtual socket is dropped. -/
  | remove (id : UInt64)
  /-- A virtual socket uses its session. -/
  | use (id : UInt64) (f : Session → Session)

variable {A E : Type} (hash : A → UInt64) (d : Datagram)

/-- The receive buffer holds 1500 bytes. -/
def recv : Recv A E → Datagram
  | .received addr data =>
    if d.receiving then
      let id := hash addr
      match d.udpSessions id with
      | some session =>
        let session := (session.input (data.take 1500)).1
        { d with udpSessions := Function.update d.udpSessions id (some session) }
      | none => d
    else d
  | .failed _ => { d with receiving := false }

def step : Event A E → Datagram → Datagram
  | .recv r, d => d.recv hash r
  | .connect addr, d =>
    { d with udpSessions := Function.update d.udpSessions (hash addr) (some .new) }
  | .remove id, d => { d with udpSessions := Function.update d.udpSessions id none }
  | .use id f, d =>
    { d with udpSessions := Function.update d.udpSessions id ((d.udpSessions id).map f) }

end Datagram
end Fuso.Udp

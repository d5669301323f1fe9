import Fuso.Kcp.Messages
import Fuso.Kcp.Receive
import Fuso.Kcp.Wakers

/-!
# The end of a conversation

One endpoint writes messages and closes. Its packets, and at last the one that closes the
conversation, arrive at the peer in any order and any number of times, while the peer reads.
-/

namespace Fuso.Kcp
open ThirdParty

/-- A segment that carries no data. -/
inductive Control where
  | ack
  | wask
  | wins

def Control.cmd : Control → UInt8
  | ack => cmdAck
  | wask => cmdWask
  | wins => cmdWins

theorem Control.cmd_cases (c : Control) : c.cmd = cmdAck ∨ c.cmd = cmdWask ∨ c.cmd = cmdWins := by
  cases c with
  | ack => exact .inl rfl
  | wask => exact .inr (.inl rfl)
  | wins => exact .inr (.inr rfl)

/-- A segment of a packet of the endpoint: its segment with the number `i`, or no data. -/
inductive Packet where
  | push (i : Nat) (wnd : UInt16) (ts una : UInt32)
  | control (c : Control) (wnd : UInt16) (ts sn una : UInt32)

/-- The number of the data. -/
def Packet.number? : Packet → Option Nat
  | push i _ _ _ => some i
  | control .. => none

section
variable (conv : UInt32) (segs : List KcpSegment)

def Packet.segment : Packet → KcpSegment
  | push i wnd ts una =>
    let seg := segs.getD i {}
    { conv, cmd := cmdPush, frg := seg.frg, wnd, ts, sn := .ofNat i, una, data := seg.data }
  | control c wnd ts sn una => { conv, cmd := c.cmd, wnd, ts, sn, una }

def datagram (packets : List Packet) : Bytes :=
  (packets.map (·.segment conv segs)).flatMap (·.encode)

/-- The first packet of an endpoint that has written two messages. -/
example :
    ((((KcpCore.new 7 0).pollWrite 0 [1]).1.pollWrite 0 [2]).1.updating ⟨20, 20, []⟩).1.written =
      [datagram 7 (segments [[1], [2]]) [.push 0 1024 20 0, .push 1 1024 20 0]] := by
  decide +kernel

/-- The peer's session, and what its stream has read. The peer does not close its stream. -/
structure Transfer where
  session : Running
  /-- The number of segments that were put into the receive queue: `rcv_nxt` without a limit. -/
  nxt : Nat
  delivered : Bytes
  /-- A read has reported `ConnectionReset`. -/
  reset : Bool
  /-- A read has reported `ConnectionReset` or the end of the stream, while there were bytes that
  had been acknowledged and not read. -/
  early : Bool

namespace Transfer

abbrev core (t : Transfer) : KcpCore := t.session.update.kcore

def new : Transfer := ⟨.start conv 0, 0, [], false, false⟩

inductive Event where
  | read (cx : Waker) (cap : Nat)
  | write (cx : Waker) (data : Bytes)
  | poll (tick : Option Tick)
  /-- The clean-up behind the update task. -/
  | clean (clock : Nat)
  | arrive (packets : List Packet)
  | cls

def Event.running : Event → Running.Event
  | .read cx cap => .read cx cap
  | .write cx data => .write cx data
  | .poll tick => .poll tick
  | .clean clock => .close clock
  | .arrive packets => .input (datagram conv segs packets)
  | .cls => .input (KcpSegment.encode { conv, cmd := cmdCls })

def isReset : Poll (KcpResult Nat) → Bool
  | .ready (.error .connectionReset) => true
  | _ => false

/-- A read into a buffer of the size `cap` reports the end of the stream. -/
def isEof (cap : Nat) : Poll (KcpResult Nat) → Bool
  | .ready (.ok 0) => 0 < cap
  | _ => false

/-- A read is over. -/
def report (t : Transfer) (cap : Nat) : KcpCore × ReadBuf × Poll (KcpResult Nat) → Transfer
  | (c, buf, r) => { t with
    delivered := t.delivered ++ buf.filled
    reset := t.reset || isReset r
    early := t.early || (isReset r || isEof cap r) && c.kbuf.contents ++ c.kcp.pending != [] }

/-- What a step does to the session. -/
def advance (t : Transfer) (session : Running) : Transfer := { t with
  session
  nxt := t.nxt + (session.update.kcore.kcp.rcvNxt - t.core.kcp.rcvNxt).toNat }

def step (e : Event) (t : Transfer) : Transfer :=
  let t' := t.advance (Running.step (e.running conv segs) t.session)
  match e with
  | .read cx cap => t'.report cap (t.core.pollRead cx (.new cap))
  | _ => t'

/-- The peer has received the segment with the number `i`, and so has acknowledged it. -/
def Received (t : Transfer) (i : Nat) : Prop :=
  i < t.nxt ∨ ∃ s ∈ t.core.kcp.rcvBuf, t.nxt + offset t.nxt s.sn = i

/-- The endpoint sends segments of its own only, in datagrams that the peer's buffer has room for,
and closes the conversation when all of them are acknowledged. -/
def Legal : Event → Transfer → Prop
  | .arrive packets, _ => (datagram conv segs packets).length ≤ bufLen ∧
      ∀ p ∈ packets, ∀ i ∈ p.number?, i < segs.length
  | .cls, t => ∀ i < segs.length, t.Received i
  | .clean _, t => t.session.ended.isSome
  | .read .., _ | .write .., _ | .poll _, _ => True

/-- A number is not taken for another one of the window. -/
def Near (nxt i : Nat) : Prop :=
  ((i : Int) - nxt) % 2 ^ 32 < 2 ^ 16 → nxt ≤ i ∧ i < nxt + 2 ^ 16

/-- The conversation is closed when the peer has read what it received, no read returns an empty
message while there is more, and the peer's side does not fail before. -/
def Drained : Event → Transfer → Prop
  | .cls, t => t.core.kcp.pending = []
  | .read _ cap, t => t.core.kbuf.contents = [] → t.core.kcp.closeState = .no →
      t.core.kcp.peeksize = .ok 0 → 0 < cap → t.core.kcp.pending = []
  | .arrive packets, t => ∀ p ∈ packets, ∀ i ∈ p.number?, Near t.nxt i
  | .poll tick, t => ∀ tick' ∈ Running.tick? (.poll tick) t.session, (Kcp.update tick'.current
      tick'.clock (t.core.kcp, ⟨tick'.results, []⟩)).2.1.isDeadLink = false
  | .clean _, t => t.core.kcp.closeState ≠ .no
  | .write .., _ => True

/-- The reads returned the bytes of `data` in order, and reported the end behind the last one. -/
def Kept (data : Bytes) (t : Transfer) : Prop :=
  t.delivered <+: data ∧ (t.reset → t.delivered = data) ∧ t.early = false

instance : ∀ e t, Decidable (Legal conv segs e t)
  | .arrive packets, _ => inferInstanceAs (Decidable ((datagram conv segs packets).length ≤ bufLen ∧
      ∀ p ∈ packets, ∀ i ∈ p.number?, i < segs.length))
  | .cls, t => inferInstanceAs (Decidable (∀ i < segs.length, i < t.nxt ∨
      ∃ s ∈ t.core.kcp.rcvBuf, t.nxt + offset t.nxt s.sn = i))
  | .clean _, t => inferInstanceAs (Decidable (t.session.ended.isSome = true))
  | .read .., _ | .write .., _ | .poll _, _ => isTrue trivial

instance (nxt i : Nat) : Decidable (Near nxt i) := inferInstanceAs (Decidable (_ → _ ∧ _))

instance : ∀ e t, Decidable (Drained e t)
  | .arrive packets, t => inferInstanceAs (Decidable (∀ p ∈ packets, ∀ i ∈ p.number?, Near t.nxt i))
  | .cls, t => inferInstanceAs (Decidable (t.core.kcp.pending = []))
  | .read _ cap, t => inferInstanceAs (Decidable (t.core.kbuf.contents = [] →
      t.core.kcp.closeState = .no → t.core.kcp.peeksize = .ok 0 → 0 < cap →
        t.core.kcp.pending = []))
  | .poll tick, t => inferInstanceAs (Decidable (∀ tick' ∈ Running.tick? (.poll tick) t.session,
      (Kcp.update tick'.current tick'.clock
        (t.core.kcp, ⟨tick'.results, []⟩)).2.1.isDeadLink = false))
  | .clean _, t => inferInstanceAs (Decidable (t.core.kcp.closeState ≠ .no))
  | .write .., _ => isTrue trivial

instance : Decidable (Kept data t) := inferInstanceAs (Decidable (_ ∧ _ ∧ _))

end Transfer
end
end Fuso.Kcp

import Fuso.Guard.Buffer

/-!
# Virtual UDP sockets

The sockets that `Datagram` hands out share one real socket. A `Session` keeps what has arrived for
one of them in the buffer of a stream, and `poll_recv` takes as much out of it as the caller has
room for.
-/

namespace Fuso.Udp

/-- A task that waits. -/
abbrev Waker := Nat

structure Session where
  ubuf : Buffer UInt8
  uwaker : Option Waker

namespace Session

def new : Session := ⟨.new, none⟩

/-- A datagram arrives, and a task that waits is woken. -/
def input (s : Session) (data : Bytes) : Session × Option Waker :=
  (⟨s.ubuf.pushAll data, none⟩, s.uwaker)

def pollRecv (s : Session) (cx : Waker) (buf : ReadBuf) : Session × ReadBuf × Poll (Result Unit) :=
  if s.ubuf.isEmpty then ({ s with uwaker := some cx }, buf, .pending)
  else
    let (data, ubuf) := s.ubuf.readToBuffer buf.remaining
    ({ s with ubuf }, buf.put data, .ready (.ok ()))

/-- With nothing in the buffer the task waits, else it gets what is there. -/
theorem pollRecv_cases (s : Session) (cx : Waker) (cap : Nat) :
    (s.ubuf.contents = [] ∧
      s.pollRecv cx (.new cap) = ({ s with uwaker := some cx }, .new cap, .pending)) ∨
    s.ubuf.contents ≠ [] ∧ ∃ s' buf, s.pollRecv cx (.new cap) = (s', buf, .ready (.ok ())) ∧
      buf.filled = s.ubuf.contents.take cap ∧ s'.ubuf.contents = s.ubuf.contents.drop cap := by
  cases h : s.ubuf.isEmpty with
  | true => exact .inl ⟨s.ubuf.isEmpty_iff.1 h, by simp only [pollRecv, h, if_true]⟩
  | false =>
    refine .inr ⟨fun hnil => ?_, { s with ubuf := (s.ubuf.readToBuffer cap).2 },
      (ReadBuf.new cap).put (s.ubuf.contents.take cap), ?_, ?_, s.ubuf.contents_readToBuffer cap⟩
    · rw [s.ubuf.isEmpty_iff.2 hnil] at h
      cases h
    · simp only [pollRecv, h, Bool.false_eq_true, if_false, ReadBuf.remaining_new,
        Buffer.readToBuffer_fst]
    · exact ReadBuf.filled_put (List.length_take_le _ _)

end Session

structure VirtualUdpSocket (A : Type) where
  ucore : Session
  peerAddr : A

namespace VirtualUdpSocket
variable {A : Type} (u : VirtualUdpSocket A) (cx : Waker) (buf : ReadBuf)

def pollRecv : VirtualUdpSocket A × ReadBuf × Poll (Result Unit) :=
  let (ucore, buf, r) := u.ucore.pollRecv cx buf
  ({ u with ucore }, buf, r)

def pollRecvFrom : VirtualUdpSocket A × ReadBuf × Poll (Result A) :=
  match u.ucore.pollRecv cx buf with
  | (ucore, buf, .pending) => ({ u with ucore }, buf, .pending)
  | (ucore, buf, .ready (.ok ())) => ({ u with ucore }, buf, .ready (.ok u.peerAddr))
  | (ucore, buf, .ready (.error e)) => ({ u with ucore }, buf, .ready (.error e))

end VirtualUdpSocket
end Fuso.Udp

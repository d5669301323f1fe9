import Fuso.Guard.Buffer
import Fuso.Kcp.Update

/-!
# The core of a KCP session

`KcpCore` has the control block and the tasks that wait for it. A stream reads and writes through
it, the receive loops put datagrams into it (`Session.input`), and the task of `KcpUpdate` drives
it.
-/

namespace Fuso.Kcp
open ThirdParty

/-- A task that waits. -/
abbrev Waker := Nat

structure KcpCore where
  kcp : ThirdParty.Kcp
  /-- The rest of a message that did not fit into the buffer of its reader. -/
  kbuf : Buffer UInt8
  readWaker : Option Waker
  writeWaker : Option Waker
  closeWaker : Option Waker
  /-- The packets that were written to the socket. -/
  written : List Bytes

/-- `Session::new`. -/
def KcpCore.new (conv : UInt32) (clock : Nat) : KcpCore where
  kcp :=
    let kcp := (Kcp.new conv clock).setWndsize 1024 1024
    (kcp.setNodelay true 20 2 true).setMaximumResendTimes 10
  kbuf := .new
  readWaker := none
  writeWaker := none
  closeWaker := none
  written := []

namespace KcpCore
variable (c : KcpCore)

def pollWrite (cx : Waker) (data : Bytes) : KcpCore × Poll (KcpResult Nat) :=
  match c.kcp.send data with
  | (kcp, .ok n) => ({ c with kcp }, .ready (.ok n))
  | (kcp, .error .userBufTooBig) => ({ c with kcp, writeWaker := some cx }, .pending)
  | (kcp, .error e) => ({ c with kcp }, .ready (.error e))

def pollClose (cx : Waker) (clock : Nat) : KcpCore × Poll (KcpResult Unit) :=
  if 0 < c.kcp.waitSnd then ({ c with closeWaker := some cx }, .pending)
  else ({ c with kcp := c.kcp.forceClose clock }, .ready (.ok ()))

/-- A message that is longer than the buffer: the buffer is filled, and `kbuf` keeps the rest. -/
def readPart (buf : ReadBuf) : KcpCore × ReadBuf × Poll (KcpResult Nat) :=
  match c.kcp.peeksize with
  | .error e => (c, buf, .ready (.error e))
  | .ok size =>
    match c.kcp.recv size with
    | (kcp, .error e) => ({ c with kcp }, buf, .ready (.error e))
    | (kcp, .ok data) =>
      ({ c with kcp, kbuf := c.kbuf.pushBack (data.drop buf.remaining) },
        buf.put (data.take buf.remaining), .ready (.ok buf.remaining))

def pollRead (cx : Waker) (buf : ReadBuf) : KcpCore × ReadBuf × Poll (KcpResult Nat) :=
  if !c.kbuf.isEmpty then
    let (data, kbuf) := c.kbuf.readToBuffer buf.remaining
    ({ c with kbuf }, buf.put data, .ready (.ok data.length))
  else match c.kcp.recv buf.remaining with
  | (kcp, .ok data) => ({ c with kcp }, buf.put data, .ready (.ok data.length))
  | (kcp, .error .recvQueueEmpty) | (kcp, .error .expectingFragment) =>
    ({ c with kcp, readWaker := some cx }, buf, .pending)
  | (kcp, .error .userBufTooSmall) => { c with kcp }.readPart buf
  | (kcp, .error e) => ({ c with kcp }, buf, .ready (.error e))

/-- `try_wake_read` when `p` holds. -/
def wakeReadIf (p : Bool) : KcpCore := if p then { c with readWaker := none } else c

def wakeWriteIf (p : Bool) : KcpCore := if p then { c with writeWaker := none } else c

def wakeCloseIf (p : Bool) : KcpCore := if p then { c with closeWaker := none } else c

/-- All tasks that wait are woken. -/
def wakeAll : KcpCore := { c with closeWaker := none, writeWaker := none, readWaker := none }

section
variable (p : Bool)

@[simp] theorem kcp_wakeReadIf : (c.wakeReadIf p).kcp = c.kcp := by
  cases p <;> rfl

@[simp] theorem kcp_wakeWriteIf : (c.wakeWriteIf p).kcp = c.kcp := by
  cases p <;> rfl

@[simp] theorem kcp_wakeCloseIf : (c.wakeCloseIf p).kcp = c.kcp := by
  cases p <;> rfl

@[simp] theorem written_wakeReadIf : (c.wakeReadIf p).written = c.written := by
  cases p <;> rfl

@[simp] theorem written_wakeWriteIf : (c.wakeWriteIf p).written = c.written := by
  cases p <;> rfl

@[simp] theorem written_wakeCloseIf : (c.wakeCloseIf p).written = c.written := by
  cases p <;> rfl

@[simp] theorem kbuf_wakeReadIf : (c.wakeReadIf p).kbuf = c.kbuf := by
  cases p <;> rfl

@[simp] theorem kbuf_wakeWriteIf : (c.wakeWriteIf p).kbuf = c.kbuf := by
  cases p <;> rfl

@[simp] theorem kbuf_wakeCloseIf : (c.wakeCloseIf p).kbuf = c.kbuf := by
  cases p <;> rfl

end

/-- There is a whole message. -/
def readable : Bool := c.kcp.peeksize.isOk

end KcpCore

/-! ## Datagrams -/

namespace Session

/-- The loop of `Session::input`. What is left behind a turn is too short for another one, so the
number of bytes is enough for `fuel`. -/
def inputLoop (data : Bytes) : Nat → KcpCore → Bytes → KcpCore × KcpResult Unit
  | 0, c, _ => (c, .ok ())
  | fuel + 1, c, next =>
    if overhead ≤ next.length then
      match c.kcp.input next with
      | (kcp, .error e) => ({ c with kcp }, .error e)
      | (kcp, .ok n) => inputLoop data fuel { c with kcp } (data.drop n)
    else (c, .ok ())

def input (c : KcpCore) (data : Bytes) : KcpCore × KcpResult Unit :=
  match inputLoop data data.length c data with
  | (c, .error e) => (c, .error e)
  | (c, .ok ()) => ((c.wakeReadIf c.readable).wakeWriteIf (0 < c.kcp.waitSnd), .ok ())

/-- `force_close` and `safe_close`. -/
def close (c : KcpCore) (clock : Nat) : KcpCore × KcpResult Unit :=
  let (kcp, r) := c.kcp.close clock
  ({ c with kcp }, r)

end Session

/-! ## The update task -/

/-- What an update meets: the two clocks, and how its writes end. -/
structure Tick where
  current : UInt32
  clock : Nat
  results : List (KcpResult Unit)

/-- What the future that updates does behind `Kcp::update`. -/
def KcpCore.updated (c : KcpCore) (clock : Nat) : KcpCore × KcpResult Unit :=
  let c := c.wakeReadIf c.readable
  let c := c.wakeWriteIf (c.kcp.waitSnd < wndRcv)
  let c := c.wakeCloseIf (c.kcp.waitSnd = 0)
  if c.kcp.isDeadLink then
    ({ c with kcp := c.kcp.forceClose clock }.wakeAll, .error (.ioError .timedOut))
  else (c, .ok ())

/-- The future that updates. It has the lock of the core from its start to its end, also while a
write is pending, so nothing else happens meanwhile. -/
def KcpCore.updating (c : KcpCore) (t : Tick) : KcpCore × KcpResult Unit :=
  match Kcp.update t.current t.clock (c.kcp, ⟨t.results, []⟩) with
  | (.error e, kcp, out) => ({ c with kcp, written := c.written ++ out.written }, .error e)
  | (.ok (), kcp, out) =>
    KcpCore.updated { c with kcp, written := c.written ++ out.written } t.clock

/-- The future of the update task. It sleeps when its state is `WaitUpdate`. -/
structure KcpUpdate where
  kcore : KcpCore
  sleeping : Bool

namespace KcpUpdate

/-- The start of a turn of the loop: a closed session is the end, else the task sleeps. -/
def sleep (c : KcpCore) : KcpUpdate × Poll (KcpResult Unit) :=
  if c.kcp.closed then (⟨c.wakeAll, false⟩, .ready (.error .connectionReset))
  else (⟨c, true⟩, .pending)

/-- A poll. The sleep is over when there is a tick; one that is over as soon as it starts is over at
the poll that follows. -/
def poll (u : KcpUpdate) (tick : Option Tick) : KcpUpdate × Poll (KcpResult Unit) :=
  if !u.sleeping then sleep u.kcore
  else match tick with
  | none => (u, .pending)
  | some t =>
    match u.kcore.updating t with
    | (c, .error e) => (⟨c, false⟩, .ready (.error e))
    | (c, .ok ()) => sleep c

end KcpUpdate
end Fuso.Kcp

import Fuso.Kcp.Segment
import Fuso.Kcp.Sessions

/-!
# The receive loops of KCP

`KcpListener` drives the loop of `run_accept` by its `poll_accept`, `KcpConnector` has the one of
`run_connect` in a task. Both hand every datagram to the session of its conversation, and answer
with a forced close when there is none or a dead one. What a session does is a parameter.
-/

namespace Fuso.Kcp
open ThirdParty

/-- What ends an `await` on the socket. Of a datagram that is received the time is read twice. -/
inductive Io (A : Type) where
  | received (addr : A) (data : Bytes) (now now' : Nat)
  | sent
  | failed (e : IoKind)

/-- The operations of a session. `close` is both `force_close` and `safe_close`. -/
structure SessionOps (A S : Type) where
  new (conv : UInt32) (target : Option A) : S
  input (session : S) (data : Bytes) : S × KcpResult Unit
  close (session : S) : S
  conv (session : S) : UInt32
  target (session : S) : Option A

/-- The `await` a loop is at. While it sends, it has the lock of the session map. -/
inductive Phase (A : Type) where
  | recv
  | send (target : A) (packet : Bytes)

def Phase.sends {A : Type} : Phase A → Bool
  | recv => false
  | send .. => true

/-- The size of the receive buffer. -/
def bufLen : Nat := 1500

/-- An active session takes a datagram. One that fails is closed. -/
def SessionOps.take {A S : Type} (ops : SessionOps A S) (session : S) (data : Bytes) : S :=
  match ops.input session data with
  | (session, .ok ()) => session
  | (session, .error _) => ops.close session

/-! ## The listener -/

structure KcpListener (A S : Type) where
  manager : UInt64 → Sessions S
  futures : List (Phase A)
  localAddr : Except IoKind A
  /-- The packets that were sent. -/
  sent : List (A × Bytes)

/-- What `poll_accept` returns of a stream. -/
structure Accepted (A : Type) where
  id : UInt64
  conv : UInt32
  localAddr : A
  peerAddr : A

/-- How a poll of a future of `run_accept` ends. -/
inductive Accept (A : Type) where
  | pending (phase : Phase A)
  | opened (id : UInt64) (conv : UInt32) (addr : A)
  | failed (e : IoKind)

namespace KcpListener
variable {A S : Type} (ops : SessionOps A S) (hash : A → UInt64)

def bind (localAddr : Except IoKind A) : KcpListener A S :=
  ⟨fun _ _ => none, [.recv], localAddr, []⟩

variable (l : KcpListener A S)

def sessionsOf (id : UInt64) (sessions : Sessions S) : KcpListener A S :=
  { l with manager := Function.update l.manager id sessions }

/-- A datagram, up to the next `await` or to the end. -/
def handle (addr : A) (data : Bytes) (now now' : Nat) : KcpListener A S × Accept A :=
  if data.length < overhead then (l, .pending .recv)
  else
    let id := hash addr
    let conv := getConv data
    let sessions := (l.manager id).retain now
    match sessions conv with
    | none =>
      let session := ops.new conv (some addr)
      let l := l.sessionsOf id (sessions.insert conv (.active (ops.take session data)))
      match (ops.input session data).2 with
      | .ok () => (l, .opened id conv addr)
      | .error _ => (l, .pending .recv)
    | some (.active session) =>
      (l.sessionsOf id (sessions.insert conv (.active (ops.take session data))), .pending .recv)
    | some (.dead since session) =>
      let session := ops.close session
      let l := l.sessionsOf id (sessions.insert conv (.dead since session))
      match ops.target session with
      | some target =>
        if now' - since < 30 then
          (l, .pending (.send target (forceClose (ops.conv session))))
        else (l, .pending .recv)
      | none => (l, .pending .recv)

/-- A poll of a future, with what the socket answers meanwhile. -/
def pollFuture : KcpListener A S → Phase A → List (Io A) → KcpListener A S × Accept A × List (Io A)
  | l, .recv, .received addr data now now' :: io =>
    match l.handle ops hash addr (data.take bufLen) now now' with
    | (l, .pending phase) => pollFuture l phase io
    | (l, r) => (l, r, io)
  | l, .send target packet, .sent :: io =>
    pollFuture { l with sent := l.sent ++ [(target, packet)] } .recv io
  | l, _, .failed e :: io => (l, .failed e, io)
  | l, phase, io => (l, .pending phase, io)

/-- The loop of `poll_accept` over the futures, the last one first. -/
def pollFutures : KcpListener A S → List (Phase A) → List (Io A) →
    KcpListener A S × Poll (Except IoKind (Accepted A))
  | l, [], _ => (l, .pending)
  | l, future :: futures, io =>
    match l.pollFuture ops hash future io with
    | (l, .failed _, io) => pollFutures l futures io
    | (l, .pending future, io) => pollFutures { l with futures := l.futures ++ [future] } futures io
    | (l, .opened id conv peerAddr, _) =>
      ({ l with futures := l.futures ++ [.recv] ++ futures.reverse },
        .ready (l.localAddr.map (⟨id, conv, ·, peerAddr⟩)))

def pollAccept (io : List (Io A)) : KcpListener A S × Poll (Except IoKind (Accepted A)) :=
  pollFutures ops hash { l with futures := [] } l.futures.reverse io

/-- A future has the lock of the session map. -/
def locked : Bool := l.futures.any Phase.sends

inductive Event (A S : Type) where
  | pollAccept (io : List (Io A))
  /-- A stream is closed. -/
  | close (id : UInt64) (conv : UInt32)
  /-- The update task of a session has ended. -/
  | clean (id : UInt64) (conv : UInt32) (now : Nat)
  /-- The stream or the update task uses its session. -/
  | use (id : UInt64) (conv : UInt32) (f : S → S)

def step : Event A S → KcpListener A S → KcpListener A S
  | .pollAccept io, l => (l.pollAccept ops hash io).1
  | .close id conv, l =>
    if l.locked then l else l.sessionsOf id ((l.manager id).modify conv (.mapActive ops.close))
  | .clean id conv now, l =>
    if l.locked then l else l.sessionsOf id ((l.manager id).clean conv ops.close now)
  | .use id conv f, l => l.sessionsOf id ((l.manager id).modify conv (.map f))

end KcpListener

/-! ## The connector -/

/-- A connector and its receiver task, which is over when it has no phase. -/
structure KcpReceiver (S : Type) where
  sessions : Sessions S
  task : Option (Phase Unit)
  sent : List Bytes

namespace KcpReceiver
variable {S : Type} (ops : SessionOps Unit S)

def new : KcpReceiver S := ⟨fun _ => none, some .recv, []⟩

variable (c : KcpReceiver S)

/-- A datagram, up to the next `await`. -/
def handle (data : Bytes) (now : Nat) : KcpReceiver S :=
  if data.length < overhead then c
  else
    let conv := getConv data
    let sessions := c.sessions.retain now
    match sessions conv with
    | some (.active session) =>
      { c with sessions := sessions.insert conv (.active (ops.take session data)) }
    | some (.dead _ session) =>
      { c with sessions, task := some (.send () (forceClose (ops.conv session))) }
    | none => { c with sessions, task := some (.send () (forceClose conv)) }

/-- What ends the `await` that the task is at. -/
def io : Io Unit → KcpReceiver S
  | .received () data now _ =>
    match c.task with
    | some .recv => c.handle ops (data.take bufLen) now
    | _ => c
  | .sent =>
    match c.task with
    | some (.send () packet) => { c with task := some .recv, sent := c.sent ++ [packet] }
    | _ => c
  | .failed _ => { c with task := none }

/-- The task has the lock of the session map. -/
def locked : Bool := c.task.any Phase.sends

inductive Event (S : Type) where
  | io (r : Io Unit)
  /-- A call of `connect` puts its session into the map. -/
  | connect (conv : UInt32)
  | close (conv : UInt32)
  | clean (conv : UInt32) (now : Nat)
  | use (conv : UInt32) (f : S → S)

def step : Event S → KcpReceiver S → KcpReceiver S
  | .io r, c => c.io ops r
  | .connect conv, c =>
    if c.locked then c
    else { c with sessions := c.sessions.insert conv (.active (ops.new conv none)) }
  | .close conv, c =>
    if c.locked then c else { c with sessions := c.sessions.modify conv (.mapActive ops.close) }
  | .clean conv now, c =>
    if c.locked then c else { c with sessions := c.sessions.clean conv ops.close now }
  | .use conv f, c => { c with sessions := c.sessions.modify conv (.map f) }

end KcpReceiver
end Fuso.Kcp

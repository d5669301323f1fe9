import Fuso.Penetrate.Queue
import Fuso.Theory.Run

/-!
# The penetrate server and its client

The tasks of `async_penetrate_handle`, the wait list they share and the requests that are out. Every
visitor is a task of its own, and so is every data connection; the events are the points between
which they are polled, in any order. The client answers a request at most once, by a data connection
that carries `Poto::Map` with its id or by a `Poto::MapError` with its id. A visitor is known by its
number; the server itself only knows ids and channels, and the number of the visitor that a request
was sent for is in the model to say what an answer belongs to. `Handles` says once what each event
can do.
-/

namespace Fuso

/-- What the selector makes of a visitor. A visitor to be routed waits for a data connection whether
it is a `Visitor::Route` or a `Visitor::Provider`. -/
inductive Peer where
  | route
  | finished
  | unknown
  deriving DecidableEq

/-- The answer of the client to a request. -/
inductive Answered where
  | notYet
  | map
  | mapError
  deriving DecidableEq

/-- A `Poto::Map` with `id` that was sent for `visitor`, and later its answer. -/
structure Request where
  id : UInt32
  visitor : Nat
  answer : Answered
  deriving DecidableEq

/-- Where the task of a visitor is: in the call of the mock, in `send_packet` with the request
written or not, in `accept_ax.recv()`, or behind it. -/
inductive Task where
  | mock
  | send (id : UInt32) (out : Bool)
  | wait (id : UInt32)
  | copy (conn : Request)
  | ended
  deriving DecidableEq

/-- The task of a visitor and the channel it has made, which holds one data connection. -/
structure Visitor where
  task : Task
  channel : Option Request
  closed : Bool
  deriving DecidableEq

namespace Visitor

def new : Visitor := { task := .mock, channel := none, closed := false }

/-- `accept_tx.send`. It fails when the receiver is gone. -/
def send (vis : Visitor) (conn : Request) : Visitor :=
  if vis.task = .ended ∨ vis.closed ∨ vis.channel.isSome then vis
  else { vis with channel := some conn }

/-- `accept_tx.close`. -/
def close (vis : Visitor) : Visitor := { vis with closed := true }

/-- `accept_ax.recv`. What was sent before the channel was closed is still received. -/
def recv (vis : Visitor) : Visitor :=
  match vis.channel with
  | some conn => { vis with task := .copy conn, channel := none }
  | none => if vis.closed then { vis with task := .ended } else vis

@[simp] theorem task_send (vis : Visitor) (conn : Request) : (vis.send conn).task = vis.task := by
  rw [send]
  split <;> rfl

@[simp] theorem closed_send (vis : Visitor) (conn : Request) :
    (vis.send conn).closed = vis.closed := by
  rw [send]
  split <;> rfl

/-- A visitor receives what is in its channel, or ends with the channel, or goes on waiting. -/
theorem recv_cases (vis : Visitor) :
    (∃ conn, vis.channel = some conn ∧
      vis.recv = { vis with task := .copy conn, channel := none }) ∨
    vis.closed = true ∧ vis.recv = { vis with task := .ended } ∨ vis.recv = vis := by
  cases hchannel : vis.channel with
  | some conn => exact .inl ⟨conn, rfl, by simp only [recv, hchannel]⟩
  | none =>
    cases hclosed : vis.closed with
    | true => exact .inr (.inl ⟨rfl, by simp only [recv, hchannel, hclosed, if_true]⟩)
    | false => exact .inr (.inr (by simp [recv, hchannel, hclosed]))

end Visitor

/-- The server. With `stopped` it has returned an error and all of its tasks are dropped. -/
structure Penetrate where
  mqueue : MQueue Nat
  visitors : List Visitor
  requests : List Request
  stopped : Bool

inductive Event where
  /-- A visitor arrives. -/
  | visit
  /-- The mock returns for a visitor. -/
  | mocked (v : Nat) (peer : Peer)
  | mockFailed (v : Nat)
  /-- The request of a visitor reaches the client. -/
  | write (v : Nat)
  | sent (v : Nat)
  | sendFailed (v : Nat)
  | recv (v : Nat)
  /-- The data connection is routed, or what was read from the visitor cannot be written to it. -/
  | copied (v : Nat)
  | timeout (v : Nat)
  /-- The client answers the `i`th of the requests that are out. -/
  | answer (i : Nat) (answer : Answered)
  /-- The data connection that answers the `i`th request is handled. -/
  | accept (i : Nat)
  /-- The `Poto::MapError` that answers the `i`th request is handled. -/
  | mapError (i : Nat)
  /-- The `i`th request or its answer is lost. -/
  | lose (i : Nat)
  /-- The control connection fails for the heartbeat or the reader. -/
  | clientError

namespace Penetrate

def new : Penetrate := { mqueue := .new, visitors := [], requests := [], stopped := false }

def task (s : Penetrate) (v : Nat) : Option Task := s.visitors[v]?.map Visitor.task

/-- The server with a visitor's task gone on to `task`. -/
def goOn (s : Penetrate) (v : Nat) (task : Task) : Penetrate :=
  { s with visitors := s.visitors.modify v ({ · with task }) }

/-- `State::Error`: the server is dropped with its tasks and its wait list. -/
def stop (s : Penetrate) : Penetrate where
  mqueue := .new
  visitors := s.visitors.map ({ · with task := .ended })
  requests := []
  stopped := true

/-- What follows the call of the mock. The id is taken before the result is looked at. -/
def mocked (s : Penetrate) (v : Nat) (peer : Peer) : Penetrate :=
  match s.mqueue.push v with
  | none => s
  | some (mqueue, id) =>
    match peer with
    | .finished | .unknown => { s with mqueue }.goOn v .ended
    | .route => { s with mqueue }.goOn v (.send id false)

/-- `mqueue.remove(id)` for an answer, and what is done with the channel that was there. -/
def answered (s : Penetrate) (i : Nat) (id : UInt32) (f : Visitor → Visitor) : Penetrate :=
  match s.mqueue.remove id with
  | (mqueue, none) => { s with mqueue, requests := s.requests.eraseIdx i }
  | (mqueue, some v) =>
    { s with mqueue, requests := s.requests.eraseIdx i, visitors := s.visitors.modify v f }

/-- An event of a running server. One that is not possible in its state changes nothing. -/
def handle (s : Penetrate) : Event → Penetrate
  | .visit => { s with visitors := s.visitors ++ [.new] }
  | .mocked v peer => if s.task v = some .mock then s.mocked v peer else s
  | .mockFailed v => if s.task v = some .mock then s.goOn v .ended else s
  | .write v =>
    match s.task v with
    | some (.send id false) =>
      { s.goOn v (.send id true) with requests := s.requests ++ [⟨id, v, .notYet⟩] }
    | _ => s
  | .sent v =>
    match s.task v with
    | some (.send id true) => s.goOn v (.wait id)
    | _ => s
  | .sendFailed v =>
    match s.task v with
    | some (.send _ _) => s.stop
    | _ => s
  | .recv v =>
    match s.task v with
    | some (.wait _) => { s with visitors := s.visitors.modify v Visitor.recv }
    | _ => s
  | .copied v =>
    match s.task v with
    | some (.copy _) => s.goOn v .ended
    | _ => s
  | .timeout v => s.goOn v .ended
  | .answer i answer =>
    match s.requests[i]? with
    | some ⟨id, v, .notYet⟩ => { s with requests := s.requests.set i ⟨id, v, answer⟩ }
    | _ => s
  | .accept i =>
    match s.requests[i]? with
    | some ⟨id, v, .map⟩ => s.answered i id fun vis => vis.send ⟨id, v, .map⟩
    | _ => s
  | .mapError i =>
    match s.requests[i]? with
    | some ⟨id, _, .mapError⟩ => s.answered i id Visitor.close
    | _ => s
  | .lose i => { s with requests := s.requests.eraseIdx i }
  | .clientError => s.stop

def step (e : Event) (s : Penetrate) : Penetrate := if s.stopped then s else s.handle e

/-- The channel that an event sends the answer of a request to. -/
def delivered (e : Event) (s : Penetrate) : List (Request × Nat) :=
  if s.stopped then []
  else match e with
  | .accept i =>
    match s.requests[i]? with
    | some ⟨id, v, .map⟩ => (s.mqueue.lookup id).toList.map (⟨id, v, .map⟩, ·)
    | _ => []
  | .mapError i =>
    match s.requests[i]? with
    | some ⟨id, v, .mapError⟩ => (s.mqueue.lookup id).toList.map (⟨id, v, .mapError⟩, ·)
    | _ => []
  | _ => []

/-! ## What an event can do -/

/-- The state an event leaves and what it delivers, by the state it is possible in. -/
inductive Handles (s : Penetrate) : Event → Penetrate → List (Request × Nat) → Prop where
  | idle : Handles s e s []
  | visit : Handles s .visit { s with visitors := s.visitors ++ [.new] } []
  | mocked : s.task v = some .mock → Handles s (.mocked v peer) (s.mocked v peer) []
  | mockFailed : s.task v = some .mock → Handles s (.mockFailed v) (s.goOn v .ended) []
  | write : s.task v = some (.send k false) → Handles s (.write v)
      { s.goOn v (.send k true) with requests := s.requests ++ [⟨k, v, .notYet⟩] } []
  | sent : s.task v = some (.send k true) → Handles s (.sent v) (s.goOn v (.wait k)) []
  | sendFailed : Handles s (.sendFailed v) s.stop []
  | recv : s.task v = some (.wait k) →
    Handles s (.recv v) { s with visitors := s.visitors.modify v Visitor.recv } []
  | copied : s.task v = some (.copy conn) → Handles s (.copied v) (s.goOn v .ended) []
  | timeout : Handles s (.timeout v) (s.goOn v .ended) []
  | answer : s.requests[i]? = some ⟨k, v, .notYet⟩ →
    Handles s (.answer i answer) { s with requests := s.requests.set i ⟨k, v, answer⟩ } []
  | accept : s.requests[i]? = some ⟨k, v, .map⟩ →
    Handles s (.accept i) (s.answered i k fun vis => vis.send ⟨k, v, .map⟩)
      ((s.mqueue.lookup k).toList.map (⟨k, v, .map⟩, ·))
  | mapError : s.requests[i]? = some ⟨k, v, .mapError⟩ →
    Handles s (.mapError i) (s.answered i k Visitor.close)
      ((s.mqueue.lookup k).toList.map (⟨k, v, .mapError⟩, ·))
  | lose : Handles s (.lose i) { s with requests := s.requests.eraseIdx i } []
  | clientError : Handles s .clientError s.stop []

theorem handles {s : Penetrate} (hrun : s.stopped = false) (e : Event) :
    Handles s e (s.handle e) (delivered e s) := by
  unfold delivered
  rw [if_neg (by simp [hrun])]
  cases e with
  | visit => exact .visit
  | mocked v peer =>
    simp only [handle]
    split <;> [exact .mocked ‹_›; exact .idle]
  | mockFailed v =>
    simp only [handle]
    split <;> [exact .mockFailed ‹_›; exact .idle]
  | write v =>
    simp only [handle]
    split <;> [exact .write ‹_›; exact .idle]
  | sent v =>
    simp only [handle]
    split <;> [exact .sent ‹_›; exact .idle]
  | sendFailed v =>
    simp only [handle]
    split <;> [exact .sendFailed; exact .idle]
  | recv v =>
    simp only [handle]
    split <;> [exact .recv ‹_›; exact .idle]
  | copied v =>
    simp only [handle]
    split <;> [exact .copied ‹_›; exact .idle]
  | timeout v => exact .timeout
  | answer i a =>
    simp only [handle]
    split <;> [exact .answer ‹_›; exact .idle]
  | accept i =>
    cases hi : s.requests[i]? with
    | none =>
      simp only [handle, hi]
      exact .idle
    | some r =>
      obtain ⟨k, v, a⟩ := r
      cases a with
      | map =>
        simp only [handle, hi]
        exact .accept hi
      | notYet | mapError =>
        simp only [handle, hi]
        exact .idle
  | mapError i =>
    cases hi : s.requests[i]? with
    | none =>
      simp only [handle, hi]
      exact .idle
    | some r =>
      obtain ⟨k, v, a⟩ := r
      cases a with
      | mapError =>
        simp only [handle, hi]
        exact .mapError hi
      | notYet | map =>
        simp only [handle, hi]
        exact .idle
  | lose i => exact .lose
  | clientError => exact .clientError

/-! ## Visitors -/

variable {s : Penetrate} {v w : Nat}

theorem task_eq_some : s.task v = some t ↔ ∃ vis, s.visitors[v]? = some vis ∧ vis.task = t := by
  simp [task]

/-- A visitor of a server behind a change of one of its visitors. -/
theorem getElem?_modify (visitors : List Visitor) (f : Visitor → Visitor) :
    (visitors.modify v f)[w]? = if v = w then visitors[w]?.map f else visitors[w]? := by
  rw [List.getElem?_modify]
  split <;> simp

/-- The visitor that was at a place before. -/
theorem exists_of_modify {visitors : List Visitor} {f : Visitor → Visitor} {vis' : Visitor}
    (h : (visitors.modify v f)[w]? = some vis') :
    ∃ vis, visitors[w]? = some vis ∧ (v = w ∧ vis' = f vis ∨ v ≠ w ∧ vis' = vis) := by
  rw [getElem?_modify] at h
  split at h
  · next hvw =>
    obtain ⟨vis, hvis, rfl⟩ := Option.map_eq_some_iff.1 h
    exact ⟨vis, hvis, .inl ⟨hvw, rfl⟩⟩
  · next hvw => exact ⟨vis', h, .inr ⟨hvw, rfl⟩⟩

theorem of_visit {visitors : List Visitor} {vis : Visitor}
    (h : (visitors ++ [.new])[v]? = some vis) : visitors[v]? = some vis ∨ vis = .new := by
  rw [List.getElem?_append] at h
  split at h
  · exact .inl h
  · exact .inr (List.mem_singleton.1 (List.mem_of_getElem? h))

theorem getElem?_visit {visitors : List Visitor} {vis : Visitor} (h : visitors[v]? = some vis) :
    (visitors ++ [.new])[v]? = some vis := by
  obtain ⟨hlt, -⟩ := List.getElem?_eq_some_iff.1 h
  exact (List.getElem?_append_left hlt).trans h

theorem exists_of_stop {vis : Visitor} (h : s.stop.visitors[v]? = some vis) :
    ∃ vis', s.visitors[v]? = some vis' ∧ vis = { vis' with task := .ended } := by
  simp only [stop, List.getElem?_map, Option.map_eq_some_iff] at h
  obtain ⟨vis', hvis', rfl⟩ := h
  exact ⟨vis', hvis', rfl⟩

theorem task_of_getElem? {vis : Visitor} (ht : s.task v = some t)
    (hvis : s.visitors[v]? = some vis) : vis.task = t :=
  Option.some.inj ((task_eq_some.2 ⟨vis, hvis, rfl⟩).symm.trans ht)

theorem task_goOn (h : s.task v = some t) (t' : Task) : (s.goOn v t').task v = some t' := by
  obtain ⟨vis, hvis, -⟩ := task_eq_some.1 h
  exact task_eq_some.2 ⟨_, by rw [goOn, getElem?_modify, if_pos rfl, hvis]; rfl, rfl⟩

/-- A change that leaves the tasks of the visitors where they are. -/
theorem task_modify {s' : Penetrate} {f : Visitor → Visitor}
    (hvisitors : s'.visitors = s.visitors.modify v f) (hf : ∀ vis, (f vis).task = vis.task) :
    s'.task w = s.task w := by
  rw [task, hvisitors, getElem?_modify, task]
  split
  · simp [Function.comp_def, hf]
  · rfl

theorem step_of_running (h : s.stopped = false) (e : Event) : step e s = s.handle e := by
  simp [step, h]

end Penetrate
end Fuso

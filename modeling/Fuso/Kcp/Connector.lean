import Fuso.Kcp.Sessions

/-!
# `KcpConnector::connect`

The calls of `connect` of one connector, one step from each `await` to the next. A call holds the
lock of the session map while it looks for a free conversation id, then makes its session, and takes
the lock again to put it into the map.
-/

namespace Fuso.Kcp

/-- Where a call of `connect` is. -/
inductive Connect where
  | start
  /-- It has the lock and asks for the current id. -/
  | locked
  /-- It has the lock and asks for the next id; `conv` was the first. -/
  | next (conv : UInt32)
  /-- It has made a session for `conv`, and waits for the lock. -/
  | made (conv : UInt32)
  | connected (conv : UInt32)
  | noMoreConv
  deriving DecidableEq

/-- A connector. A session is named by the number of the call that made it. -/
structure Connector where
  sessions : Sessions Nat
  increment : UInt32
  /-- The call that has the lock of the session map. -/
  lock : Option Nat
  connects : List Connect
  /-- The sessions whose clean-up has run. -/
  cleaned : List Nat
  /-- The ids and sessions that were put into the map and have not been cleaned up. -/
  active : List (UInt32 × Nat)
  /-- An active session was replaced in the map. -/
  replaced : Bool

namespace Connector

def new : Connector := ⟨fun _ => none, 1, none, [], [], [], false⟩

/-- `Increment::next`. -/
def incrementNext (conv : UInt32) : UInt32 := if conv.toNat + 1 = UInt32.size then 0 else conv + 1

section
variable (c : Connector) (i : Nat)

def goTo (phase : Connect) : Connector := { c with connects := c.connects.set i phase }

/-- The check of an id, with the lock. The lock is given back with the id that is free. -/
def check (first conv : UInt32) : Connector :=
  if (c.sessions conv).isNone then { c.goTo i (.made conv) with lock := none }
  else c.goTo i (.next first)

/-- The session goes into the map. -/
def insertSession (conv : UInt32) : Connector :=
  { c.goTo i (.connected conv) with
    sessions := c.sessions.insert conv (.active i)
    active := (conv, i) :: c.active
    replaced := c.replaced || (c.sessions conv).any KLife.isActive }

/-- A call goes on to its next `await`, when it has what it waits for. -/
def run : Connector :=
  match c.connects[i]? with
  | some .start => if c.lock.isNone then { c.goTo i .locked with lock := some i } else c
  | some .locked => c.check i c.increment c.increment
  | some (.next first) =>
    let conv := incrementNext c.increment
    let c := { c with increment := conv }
    if conv = first then { c.goTo i .noMoreConv with lock := none } else c.check i first conv
  | some (.made conv) => if c.lock.isNone then c.insertSession i conv else c
  | some (.connected _) | some .noMoreConv | none => c

/-- The session that a call has made. -/
def session? : Option UInt32 :=
  match c.connects[i]? with
  | some (.made conv) | some (.connected conv) => some conv
  | _ => none

/-- The update task of a session has ended. Its clean-up runs once. -/
def clean (now : Nat) : Connector :=
  match c.session? i with
  | none => c
  | some conv =>
    if c.lock.isNone ∧ i ∉ c.cleaned then
      { c with
        sessions := c.sessions.clean conv id now, cleaned := i :: c.cleaned
        active := c.active.filter (·.2 ≠ i) }
    else c

/-- The receiver task drops sessions that are dead long enough. -/
def purge (now : Nat) : Connector :=
  if c.lock.isNone then { c with sessions := c.sessions.retain now } else c

end

inductive Event where
  | connect
  | run (i : Nat)
  | clean (i now : Nat)
  | purge (now : Nat)

def step : Event → Connector → Connector
  | .connect, c => { c with connects := c.connects ++ [.start] }
  | .run i, c => c.run i
  | .clean i now, c => c.clean i now
  | .purge now, c => c.purge now

end Connector
end Fuso.Kcp

import Fuso.Kcp.Core
import Fuso.Theory.Run

/-!
# Wakers at the end of the update task

A session from its start on: its stream reads, writes and is closed, datagrams arrive for it, and
its update task is polled. The task takes the wakers when it finds the session closed or the link
dead, but not when `Kcp::update` fails. So a task that waits is left behind exactly in a run where
an update fails while it waits (`woken_iff`).
-/

namespace Fuso.Kcp
open ThirdParty

/-- `Kcp::update` fails. -/
def KcpCore.Fails (c : KcpCore) (t : Tick) : Prop :=
  (Kcp.update t.current t.clock (c.kcp, ⟨t.results, []⟩)).1 ≠ .ok ()

/-- With writes that succeed it fails exactly on a session that is closed or overdue. -/
theorem KcpCore.fails_iff {c : KcpCore} {t : Tick} (h : ∀ r ∈ t.results, r = .ok ()) :
    c.Fails t ↔ c.kcp.closed = true ∨ c.kcp.Overdue t.clock := by
  have hgood : Output.Good ⟨t.results, []⟩ := h
  rw [Fails, ne_eq, Kcp.update_ok_iff t.current t.clock (s := (c.kcp, ⟨t.results, []⟩)) hgood]
  by_cases hclosed : c.kcp.closed = true <;> simp [hclosed]

/-- A failing update leaves the tasks that wait. -/
theorem KcpCore.updating_of_fails {c : KcpCore} {t : Tick} (h : c.Fails t) :
    ∃ e c', c.updating t = (c', .error e) ∧ c'.readWaker = c.readWaker ∧
      c'.writeWaker = c.writeWaker := by
  unfold Fails at h
  unfold updating
  split
  · exact ⟨_, _, rfl, rfl, rfl⟩
  · next hupdate => exact absurd (by rw [hupdate]) h

/-- The future that updates takes them when it fails otherwise. -/
theorem KcpCore.updating_error {c : KcpCore} {t : Tick} (h : ¬ c.Fails t)
    (herror : c.updating t = (c', .error e)) : c'.readWaker = none ∧ c'.writeWaker = none := by
  unfold Fails at h
  unfold updating at herror
  split at herror
  · next hupdate => exact absurd (by rw [hupdate]; simp) h
  · unfold updated at herror
    simp only at herror
    split at herror
    · obtain ⟨rfl, -⟩ := Prod.ext_iff.1 herror
      exact ⟨rfl, rfl⟩
    · cases herror

/-- A session, and how its update task has ended, with the core at that time. -/
structure Running where
  update : KcpUpdate
  ended : Option (KcpResult Unit × KcpCore)

namespace Running

def start (conv : UInt32) (clock : Nat) : Running := ⟨⟨.new conv clock, false⟩, none⟩

inductive Event where
  | read (cx : Waker) (cap : Nat)
  | write (cx : Waker) (data : Bytes)
  | pollClose (cx : Waker) (clock : Nat)
  | close (clock : Nat)
  | input (data : Bytes)
  /-- A poll of the update task, with a tick when it does not sleep any longer. -/
  | poll (tick : Option Tick)

def setCore (s : Running) (c : KcpCore) : Running := { s with update.kcore := c }

/-- A poll of the update task, which is over when it has ended. -/
def poll (s : Running) (tick : Option Tick) : Running :=
  if s.ended.isSome then s
  else match s.update.poll tick with
  | (update, .pending) => { s with update }
  | (update, .ready r) => { update, ended := some (r, update.kcore) }

def step : Event → Running → Running
  | .read cx cap, s => s.setCore (s.update.kcore.pollRead cx (.new cap)).1
  | .write cx data, s => s.setCore (s.update.kcore.pollWrite cx data).1
  | .pollClose cx clock, s => s.setCore (s.update.kcore.pollClose cx clock).1
  | .close clock, s => s.setCore (Session.close s.update.kcore clock).1
  | .input data, s => s.setCore (Session.input s.update.kcore data).1
  | .poll tick, s => s.poll tick

/-- When the update task ended no reader and no writer was left waiting. -/
def Woken (s : Running) : Prop :=
  ∀ e ∈ s.ended, e.2.readWaker = none ∧ e.2.writeWaker = none

/-- The tick that a poll has for the update task. -/
def tick? : Event → Running → Option Tick
  | .poll (some t), s => if s.ended = none ∧ s.update.sleeping then some t else none
  | _, _ => none

/-- The update of this event does not fail, or no reader and no writer waits. -/
def Attended (e : Event) (s : Running) : Prop :=
  ∀ t ∈ tick? e s, s.update.kcore.Fails t →
    s.update.kcore.readWaker = none ∧ s.update.kcore.writeWaker = none

/-! ## The condition -/

/-- A turn of the loop ends the task only when it has taken the tasks that wait. -/
theorem sleep_ready (h : KcpUpdate.sleep c = (u, .ready r)) :
    u.kcore.readWaker = none ∧ u.kcore.writeWaker = none := by
  unfold KcpUpdate.sleep at h
  split at h
  · obtain ⟨rfl, -⟩ := Prod.ext_iff.1 h
    exact ⟨rfl, rfl⟩
  · cases h

theorem update_ready {u : KcpUpdate} (h : u.poll tick = (u', .ready r)) :
    (∃ t, tick = some t ∧ u.sleeping = true ∧ u.kcore.Fails t) ∨
      u'.kcore.readWaker = none ∧ u'.kcore.writeWaker = none := by
  unfold KcpUpdate.poll at h
  split at h
  · exact .inr (sleep_ready h)
  · next hsleeping =>
    split at h
    · cases h
    · next t =>
      by_cases hfails : u.kcore.Fails t
      · exact .inl ⟨t, rfl, by simpa using hsleeping, hfails⟩
      · split at h
        · next c e herror =>
          obtain ⟨rfl, -⟩ := Prod.ext_iff.1 h
          exact .inr (KcpCore.updating_error hfails herror)
        · exact .inr (sleep_ready h)

theorem update_fails {u : KcpUpdate} (hsleeping : u.sleeping = true) (h : u.kcore.Fails t) :
    ∃ u' r, u.poll (some t) = (u', .ready r) ∧ u'.kcore.readWaker = u.kcore.readWaker ∧
      u'.kcore.writeWaker = u.kcore.writeWaker := by
  obtain ⟨e, c, herror, hread, hwrite⟩ := KcpCore.updating_of_fails h
  refine ⟨⟨c, false⟩, .error e, ?_, hread, hwrite⟩
  simp only [KcpUpdate.poll, hsleeping, Bool.not_true, Bool.false_eq_true, if_false, herror]

theorem poll_pending {s : Running} (hended : s.ended = none)
    (h : s.update.poll tick = (u, .pending)) : s.poll tick = { s with update := u } := by
  simp only [poll, hended, Option.isSome_none, Bool.false_eq_true, if_false, h]

theorem poll_ready {s : Running} (hended : s.ended = none)
    (h : s.update.poll tick = (u, .ready r)) : s.poll tick = ⟨u, some (r, u.kcore)⟩ := by
  simp only [poll, hended, Option.isSome_none, Bool.false_eq_true, if_false, h]

theorem tick?_eq {s : Running} (hended : s.ended = none) (hsleeping : s.update.sleeping = true) :
    tick? (.poll (some t)) s = some t := if_pos ⟨hended, hsleeping⟩

theorem woken_ended : Woken ⟨u, some (r, c)⟩ ↔ c.readWaker = none ∧ c.writeWaker = none := by
  simp [Woken]

theorem Woken.poll {s : Running} (h : Woken s) (hok : Attended (.poll tick) s) :
    Woken (s.poll tick) := by
  cases hended : s.ended with
  | some e =>
    have hsame : s.poll tick = s := if_pos (by rw [hended]; rfl)
    exact hsame.symm ▸ h
  | none =>
    cases hpoll : s.update.poll tick with
    | mk u r =>
      cases r with
      | pending =>
        rw [poll_pending hended hpoll]
        exact h
      | ready r =>
        rw [poll_ready hended hpoll, woken_ended]
        rcases update_ready hpoll with ⟨t, rfl, hsleeping, hfails⟩ | hnone
        · -- the update fails, and the condition says that no task waits for it
          obtain ⟨u', r', hpoll', hread, hwrite⟩ := update_fails hsleeping hfails
          obtain ⟨rfl, -⟩ := Prod.ext_iff.1 (hpoll.symm.trans hpoll')
          have hnone := hok t (tick?_eq hended hsleeping) hfails
          exact ⟨hread.trans hnone.1, hwrite.trans hnone.2⟩
        · exact hnone

theorem Woken.step {s : Running} (h : Woken s) (hok : Attended e s) : Woken (step e s) := by
  cases e with
  | poll tick => exact h.poll hok
  | read | write | pollClose | close | input => exact h

/-- A step that leaves nobody behind meets the condition. -/
theorem attended_of_woken {s : Running} (h : Woken (step e s)) : Attended e s := by
  intro t ht hfails
  cases e with
  | poll tick =>
    cases tick with
    | none => cases ht
    | some t' =>
      by_cases hwhen : s.ended = none ∧ s.update.sleeping = true
      · obtain rfl : t' = t := by simpa [tick?, hwhen] using ht
        obtain ⟨u, r, hpoll, hread, hwrite⟩ := update_fails hwhen.2 hfails
        have hstep : Running.step (.poll (some t')) s = ⟨u, some (r, u.kcore)⟩ :=
          poll_ready hwhen.1 hpoll
        rw [hstep, woken_ended, hread, hwrite] at h
        exact h
      · have hnone : tick? (.poll (some t')) s = none := if_neg hwhen
        rw [hnone] at ht
        cases ht
  | read | write | pollClose | close | input => cases ht

/-- No task that waits is left behind, in any state of a run, exactly when none waits at an update
that fails. -/
theorem woken_iff (conv : UInt32) (clock : Nat) (events : List Event) :
    (∀ pre, pre <+: events → Woken (after step (start conv clock) pre)) ↔
      Admissible step Attended (start conv clock) events :=
  after_iff (fun _ h => h) (fun _ _ h hok => h.step hok) (fun _ _ _ h => attended_of_woken h)
    (fun _ h => by cases h)

instance : Decidable (Woken s) :=
  inferInstanceAs (Decidable (∀ e ∈ s.ended, e.2.readWaker = none ∧ e.2.writeWaker = none))

/-- A reader waits and the task sleeps when a forced close arrives. -/
theorem reader_left_behind : ¬ Woken (after step (start 7 0)
    [.poll none, .read 1 16, .input (forceClose 7), .poll (some ⟨20, 20, []⟩)]) := by
  decide

end Running
end Fuso.Kcp

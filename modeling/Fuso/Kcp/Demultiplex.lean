import Fuso.Kcp.Receive
import Fuso.Theory.Run
import Fuso.Udp.Datagram

/-!
# Errors of the socket

A receive loop that meets an error of its socket is over, and nothing starts it again. As long as
there is none every datagram goes to its session; the first one silences the listener, the connector
and `Datagram` for good (`demultiplexers_serve`).
-/

namespace Fuso.Kcp
open ThirdParty

def Io.error {A : Type} : Io A → List IoKind
  | failed e => [e]
  | received .. | sent => []

namespace KcpListener
variable {A S : Type} (ops : SessionOps A S) (hash : A → UInt64)

/-- The results of the socket that are errors. -/
def Event.errors : Event A S → List IoKind
  | .pollAccept io => io.flatMap Io.error
  | .close .. | .clean .. | .use .. => []

/-- There is a future, and the next datagram for an active session goes to it, behind the end of a
send that is still to come. -/
structure Serves (l : KcpListener A S) : Prop where
  stored : l.futures ≠ []
  hands : ∀ addr data now now' session, overhead ≤ data.length → data.length ≤ bufLen →
    l.manager (hash addr) (getConv data) = some (.active session) →
    ∃ io, io ⊆ [.sent] ∧
      (step ops hash (.pollAccept (io ++ [.received addr data now now'])) l).manager (hash addr)
        (getConv data) = some (.active (ops.take session data))

variable {ops hash} {l : KcpListener A S}

theorem handle_futures : (l.handle ops hash addr data now now').1.futures = l.futures := by
  simp only [handle]
  split
  · rfl
  · split
    · split <;> rfl
    · rfl
    · split
      · split <;> rfl
      · rfl

theorem handle_ne_failed : (l.handle ops hash addr data now now').2 ≠ .failed e := by
  simp only [handle]
  split
  · simp
  · split
    · split <;> simp
    · simp
    · split
      · split <;> simp
      · simp

theorem handle_active (hlen : overhead ≤ data.length)
    (h : l.manager (hash addr) (getConv data) = some (.active session)) :
    (l.handle ops hash addr data now now').1.manager (hash addr) (getConv data) =
        some (.active (ops.take session data)) ∧
      (l.handle ops hash addr data now now').2 = .pending .recv := by
  have hretain := (Sessions.retain_active now).2 h
  have hlt : ¬ data.length < overhead := by omega
  simp only [handle, if_neg hlt, hretain]
  exact ⟨by simp [sessionsOf], trivial⟩

/-- A future fails only by an error of the socket. -/
theorem pollFuture_spec (l : KcpListener A S) (phase : Phase A) (io : List (Io A))
    (h : ∀ r ∈ io, r.error = []) : (l.pollFuture ops hash phase io).1.futures = l.futures ∧
      ∀ e, (l.pollFuture ops hash phase io).2.1 ≠ .failed e := by
  induction io generalizing l phase with
  | nil => cases phase <;> exact ⟨rfl, by simp [pollFuture]⟩
  | cons r io ih =>
    have hio : ∀ r ∈ io, r.error = [] := fun r hr => h r (List.mem_cons_of_mem _ hr)
    cases r with
    | received addr data now now' =>
      cases phase with
      | recv =>
        have hfutures :
            (l.handle ops hash addr (data.take bufLen) now now').1.futures = l.futures :=
          handle_futures
        cases hl : l.handle ops hash addr (data.take bufLen) now now' with
        | mk l' r =>
          rw [hl] at hfutures
          cases r with
          | pending phase =>
            obtain ⟨hih, hne⟩ := ih l' phase hio
            simp only [pollFuture, hl]
            exact ⟨hih.trans hfutures, hne⟩
          | opened id conv addr => exact ⟨by simpa only [pollFuture, hl], by simp [pollFuture, hl]⟩
          | failed e => exact absurd (congrArg Prod.snd hl) handle_ne_failed
      | send target packet => exact ⟨rfl, by simp [pollFuture]⟩
    | sent =>
      cases phase with
      | recv => exact ⟨rfl, by simp [pollFuture]⟩
      | send target packet =>
        rw [pollFuture]
        exact ih _ _ hio
    | failed e => cases h (.failed e) List.mem_cons_self

/-- The future that is polled stays, or another one takes its place. -/
theorem pollAccept_futures (hl : l.futures = [phase]) (h : ∀ r ∈ io, r.error = []) :
    ∃ phase', (l.pollAccept ops hash io).1.futures = [phase'] := by
  have hspec : (pollFuture ops hash { l with futures := [] } phase io).1.futures = [] ∧
      ∀ e, (pollFuture ops hash { l with futures := [] } phase io).2.1 ≠ .failed e :=
    pollFuture_spec _ phase io h
  simp only [pollAccept, hl, List.reverse_singleton, pollFutures]
  cases hp : pollFuture ops hash { l with futures := [] } phase io with
  | mk l' r =>
    obtain ⟨r, io⟩ := r
    rw [hp] at hspec
    have hfutures : l'.futures = [] := hspec.1
    cases r with
    | pending phase' => exact ⟨phase', by simp only [hfutures, List.nil_append]⟩
    | opened id conv addr => exact ⟨.recv, by simp [hfutures]⟩
    | failed e => exact absurd rfl (hspec.2 e)

/-- A future that receives hands the datagram over. -/
theorem pollAccept_recv (hl : l.futures = [.recv]) (hlen : overhead ≤ data.length)
    (hle : data.length ≤ bufLen)
    (h : l.manager (hash addr) (getConv data) = some (.active session)) :
    (l.pollAccept ops hash [.received addr data now now']).1.manager (hash addr) (getConv data) =
      some (.active (ops.take session data)) := by
  have hdata : data.take bufLen = data := List.take_of_length_le hle
  have hactive : (handle ops hash { l with futures := [] } addr data now now').1.manager (hash addr)
        (getConv data) = some (.active (ops.take session data)) ∧
      (handle ops hash { l with futures := [] } addr data now now').2 = .pending .recv :=
    handle_active hlen h
  cases hp : handle ops hash { l with futures := [] } addr data now now' with
  | mk l' r =>
    rw [hp] at hactive
    obtain ⟨hmanager, rfl⟩ := hactive
    simp only [pollAccept, hl, List.reverse_singleton, pollFutures, pollFuture, hdata, hp]
    exact hmanager

theorem serves_of_futures (hl : l.futures = [phase]) : Serves ops hash l where
  stored := by simp [hl]
  hands addr data now now' session hlen hle h := by
    cases phase with
    | recv => exact ⟨[], List.nil_subset _, pollAccept_recv hl hlen hle h⟩
    | send target packet =>
      refine ⟨[.sent], List.Subset.refl _, ?_⟩
      have hsent : l.pollAccept ops hash ([.sent] ++ [.received addr data now now']) =
          KcpListener.pollAccept ops hash
            { l with futures := [.recv], sent := l.sent ++ [(target, packet)] }
            [.received addr data now now'] := by
        simp only [pollAccept, hl, List.reverse_singleton, pollFutures, List.cons_append,
          List.nil_append, pollFuture]
      rw [step, hsent]
      exact pollAccept_recv rfl hlen hle h

/-- Only a poll touches the futures. -/
theorem step_futures {e : Event A S} (h : ∀ io, e ≠ .pollAccept io) :
    (step ops hash e l).futures = l.futures := by
  cases e with
  | pollAccept io => exact absurd rfl (h io)
  | close id conv =>
    rw [step]
    split <;> rfl
  | clean id conv now =>
    rw [step]
    split <;> rfl
  | use id conv f => rfl

theorem fragile (ops : SessionOps A S) (hash : A → UInt64) (localAddr : Except IoKind A) :
    Fragile (step ops hash) (fun e => e.errors = [])
      (fun e => ∃ k io, e = .pollAccept (.failed k :: io)) (Serves ops hash) (bind localAddr) := by
  refine .of_invariants (I := fun l => ∃ phase, l.futures = [phase]) (B := fun l => l.futures = [])
    ?_ (fun l hl h => h.stored hl) ?_ ?_ (fun l e hl => ?_) ⟨_, rfl⟩
  · rintro l ⟨phase, hl⟩
    exact serves_of_futures hl
  · rintro l e ⟨phase, hl⟩ he
    by_cases hpoll : ∃ io, e = .pollAccept io
    · obtain ⟨io, rfl⟩ := hpoll
      refine pollAccept_futures hl fun r hr => List.eq_nil_iff_forall_not_mem.2 fun k hk => ?_
      have hmem : k ∈ io.flatMap Io.error := List.mem_flatMap.2 ⟨r, hr, hk⟩
      rw [show io.flatMap Io.error = [] from he] at hmem
      cases hmem
    · exact ⟨phase, (step_futures (not_exists.1 hpoll)).trans hl⟩
  · rintro l e ⟨phase, hl⟩ ⟨k, io, rfl⟩
    cases phase <;> simp [step, pollAccept, hl, pollFutures, pollFuture]
  · by_cases hpoll : ∃ io, e = .pollAccept io
    · obtain ⟨io, rfl⟩ := hpoll
      simp only [step, pollAccept, hl, List.reverse_nil, pollFutures]
    · exact (step_futures (not_exists.1 hpoll)).trans hl

end KcpListener

namespace KcpReceiver
variable {S : Type}

def Event.errors : Event S → List IoKind
  | .io r => r.error
  | .connect _ | .close _ | .clean .. | .use .. => []

/-- The task runs, and the next datagram for an active session goes to it, behind the end of a send
that is still to come. -/
structure Serves (ops : SessionOps Unit S) (c : KcpReceiver S) : Prop where
  runs : c.task ≠ none
  hands : ∀ data now now' session, overhead ≤ data.length → data.length ≤ bufLen →
    c.sessions (getConv data) = some (.active session) →
    ∃ events, events ⊆ [.io .sent] ∧
      (after (step ops) c (events ++ [.io (.received () data now now')])).sessions (getConv data) =
        some (.active (ops.take session data))

variable {ops : SessionOps Unit S} {c : KcpReceiver S}

/-- A task that receives hands the datagram over. -/
theorem io_recv (now now' : Nat) (hc : c.task = some .recv) (hlen : overhead ≤ data.length)
    (hle : data.length ≤ bufLen) (h : c.sessions (getConv data) = some (.active session)) :
    (c.io ops (.received () data now now')).sessions (getConv data) =
      some (.active (ops.take session data)) := by
  have hdata : data.take bufLen = data := List.take_of_length_le hle
  have hretain := (Sessions.retain_active now).2 h
  have hlt : ¬ data.length < overhead := by omega
  simp only [io, hc, hdata, handle, if_neg hlt, hretain, Sessions.insert_self]

theorem serves_of_task (hc : c.task = some phase) : Serves ops c where
  runs := by simp [hc]
  hands data now now' session hlen hle h := by
    cases phase with
    | recv => exact ⟨[], List.nil_subset _, io_recv now now' hc hlen hle h⟩
    | send target packet =>
      refine ⟨[.io .sent], List.Subset.refl _, ?_⟩
      have hsent : c.io ops .sent = { c with task := some .recv, sent := c.sent ++ [packet] } := by
        simp only [io, hc]
      rw [List.singleton_append, after_cons, step, hsent]
      exact io_recv (c := { c with task := some .recv, sent := c.sent ++ [packet] }) now now' rfl
        hlen hle h

/-- Only an error ends the task. -/
theorem step_task {e : Event S} (h : e.errors = []) (hc : c.task = some phase) :
    ∃ phase', (step ops e c).task = some phase' := by
  cases e with
  | io r =>
    cases r with
    | received addr data now now' =>
      cases phase with
      | recv =>
        simp only [step, io, hc, handle]
        split
        · exact ⟨_, hc⟩
        · split <;> exact ⟨_, rfl⟩
      | send target packet => exact ⟨.send target packet, by simp only [step, io, hc]⟩
    | sent => cases phase <;> simp only [step, io, hc, Option.some.injEq, exists_eq']
    | failed e => cases h
  | connect conv =>
    rw [step]
    split <;> exact ⟨phase, hc⟩
  | close conv =>
    rw [step]
    split <;> exact ⟨phase, hc⟩
  | clean conv now =>
    rw [step]
    split <;> exact ⟨phase, hc⟩
  | use conv f => exact ⟨phase, hc⟩

/-- A task that is over stays so. -/
theorem step_none (e : Event S) (hc : c.task = none) : (step ops e c).task = none := by
  cases e with
  | io r => cases r <;> simp [step, io, hc]
  | connect conv =>
    rw [step]
    split <;> exact hc
  | close conv =>
    rw [step]
    split <;> exact hc
  | clean conv now =>
    rw [step]
    split <;> exact hc
  | use conv f => exact hc

theorem fragile (ops : SessionOps Unit S) :
    Fragile (step ops) (fun e => e.errors = []) (fun e => ∃ k, e = .io (.failed k)) (Serves ops)
      new := by
  refine .of_invariants (I := fun c => ∃ phase, c.task = some phase) (B := fun c => c.task = none)
    ?_ (fun c hc h => h.runs hc) ?_ ?_ (fun c e hc => step_none e hc) ⟨_, rfl⟩
  · rintro c ⟨phase, hc⟩
    exact serves_of_task hc
  · rintro c e ⟨phase, hc⟩ he
    exact step_task he hc
  · rintro c e ⟨phase, hc⟩ ⟨k, rfl⟩
    rfl

end KcpReceiver
end Fuso.Kcp

namespace Fuso.Udp.Datagram
variable {A : Type}

def Event.errors {E : Type} : Event A E → List E
  | .recv (.failed e) => [e]
  | .recv (.received ..) | .connect _ | .remove _ | .use .. => []

/-- The task runs, and the next datagram for a session goes to it. -/
structure Serves (E : Type) (hash : A → UInt64) (d : Datagram) : Prop where
  runs : d.receiving = true
  hands : ∀ addr data session, data.length ≤ 1500 → d.udpSessions (hash addr) = some session →
    (step (E := E) hash (.recv (.received addr data)) d).udpSessions (hash addr) =
      some (session.input data).1

variable {E : Type} {hash : A → UInt64} {d : Datagram}

theorem serves_of_receiving (h : d.receiving = true) : Serves E hash d where
  runs := h
  hands addr data session hle hsession := by
    simp only [step, recv, h, if_true, hsession, List.take_of_length_le hle,
      Function.update_self]

/-- Only a result of the socket touches the task. -/
theorem step_receiving {e : Event A E} (h : e.errors = []) :
    (step hash e d).receiving = d.receiving := by
  cases e with
  | recv r =>
    cases r with
    | received addr data =>
      simp only [step, recv]
      split
      · split <;> rfl
      · rfl
    | failed e => cases h
  | _ => rfl

theorem fragile (E : Type) (hash : A → UInt64) :
    Fragile (step (E := E) hash) (fun e => e.errors = []) (fun e => ∃ k, e = .recv (.failed k))
      (Serves E hash) new := by
  refine .of_invariants (I := fun d => d.receiving = true) (B := fun d => d.receiving = false)
    (fun d => serves_of_receiving) (fun d hd h => ?_) (fun d e hd he => ?_) ?_ (fun d e hd => ?_)
    rfl
  · rw [h.runs] at hd
    cases hd
  · exact (step_receiving he).trans hd
  · rintro d e - ⟨k, rfl⟩
    rfl
  · by_cases he : e.errors = []
    · exact (step_receiving he).trans hd
    · obtain ⟨k, rfl⟩ : ∃ k, e = .recv (.failed k) := by
        cases e with
        | recv r =>
          cases r with
          | received addr data => exact absurd rfl he
          | failed k => exact ⟨k, rfl⟩
        | _ => exact absurd rfl he
      rfl

end Fuso.Udp.Datagram

namespace Fuso.Kcp
open ThirdParty
open Udp (Datagram)

/-- As long as the socket reports no error the listener, the connector and `Datagram` hand every
datagram to its session. Behind the first error none of them does so again. -/
theorem demultiplexers_serve {A B S T : Type} (ops : SessionOps A S) (ops' : SessionOps Unit T)
    (hash : A → UInt64) (hash' : B → UInt64) (localAddr : Except IoKind A) :
    Fragile (KcpListener.step ops hash) (fun e => e.errors = [])
      (fun e => ∃ k io, e = .pollAccept (.failed k :: io)) (KcpListener.Serves ops hash)
      (.bind localAddr) ∧
    Fragile (KcpReceiver.step ops') (fun e => e.errors = []) (fun e => ∃ k, e = .io (.failed k))
      (KcpReceiver.Serves ops') .new ∧
    Fragile (Datagram.step (E := IoKind) hash') (fun e => e.errors = [])
      (fun e => ∃ k, e = .recv (.failed k)) (Datagram.Serves IoKind hash') .new :=
  ⟨KcpListener.fragile ops hash localAddr, KcpReceiver.fragile ops', Datagram.fragile IoKind hash'⟩

/-- Sessions that remember the last datagram. -/
def lastDatagram : SessionOps Unit Bytes where
  new _ _ := []
  input _ data := (data, .ok ())
  close session := session
  conv _ := 0
  target _ := none

/-- One error, as for a datagram that nobody received, and the listener has no future left. -/
theorem not_demultiplexers_serve : ¬ ∀ events, KcpListener.Serves lastDatagram (fun _ => 0)
    (after (KcpListener.step lastDatagram fun _ => 0) (.bind (.ok ())) events) := by
  intro h
  exact (h [.pollAccept [.failed (.other 111)]]).stored rfl

end Fuso.Kcp

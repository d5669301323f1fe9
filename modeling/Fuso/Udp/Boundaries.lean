import Fuso.Theory.Run
import Fuso.Udp.Session

/-!
# Datagram boundaries

What a virtual socket returns, next to the datagrams that arrived for it. A buffer of bytes does not
know where a datagram ends: `boundaries_iff` says that the datagrams come out as they went in
exactly when every receive finds its datagram alone in the buffer, or asks for just its length, and
none is empty.
-/

namespace Fuso.Udp

/-- A datagram arrives, or a task polls with a buffer of the size `cap`. -/
inductive Event where
  | input (data : Bytes)
  | recv (cx : Waker) (cap : Nat)
  | recvFrom (cx : Waker) (cap : Nat)

/-- The datagrams that arrive. -/
def Event.datagrams : Event → List Bytes
  | input data => [data]
  | recv .. | recvFrom .. => []

/-- The sizes of the buffers. -/
def Event.caps : Event → List Nat
  | input _ => []
  | recv _ cap | recvFrom _ cap => [cap]

/-- A socket, the datagrams input so far, what its receives returned, and whether one was `Pending`
while a datagram had not been returned. -/
structure Traced (A : Type) where
  socket : VirtualUdpSocket A
  input : List Bytes
  received : List Bytes
  starved : Bool

namespace Traced
variable {A : Type}

def new (peerAddr : A) : Traced A := ⟨⟨.new, peerAddr⟩, [], [], false⟩

/-- A receive is over. -/
def finish (t : Traced A) : VirtualUdpSocket A × ReadBuf × Poll (Result B) → Traced A
  | (socket, buf, .ready (.ok _)) => { t with socket, received := t.received ++ [buf.filled] }
  | (socket, _, .ready (.error _)) => { t with socket }
  | (socket, _, .pending) => { t with socket, starved := t.starved || t.received != t.input }

def step : Event → Traced A → Traced A
  | .input data, t => { t with
    socket.ucore := (t.socket.ucore.input data).1, input := t.input ++ [data] }
  | .recv cx cap, t => t.finish (t.socket.pollRecv cx (.new cap))
  | .recvFrom cx cap, t => t.finish (t.socket.pollRecvFrom cx (.new cap))

/-- The receives returned the datagrams in order, and waited only when there was none left. -/
def Kept (t : Traced A) : Prop := t.received <+: t.input ∧ t.starved = false

/-- The datagrams that have not been returned. -/
def queue (t : Traced A) : List Bytes := t.input.drop t.received.length

/-- A receive finds no datagram, or one that is not empty, with no bytes behind it or a buffer of
just its length. -/
def Apart (e : Event) (t : Traced A) : Prop :=
  ∀ cap ∈ e.caps, ∀ d ∈ t.queue.head?, d ≠ [] ∧ (cap = d.length ∨ t.queue.tail.flatten = [])

instance : Decidable (Apart e t) :=
  inferInstanceAs (Decidable (∀ cap ∈ e.caps, ∀ d ∈ t.queue.head?,
    d ≠ [] ∧ (cap = d.length ∨ t.queue.tail.flatten = [])))

theorem apart_of_queue {t : Traced A} (h : Apart e t) (hcap : cap ∈ e.caps)
    (hq : t.queue = d :: q) : d ≠ [] ∧ (cap = d.length ∨ q.flatten = []) := by
  have := h cap hcap d
  rw [hq] at this
  exact this rfl

/-- What a receive does. -/
theorem step_cases (t : Traced A) (hcap : cap ∈ e.caps) : ∃ socket,
    (t.socket.ucore.ubuf.contents = [] ∧ socket.ucore.ubuf = t.socket.ucore.ubuf ∧
      step e t = { t with socket, starved := t.starved || t.received != t.input }) ∨
    t.socket.ucore.ubuf.contents ≠ [] ∧
      socket.ucore.ubuf.contents = t.socket.ucore.ubuf.contents.drop cap ∧
      step e t = { t with
        socket, received := t.received ++ [t.socket.ucore.ubuf.contents.take cap] } := by
  cases e with
  | input data => cases hcap
  | recv cx cap' =>
    obtain rfl := List.mem_singleton.1 hcap
    rcases t.socket.ucore.pollRecv_cases cx cap with ⟨hnil, h⟩ | ⟨hne, ucore, buf, h, hbuf, hrest⟩
    · refine ⟨{ t.socket with ucore := { t.socket.ucore with uwaker := some cx } },
        .inl ⟨hnil, rfl, ?_⟩⟩
      simp only [step, VirtualUdpSocket.pollRecv, h, finish]
    · refine ⟨{ t.socket with ucore }, .inr ⟨hne, hrest, ?_⟩⟩
      simp only [step, VirtualUdpSocket.pollRecv, h, finish, hbuf]
  | recvFrom cx cap' =>
    obtain rfl := List.mem_singleton.1 hcap
    rcases t.socket.ucore.pollRecv_cases cx cap with ⟨hnil, h⟩ | ⟨hne, ucore, buf, h, hbuf, hrest⟩
    · refine ⟨{ t.socket with ucore := { t.socket.ucore with uwaker := some cx } },
        .inl ⟨hnil, rfl, ?_⟩⟩
      simp only [step, VirtualUdpSocket.pollRecvFrom, h, finish]
    · refine ⟨{ t.socket with ucore }, .inr ⟨hne, hrest, ?_⟩⟩
      simp only [step, VirtualUdpSocket.pollRecvFrom, h, finish, hbuf]

/-- The buffer holds the datagrams of the queue, which are among those that arrive. -/
structure Queued (arriving : List Bytes) (t : Traced A) : Prop where
  contents : t.socket.ucore.ubuf.contents = t.queue.flatten
  kept : t.Kept
  arrived : ∀ d ∈ t.input, d ∈ arriving

variable {t : Traced A} {arriving : List Bytes} {e : Event}

theorem Queued.input_eq (h : Queued arriving t) : t.input = t.received ++ t.queue :=
  (List.prefix_iff_eq_append.1 h.kept.1).symm

theorem Queued.mem (h : Queued arriving t) (hq : t.queue = d :: q) (hd : d' ∈ d :: q) :
    d' ∈ arriving := by
  refine h.arrived d' ?_
  rw [h.input_eq, hq]
  exact List.mem_append_right _ hd

theorem Queued.input (h : Queued arriving t) (hdata : data ∈ arriving) :
    Queued arriving (step (.input data) t) := by
  have hqueue : (step (.input data) t).queue = t.queue ++ [data] :=
    List.drop_append_of_le_length h.kept.1.length_le
  refine ⟨?_, ⟨h.kept.1.trans (List.prefix_append _ _), h.kept.2⟩, fun d hd => ?_⟩
  · rw [hqueue, List.flatten_append, List.flatten_singleton, ← h.contents]
    exact Buffer.contents_pushAll _ _
  · rcases List.mem_append.1 hd with hd | hd
    · exact h.arrived d hd
    · exact List.mem_singleton.1 hd ▸ hdata

/-- The receive returns the datagram, and the rest stays. -/
theorem take_datagram {d : Bytes} {q : List Bytes} (hle : d.length ≤ cap)
    (h : cap = d.length ∨ q.flatten = []) :
    (d ++ q.flatten).take cap = d ∧ (d ++ q.flatten).drop cap = q.flatten := by
  rcases h with rfl | h
  · exact ⟨List.take_left, List.drop_left⟩
  · rw [h, List.append_nil]
    exact ⟨List.take_of_length_le hle, List.drop_of_length_le hle⟩

theorem Queued.recv (h : Queued arriving t) (hcap : cap ∈ e.caps)
    (hle : ∀ d ∈ arriving, d.length ≤ cap) (hok : Apart e t) : Queued arriving (step e t) := by
  obtain ⟨socket, ⟨hnil, hubuf, hstep⟩ | ⟨hne, hrest, hstep⟩⟩ := t.step_cases hcap
  · have hqueue : t.queue = [] := by
      cases hq : t.queue with
      | nil => rfl
      | cons d q =>
        have hd := (apart_of_queue hok hcap hq).1
        rw [h.contents, hq, List.flatten_cons] at hnil
        exact absurd (List.append_eq_nil_iff.1 hnil).1 hd
    have hall : t.received = t.input := by rw [h.input_eq, hqueue, List.append_nil]
    rw [hstep]
    refine ⟨?_, ⟨h.kept.1, ?_⟩, h.arrived⟩
    · rw [hubuf]
      exact h.contents
    · simp [h.kept.2, hall]
  · cases hq : t.queue with
    | nil => exact absurd (by rw [h.contents, hq, List.flatten_nil]) hne
    | cons d q =>
      obtain ⟨-, halone⟩ := apart_of_queue hok hcap hq
      have hcontents : t.socket.ucore.ubuf.contents = d ++ q.flatten := by
        rw [h.contents, hq, List.flatten_cons]
      obtain ⟨htake, hdrop⟩ := take_datagram (hle d (h.mem hq List.mem_cons_self)) halone
      have hinput : t.input = (t.received ++ [d]) ++ q := by
        rw [List.append_assoc, h.input_eq, hq]
        rfl
      rw [hstep, hcontents, htake]
      refine ⟨?_, ⟨⟨q, hinput.symm⟩, h.kept.2⟩, h.arrived⟩
      rw [hrest, hcontents, hdrop, queue, hinput, List.drop_left]

/-- A receive that returns its datagram, and nothing else, finds it apart. -/
theorem Queued.apart (h : Queued arriving t) (hcap : cap ∈ e.caps)
    (hle : ∀ d ∈ arriving, d.length ≤ cap) (hkept : (step e t).Kept)
    (hq : t.queue = d :: q) : d ≠ [] ∧ (cap = d.length ∨ q.flatten = []) := by
  have hinput : t.input = t.received ++ d :: q := by rw [h.input_eq, hq]
  have hcontents : t.socket.ucore.ubuf.contents = d ++ q.flatten := by
    rw [h.contents, hq, List.flatten_cons]
  obtain ⟨socket, ⟨hnil, hubuf, hstep⟩ | ⟨hne, hrest, hstep⟩⟩ := t.step_cases hcap
  · have hstarved := hkept.2
    rw [hstep] at hstarved
    simp [hinput] at hstarved
  · have hpre := hkept.1
    rw [hstep, hcontents] at hpre
    simp only [hinput, List.prefix_append_right_inj, List.cons_prefix_cons, List.nil_prefix,
      and_true] at hpre
    have hlen := congrArg List.length hpre
    rw [List.length_take, List.length_append] at hlen
    have hdle := hle d (h.mem hq List.mem_cons_self)
    have halone : cap = d.length ∨ q.flatten = [] := by
      rw [← List.length_eq_zero_iff]
      omega
    refine ⟨fun hd => hne ?_, halone⟩
    rw [hcontents, hd, List.nil_append]
    rcases halone with rfl | hnil
    · -- no datagram is longer than the buffer, which is empty
      refine List.flatten_eq_nil_iff.2 fun d' hd' => List.length_eq_zero_iff.1 ?_
      have := hle d' (h.mem hq (List.mem_cons_of_mem _ hd'))
      rw [hd] at this
      exact Nat.le_zero.1 this
    · exact hnil

theorem queued_new (peerAddr : A) (arriving : List Bytes) : Queued arriving (new peerAddr) :=
  ⟨rfl, ⟨List.prefix_rfl, rfl⟩, by simp [new]⟩

/-- With buffers that hold every datagram, the datagrams come out as they went in exactly when every
receive finds its datagram apart. -/
theorem boundaries_iff (peerAddr : A) (events : List Event)
    (hle : ∀ cap ∈ events.flatMap Event.caps, ∀ d ∈ events.flatMap Event.datagrams,
      d.length ≤ cap) :
    (∀ pre, pre <+: events → (after step (new peerAddr) pre).Kept) ↔
      Admissible step Apart (new peerAddr) events := by
  refine after_iff_of_mem (I := Queued (events.flatMap Event.datagrams))
    (fun t h => h.kept) (fun t e he h hok => ?_) (fun t e he h hkept cap hcap d hd => ?_)
    (queued_new peerAddr _)
  · cases e with
    | input data =>
      exact h.input (List.mem_flatMap.2 ⟨_, he, List.mem_singleton.2 rfl⟩)
    | recv cx cap =>
      have hcap : cap ∈ (Event.recv cx cap).caps := List.mem_singleton.2 rfl
      exact h.recv hcap (hle cap (List.mem_flatMap.2 ⟨_, he, hcap⟩)) hok
    | recvFrom cx cap =>
      have hcap : cap ∈ (Event.recvFrom cx cap).caps := List.mem_singleton.2 rfl
      exact h.recv hcap (hle cap (List.mem_flatMap.2 ⟨_, he, hcap⟩)) hok
  · exact h.apart hcap (hle cap (List.mem_flatMap.2 ⟨_, he, hcap⟩)) hkept
      (List.eq_cons_of_mem_head? hd)

/-- Each datagram is received before the next one arrives. -/
theorem boundaries_iff_alternate : (after step (new 7)
    [.input [1, 2], .recv 0 10, .recv 0 10, .input [3], .recvFrom 0 10]).Kept :=
  (boundaries_iff 7 _ (by decide)).2 (by decide) _ List.prefix_rfl

/-- Two datagrams that arrive before the first receive come out as one. -/
theorem not_boundaries : ¬ ∀ events : List Event,
    (∀ cap ∈ events.flatMap Event.caps, ∀ d ∈ events.flatMap Event.datagrams, d.length ≤ cap) →
      ∀ pre, pre <+: events → (after step (new ()) pre).Kept := by
  intro h
  have hkept := h [.input [1], .input [2], .recv 0 10] (by decide) _ List.prefix_rfl
  exact absurd hkept.1 (by decide)

end Traced
end Fuso.Udp

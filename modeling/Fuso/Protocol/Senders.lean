import Fuso.Async.Sink
import Fuso.Protocol.Recv
import Fuso.Theory.Run

/-!
# Senders that share a stream

`WriteHalf` keeps its stream in a mutex, its clones share it, and a `poll_write` holds the mutex
while it lasts. `Senders` are any number of `send_packet`s through clones of one `WriteHalf`; `turn`
is a turn of one of them, so that a list of turns is any order of their polls and any way they
interleave. On a plain stream the packets stay whole if the stream takes nothing from a sender while
another one is in the middle of its packet (`Plain.Inv`).
-/

namespace Fuso
open Turn

/-! ## The senders -/

/-- The stream in the mutex. -/
structure WriteHalf (W : Type u) where
  inner : W
  deriving DecidableEq

instance [AsyncWrite W] : AsyncWrite (WriteHalf W) where
  pollWrite self buf :=
    let (inner, poll) := pollWrite self.inner buf
    (⟨inner⟩, poll)
  pollClose self :=
    let (inner, poll) := pollClose self.inner
    (⟨inner⟩, poll)

/-- A task that sends a packet: its `SendPacket` is `offset` bytes into the encoding, and `result`
is there when it was ready. -/
structure Sender where
  packet : Packet
  offset : Nat
  result : Option (Result Unit)
  deriving DecidableEq

def Sender.send (x : Sender) : SendPacket := ⟨x.packet.encode, x.offset⟩

structure Senders (W : Type u) where
  writer : WriteHalf W
  senders : List Sender

namespace Senders
variable {W : Type u}

def start (ps : List Packet) (inner : W) : Senders W where
  writer := ⟨inner⟩
  senders := ps.map fun p => ⟨p, 0, none⟩

/-- The senders behind a turn of `x`, which is the sender `i`. -/
def leave (s : Senders W) (i : Nat) (x : Sender) :
    Turn (SendPacket × WriteHalf W) (Result Unit) → Senders W
  | .again (send, writer) | .pending (send, writer) =>
    ⟨writer, s.senders.set i { x with offset := send.offset }⟩
  | .ready (send, writer) r =>
    ⟨writer, s.senders.set i { x with offset := send.offset, result := some r }⟩

/-- A turn of the sender `i`, unless it was ready. -/
def turn [AsyncWrite W] (i : Nat) (s : Senders W) : Senders W :=
  match s.senders[i]? with
  | none => s
  | some x => if x.result.isSome then s else s.leave i x (SendPacket.step (x.send, s.writer))

/-- The packets whose send returned `Ok`. -/
def returned (s : Senders W) : List Packet :=
  (s.senders.filter fun x => x.result = some (.ok ())).map (·.packet)

/-- What reads `wire` at the other end gets the packets whose send returned `Ok`, each of them once
and as it was sent, and nothing else. -/
def Uncorrupted [AsyncRead R] (peer : Bytes → List Answer → R) (wire : Bytes) (s : Senders W) :
    Prop :=
  ∃ order, order.Perm s.returned ∧ Decodes peer wire order

/-! ## What a turn does -/

section
variable [AsyncWrite W] {s : Senders W} {x : Sender} {inner : W}

theorem turn_finished (h : ∀ x, s.senders[i]? = some x → x.result ≠ none) : turn i s = s := by
  unfold turn
  split
  · rfl
  · next x hx => rw [if_pos (Option.isSome_iff_ne_none.2 (h x hx))]

theorem turn_pending (hx : s.senders[i]? = some x) (hr : x.result = none)
    (h : pollWrite s.writer.inner (x.packet.encode.drop x.offset) = (inner, .pending)) :
    turn i s = ⟨⟨inner⟩, s.senders⟩ := by
  have hset : s.senders.set i x = s.senders := set_eq_self hx
  cases x
  cases hr
  simpa [turn, leave, hx, SendPacket.step, Sender.send, AsyncWrite.pollWrite, h] using hset

theorem turn_ok (hx : s.senders[i]? = some x) (hr : x.result = none)
    (h : pollWrite s.writer.inner (x.packet.encode.drop x.offset) = (inner, .ready (.ok n))) :
    turn i s = ⟨⟨inner⟩, s.senders.set i { x with
      offset := x.offset + n
      result := if x.offset + n = x.packet.encode.length then some (.ok ()) else none }⟩ := by
  by_cases hn : x.offset + n = x.packet.encode.length <;>
    simp [turn, leave, hx, hr, SendPacket.step, Sender.send, AsyncWrite.pollWrite, h, hn]

theorem turn_zero (hx : s.senders[i]? = some x) (hr : x.result = none)
    (hlt : x.offset < x.packet.encode.length)
    (h : pollWrite s.writer.inner (x.packet.encode.drop x.offset) = (inner, .ready (.ok 0))) :
    turn i s = ⟨⟨inner⟩, s.senders⟩ := by
  have hset : s.senders.set i x = s.senders := set_eq_self hx
  rw [turn_ok hx hr h, Nat.add_zero, if_neg (Nat.ne_of_lt hlt)]
  cases x
  cases hr
  rw [hset]

theorem turn_error (hx : s.senders[i]? = some x) (hr : x.result = none)
    (h : pollWrite s.writer.inner (x.packet.encode.drop x.offset) = (inner, .ready (.error e))) :
    turn i s = ⟨⟨inner⟩, s.senders.set i { x with result := some (.error e) }⟩ := by
  simp [turn, leave, hx, hr, SendPacket.step, Sender.send, AsyncWrite.pollWrite, h]

/-- A poll is turns of the sender without one of another sender between them. -/
theorem poll_eq_after (n : Nat) (hx : s.senders[i]? = some x) (hr : x.result = none) :
    ∃ k, after turn s (.replicate k i) =
      s.leave i x (poll SendPacket.step n (x.send, s.writer)) := by
  induction n generalizing s x with
  | zero =>
    exact ⟨0, by simp [poll, leave, Sender.send, set_eq_self hx]⟩
  | succ n ih =>
    have hturn : turn i s = s.leave i x (SendPacket.step (x.send, s.writer)) := by
      simp [turn, hx, hr]
    cases hstep : SendPacket.step (x.send, s.writer) with
    | again next =>
      obtain ⟨send, writer⟩ := next
      let x' : Sender := { x with offset := send.offset }
      let s' : Senders W := ⟨writer, s.senders.set i x'⟩
      have hsend : x'.send = send :=
        congrArg (SendPacket.mk · send.offset) (SendPacket.buf_step hstep).symm
      obtain ⟨k, hk⟩ := ih (s := s') (x := x')
        (List.getElem?_set_self (List.getElem?_eq_some_iff.1 hx).1) hr
      have hleave : ∀ t, s'.leave i x' t = s.leave i x t := fun t => by
        cases t <;> simp [leave, s', x']
      refine ⟨k + 1, ?_⟩
      rw [hsend, hleave] at hk
      rw [List.replicate_succ, after_cons, hturn, hstep, poll, hstep]
      exact hk
    | pending next =>
      exact ⟨1, by simp only [List.replicate_one, after_cons, after_nil, hturn, hstep, poll]⟩
    | ready next r =>
      exact ⟨1, by simp only [List.replicate_one, after_cons, after_nil, hturn, hstep, poll]⟩

end

section
variable {s : Senders W} {x x' : Sender} {writer : WriteHalf W}

theorem exists_split (hx : s.senders[i]? = some x) : ∃ l₁ l₂, s.senders = l₁ ++ x :: l₂ ∧
    ∀ x', s.senders.set i x' = l₁ ++ x' :: l₂ := by
  obtain ⟨hi, rfl⟩ := List.getElem?_eq_some_iff.1 hx
  refine ⟨s.senders.take i, s.senders.drop (i + 1), ?_, fun x' => ?_⟩
  · rw [List.getElem_cons_drop, List.take_append_drop]
  · rw [List.set_eq_take_append_cons_drop, if_pos hi]

/-- A sender that goes on sends the same packet, and joins those that returned when it is ready. -/
theorem returned_set (hx : s.senders[i]? = some x) (hr : x.result = none)
    (hp : x'.packet = x.packet) :
    (returned ⟨writer, s.senders.set i x'⟩).Perm
      (if x'.result = some (.ok ()) then x.packet :: s.returned else s.returned) := by
  obtain ⟨l₁, l₂, hs, hset⟩ := exists_split hx
  rw [returned, returned, hset, hs]
  by_cases hok : x'.result = some (.ok ())
  · simp [hok, hr, hp]
  · simp [hok, hr]

theorem packets_set (hx : s.senders[i]? = some x) (hp : x'.packet = x.packet) :
    (s.senders.set i x').map (·.packet) = s.senders.map (·.packet) := by
  obtain ⟨l₁, l₂, hs, hset⟩ := exists_split hx
  rw [hset, hs]
  simp [hp]

theorem mem_of_perm_returned {order : List Packet} (h : order.Perm s.returned) (hp : p ∈ order) :
    p ∈ s.senders.map (·.packet) := by
  obtain ⟨x, hx, rfl⟩ := List.mem_map.1 (h.mem_iff.1 hp)
  exact List.mem_map_of_mem (List.mem_of_mem_filter hx)

theorem returned_start (ps : List Packet) (inner : W) : (start ps inner).returned = [] := by
  simp [returned, start, List.filter_map, Function.comp_def]

end
end Senders

/-! ## A plain stream -/

namespace Plain
open Senders

def peer (wire : Bytes) (reads : List Answer) : Duplex := ⟨wire, reads, [], [], []⟩

/-- The bytes of its packet that a sender has written, until it is ready. -/
def started (s : Senders Sink) (i : Nat) : Bytes :=
  match s.senders[i]? with
  | some x => if x.result = none then x.packet.encode.take x.offset else []
  | none => []

/-- No sender but `i` is in the middle of its packet. -/
def Alone (i : Nat) (s : Senders Sink) : Prop :=
  ∀ j x, j ≠ i → s.senders[j]? = some x → x.result = none → x.offset = 0

instance (i : Nat) (s : Senders Sink) : Decidable (Alone i s) :=
  decidable_of_iff (∀ j, ∀ h : j < s.senders.length, j ≠ i → s.senders[j].result = none →
      s.senders[j].offset = 0)
    ⟨fun h j x hne hx hr => by
      obtain ⟨hj, rfl⟩ := List.getElem?_eq_some_iff.1 hx
      exact h j hj hne hr,
    fun h j hj hne => h j _ hne (List.getElem?_eq_getElem hj)⟩

/-- The turn of `i` does not write into the packet of another sender. -/
def Clear (i : Nat) (s : Senders Sink) : Prop := s.writer.inner.takes → Alone i s

instance (i : Nat) (s : Senders Sink) : Decidable (Clear i s) :=
  inferInstanceAs (Decidable (_ → _))

/-- The packets that returned are on the wire, one behind the other, and behind them is at most the
beginning of another one. -/
structure Inv (ps : List Packet) (s : Senders Sink) : Prop where
  packets : s.senders.map (·.packet) = ps
  short : ∀ x ∈ s.senders, x.result = none → x.offset < x.packet.encode.length
  wire : ∃ (order : List Packet) (i : Nat), order.Perm s.returned ∧
    s.writer.inner.sent = (order.map Packet.encode).flatten ++ started s i ∧ Alone i s

theorem inv_start (hps : ∀ p ∈ ps, Packet.WellFormed p) (room : List (Poll Nat)) :
    Inv ps (start ps ⟨room, []⟩) := by
  refine ⟨by simp [start, Function.comp_def], fun x hx _ => ?_, [], 0, ?_, ?_, ?_⟩
  · obtain ⟨p, hp, rfl⟩ := List.mem_map.1 hx
    exact List.length_pos_iff.2 (hps p hp).encode_ne_nil
  · rw [returned_start]
  · cases ps <;> simp [started, start]
  · intro j x _ hx _
    obtain ⟨p, -, rfl⟩ : ∃ p, ps[j]? = some p ∧ (⟨p, 0, none⟩ : Sender) = x := by
      simpa [start] using hx
    rfl

theorem started_some (hx : s.senders[i]? = some x) (hr : x.result = none) :
    started s i = x.packet.encode.take x.offset := by
  simp only [started, hx, if_pos hr]

theorem started_ready (hx : s.senders[i]? = some x) (hr : x.result ≠ none) : started s i = [] := by
  simp only [started, hx, if_neg hr]

theorem Alone.started_eq_nil (h : Alone i s) (hne : j ≠ i) : started s j = [] := by
  unfold started
  split
  · next x hx =>
    split
    · next hr => rw [h j x hne hx hr, List.take_zero]
    · rfl
  · rfl

/-- Who is alone is in the middle of a packet if anyone is. -/
theorem started_eq (h : Alone i s) (hc : Alone c s) : started s c = started s i := by
  by_cases hci : c = i
  · rw [hci]
  · rw [h.started_eq_nil hci, hc.started_eq_nil (Ne.symm hci)]

theorem Alone.set (h : Alone i s) (writer : WriteHalf Sink) (x : Sender) :
    Alone i ⟨writer, s.senders.set i x⟩ := by
  intro j y hne hy hr
  rw [List.getElem?_set_ne (Ne.symm hne)] at hy
  exact h j y hne hy hr

theorem Inv.turn (h : Inv ps s) (hok : Clear i s) : Inv ps (turn i s) := by
  obtain ⟨hpackets, hshort, order, c, horder, hsent, halone⟩ := h
  by_cases hx : ∃ x, s.senders[i]? = some x ∧ x.result = none
  · obtain ⟨x, hx, hr⟩ := hx
    have hlt := hshort x (List.mem_of_getElem? hx) hr
    have hne : x.packet.encode.drop x.offset ≠ [] := by simpa using hlt
    obtain ⟨room, hw | hw | ⟨htakes, k, hk, hle, hw⟩⟩ := s.writer.inner.pollWrite_cases hne
    · rw [turn_pending hx hr hw]
      exact ⟨hpackets, hshort, order, c, horder, hsent, halone⟩
    · rw [turn_zero hx hr hlt hw]
      exact ⟨hpackets, hshort, order, c, horder, hsent, halone⟩
    · have hi := hok htakes
      have hpart : s.writer.inner.sent ++ (x.packet.encode.drop x.offset).take k =
          (order.map Packet.encode).flatten ++ x.packet.encode.take (x.offset + k) := by
        rw [hsent, started_eq hi halone, started_some hx hr, List.append_assoc, ← List.take_add]
      rw [List.length_drop] at hle
      let x' : Sender := { x with
        offset := x.offset + k
        result := if x.offset + k = x.packet.encode.length then some (.ok ()) else none }
      let sent' := s.writer.inner.sent ++ (x.packet.encode.drop x.offset).take k
      let s' : Senders Sink := ⟨⟨⟨room, sent'⟩⟩, s.senders.set i x'⟩
      have hturn : Senders.turn i s = s' := turn_ok hx hr hw
      have hret : s'.returned.Perm
          (if x'.result = some (.ok ()) then x.packet :: s.returned else s.returned) :=
        returned_set hx hr rfl
      have hset : s'.senders[i]? = some x' :=
        List.getElem?_set_self (List.getElem?_eq_some_iff.1 hx).1
      rw [hturn]
      have hpackets' : s'.senders.map (·.packet) = ps :=
        (packets_set hx (show x'.packet = x.packet from rfl)).trans hpackets
      refine ⟨hpackets', fun y hy hyr => ?_, ?_⟩
      · rcases List.mem_or_eq_of_mem_set hy with hy | rfl
        · exact hshort y hy hyr
        · have hnot : x.offset + k ≠ x.packet.encode.length := fun hfull => by
            simp [x', hfull] at hyr
          show x.offset + k < x.packet.encode.length
          omega
      · by_cases hfull : x.offset + k = x.packet.encode.length
        · have hready : x'.result = some (.ok ()) := if_pos hfull
          rw [if_pos hready] at hret
          refine ⟨order ++ [x.packet], i, ?_, ?_, hi.set _ x'⟩
          · exact (List.perm_append_singleton _ _).trans ((horder.cons _).trans hret.symm)
          · rw [started_ready hset (by simp [hready])]
            refine hpart.trans ?_
            rw [hfull, List.take_length]
            simp
        · have hnone : x'.result = none := if_neg hfull
          rw [if_neg (by simp [hnone])] at hret
          refine ⟨order, i, horder.trans hret.symm, ?_, hi.set _ x'⟩
          rw [started_some hset hnone]
          exact hpart
  · rw [turn_finished fun x hx' hr => hx ⟨x, hx', hr⟩]
    exact ⟨hpackets, hshort, order, c, horder, hsent, halone⟩

theorem Inv.open_started (h : Inv ps s) (hps : ∀ p ∈ ps, p.WellFormed) (i : Nat) :
    packetFormat.Open (started s i) := by
  have hnil : packetFormat.Open [] := Format.open_nil (by decide)
  unfold started
  split
  · next x hx =>
    have hmem := List.mem_of_getElem? hx
    have hp := hps x.packet (h.packets ▸ List.mem_map_of_mem hmem)
    split
    · next hr =>
      have hlt := h.short x hmem hr
      have hpart : x.packet.encode.take x.offset <+: x.packet.encode := List.take_prefix _ _
      exact hp.frame.open_of_lt hpart (by rw [List.length_take]; omega)
    · exact hnil
  · exact hnil

theorem Inv.uncorrupted (h : Inv ps s) (hps : ∀ p ∈ ps, p.WellFormed) :
    Uncorrupted peer s.writer.inner.sent s := by
  obtain ⟨order, i, horder, hsent, -⟩ := h.wire
  have hwf : ∀ p ∈ order, p.WellFormed := fun p hp =>
    hps p (h.packets ▸ mem_of_perm_returned horder hp)
  have hstream : packetFormat.Stream (order.map Packet.encode) s.writer.inner.sent :=
    hsent ▸ stream_packets hwf (h.open_started hps i)
  exact ⟨order, horder, decodes_of_stream hwf hstream (S := Duplex.source) (fun _ => rfl)
    fun _ hle => hle⟩

/-- What a run leaves on the wire. -/
theorem uncorrupted_of_admissible (hps : ∀ p ∈ ps, p.WellFormed) {room : List (Poll Nat)}
    {events : List Nat} (hok : Admissible Senders.turn Clear (start ps ⟨room, []⟩) events) :
    let s := after Senders.turn (start ps (⟨room, []⟩ : Sink)) events
    Uncorrupted peer s.writer.inner.sent s :=
  (after_guarded (fun _ _ => Inv.turn) (inv_start hps room) hok).uncorrupted hps

end Plain
end Fuso

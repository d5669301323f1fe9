import Fuso.Kcp.Messages
import Fuso.Theory.Arq

/-!
# What an endpoint says

A conversation has two directions, each of them an automatic repeat request over the segments that
were queued. `Speaks` relates the control block of an endpoint to the two: it has the segments that
are not acknowledged, it has what was received, and what it has written says only what is so
(`Honest`).
-/

namespace Fuso.ThirdParty

/-- The two directions of a conversation, as an endpoint sees them. -/
structure Dialogue where
  /-- The one it sends in. -/
  out : Arq.State KcpSegment
  /-- The one it receives in. -/
  inc : Arq.State KcpSegment

/-- The peer sees them the other way round. -/
def Dialogue.swap (v : Dialogue) : Dialogue := ⟨v.inc, v.out⟩

/-- The endpoint goes on. -/
structure Dialogue.Leads (v v' : Dialogue) : Prop where
  out : Arq.Sending v.out v'.out
  inc : Arq.Receiving v.inc v'.inc

theorem Dialogue.Leads.refl (v : Dialogue) : v.Leads v := ⟨.refl, .refl⟩

theorem Dialogue.Leads.trans {v₁ v₂ v₃ : Dialogue} (h : v₁.Leads v₂) (h' : v₂.Leads v₃) :
    v₁.Leads v₃ :=
  ⟨h.out.trans h'.out, h.inc.trans h'.inc⟩

/-- The parts of a segment that stay when it is sent again. -/
def KcpSegment.carried (s : KcpSegment) : KcpSegment :=
  { conv := s.conv, cmd := s.cmd, frg := s.frg, sn := s.sn, data := s.data }

section
variable {conv : UInt32} {v v' : Dialogue} {s s' : KcpSegment}

/-- What a segment says by its command, when an endpoint with the view `v` has sent it. -/
inductive Content (v : Dialogue) (s : KcpSegment) : Prop where
  | push (i : Nat) (a : KcpSegment) (cmd : s.cmd = cmdPush) (sn : s.sn = .ofNat i)
    (there : .data i a ∈ v.out.network) (data : s.data = a.data) (frg : s.frg = a.frg)
  | ack (i : Nat) (cmd : s.cmd = cmdAck) (sn : s.sn = .ofNat i) (there : .ack i ∈ v.inc.network)
  | control (cmd : s.cmd = cmdWask ∨ s.cmd = cmdWins ∨ s.cmd = cmdCls ∨ s.cmd = cmdClf)

/-- A segment of the conversation that says what is so. -/
structure Honest (conv : UInt32) (v : Dialogue) (s : KcpSegment) : Prop where
  conv_eq : s.conv = conv
  una : ∃ m, s.una = .ofNat m ∧ .upTo m ∈ v.inc.network
  length_le : s.data.length ≤ 1376
  content : Content v s

/-- A packet of such segments, of the size `mtu` at most. -/
def HonestPacket (conv : UInt32) (v : Dialogue) (packet : Bytes) : Prop :=
  ∃ segs : List KcpSegment, packet = segs.flatMap (·.encode) ∧ (∀ s ∈ segs, Honest conv v s) ∧
    packet.length ≤ 1400

/-- What was said stays said. -/
structure Dialogue.Within (v v' : Dialogue) : Prop where
  out : v.out.network ⊆ v'.out.network
  inc : v.inc.network ⊆ v'.inc.network

theorem Dialogue.Leads.within (h : v.Leads v') : v.Within v' :=
  ⟨h.out.frame.network, h.inc.frame.network⟩

theorem Dialogue.Leads.within_swap (h : v.Leads v') : v.swap.Within v'.swap :=
  ⟨h.inc.frame.network, h.out.frame.network⟩

theorem Content.mono (h : Content v s) (hv : v.Within v') : Content v' s := by
  cases h with
  | push i a cmd sn there data frg => exact .push i a cmd sn (hv.out there) data frg
  | ack i cmd sn there => exact .ack i cmd sn (hv.inc there)
  | control cmd => exact .control cmd

theorem Honest.mono (h : Honest conv v s) (hv : v.Within v') : Honest conv v' s where
  conv_eq := h.conv_eq
  una := h.una.imp fun _ hm => hm.imp_right (@hv.inc _)
  length_le := h.length_le
  content := h.content.mono hv

theorem Honest.wire {s : KcpSegment} (h : Honest conv v s) : Honest conv v s.wire where
  conv_eq := h.conv_eq
  una := h.una
  length_le := h.length_le
  content := by
    cases h.content with
    | push i a cmd sn there data frg => exact .push i a cmd sn there data frg
    | ack i cmd sn there => exact .ack i cmd sn there
    | control cmd => exact .control cmd

theorem HonestPacket.mono (h : HonestPacket conv v packet) (hv : v.Within v') :
    HonestPacket conv v' packet := by
  obtain ⟨segs, hpacket, hsegs, hlen⟩ := h
  exact ⟨segs, hpacket, fun s hs => (hsegs s hs).mono hv, hlen⟩

theorem honestPacket_nil : HonestPacket conv v [] := ⟨[], rfl, by simp, by simp⟩

theorem HonestPacket.append (h : HonestPacket conv v packet) (hs : Honest conv v s)
    (hlen : packet.length + (overhead + s.data.length) ≤ 1400) :
    HonestPacket conv v (packet ++ s.encode) := by
  obtain ⟨segs, rfl, hsegs, -⟩ := h
  refine ⟨segs ++ [s], by simp, fun s' hs' => ?_, ?_⟩
  · rcases List.mem_append.1 hs' with hs' | hs'
    · exact hsegs s' hs'
    · exact List.mem_singleton.1 hs' ▸ hs
  · rw [List.length_append, s.length_encode]
    exact hlen

end

namespace Kcp
variable {conv : UInt32} {k k' : Kcp} {seg seg' : KcpSegment} {nxt : Nat} {done : Bytes}

/-- The sender has the segment, and has offered it. -/
structure Kept (conv : UInt32) (s : Arq.State KcpSegment) (seg : KcpSegment) : Prop where
  conv_eq : seg.conv = conv
  cmd : seg.cmd = cmdPush
  length_le : seg.data.length ≤ 1376
  offered : ∃ i a, .data i a ∈ s.network ∧ seg.sn = .ofNat i ∧ seg.data = a.data ∧ seg.frg = a.frg

/-- The control block as the sender of a direction. -/
structure Sender (conv : UInt32) (s : Arq.State KcpSegment) (k : Kcp) : Prop where
  sent_le : s.sent ≤ s.queue.length
  sndNxt_eq : k.sndNxt = .ofNat s.sent
  queue_eq : k.sndQueue = s.queue.drop s.sent
  kept : ∀ seg ∈ k.sndBuf, Kept conv s seg
  unacked : ∀ i ∈ s.unacked, ∃ seg ∈ k.sndBuf, seg.sn = .ofNat i
  length_le : ∀ a ∈ s.queue, a.data.length ≤ 1376

/-- The segment with the number `i` was received. -/
def Got (nxt : Nat) (k : Kcp) (i : Nat) : Prop :=
  i < nxt ∨ ∃ seg ∈ k.rcvBuf, nxt + offset nxt seg.sn = i

/-- The control block as the receiver of a direction, which is in front of the segment `nxt` and has
handed out the bytes `done`. -/
structure Receiver (s : Arq.State KcpSegment) (nxt : Nat) (done : Bytes) (k : Kcp) : Prop where
  holds : k.Holds s.queue nxt done
  received : ∀ i, (s.received i).isSome ↔ k.Got nxt i
  upTo : .upTo nxt ∈ s.network
  /-- This was known from the start. -/
  upTo_zero : .upTo 0 ∈ s.network
  acks : ∀ p ∈ k.acklist, ∃ i, p.1 = .ofNat i ∧ .ack i ∈ s.network

/-- The control block as an endpoint of a conversation. -/
structure Speaks (conv : UInt32) (v : Dialogue) (nxt : Nat) (done : Bytes) (k : Kcp) : Prop where
  conv_eq : k.conv = conv
  inputConv_eq : k.inputConv = false
  mtu_eq : k.mtu = 1400
  mss_eq : k.mss = 1376
  stream_eq : k.stream = false
  sender : Sender conv v.out k
  receiver : Receiver v.inc nxt done k
  buf : HonestPacket conv v k.buf

/-- What is sent and to be sent. -/
structure Flight where
  sndNxt : UInt32
  sndQueue : List KcpSegment
  sndBuf : List KcpSegment

def flight (k : Kcp) : Flight := ⟨k.sndNxt, k.sndQueue, k.sndBuf.map (·.carried)⟩

/-- What `Speaks` is about. -/
structure Spoken where
  mtu : Nat
  mss : UInt32
  stream : Bool
  flight : Flight
  received : Standing
  acklist : List (UInt32 × UInt32)
  buf : Bytes

def spoken (k : Kcp) : Spoken :=
  ⟨k.mtu, k.mss, k.stream, k.flight, k.standing.received.1, k.acklist, k.buf⟩

theorem Kept.congr {s : Arq.State KcpSegment} (h : Kept conv s seg)
    (hseg : seg'.carried = seg.carried) : Kept conv s seg' where
  conv_eq := (congrArg KcpSegment.conv hseg).trans h.conv_eq
  cmd := (congrArg KcpSegment.cmd hseg).trans h.cmd
  length_le := (congrArg (·.data.length) hseg).trans_le h.length_le
  offered := by
    obtain ⟨i, a, hthere, hsn, hdata, hfrg⟩ := h.offered
    exact ⟨i, a, hthere, (congrArg KcpSegment.sn hseg).trans hsn,
      (congrArg KcpSegment.data hseg).trans hdata, (congrArg KcpSegment.frg hseg).trans hfrg⟩

theorem Kept.mono {s s' : Arq.State KcpSegment} (h : Kept conv s seg)
    (hs : s.network ⊆ s'.network) : Kept conv s' seg where
  conv_eq := h.conv_eq
  cmd := h.cmd
  length_le := h.length_le
  offered := by
    obtain ⟨i, a, hthere, hsame⟩ := h.offered
    exact ⟨i, a, hs hthere, hsame⟩

theorem exists_carried {buf buf' : List KcpSegment}
    (h : buf'.map (·.carried) = buf.map (·.carried)) (hseg : seg ∈ buf) :
    ∃ seg' ∈ buf', seg'.carried = seg.carried := by
  have hmem : seg.carried ∈ buf'.map (·.carried) := h ▸ List.mem_map_of_mem hseg
  exact List.mem_map.1 hmem

theorem Sender.congr {s : Arq.State KcpSegment} (h : Sender conv s k) (hk : k'.flight = k.flight) :
    Sender conv s k' := by
  have hbuf : k'.sndBuf.map (·.carried) = k.sndBuf.map (·.carried) := congrArg Flight.sndBuf hk
  refine ⟨h.sent_le, (congrArg Flight.sndNxt hk).trans h.sndNxt_eq,
    (congrArg Flight.sndQueue hk).trans h.queue_eq, fun seg hseg => ?_, fun i hi => ?_,
    h.length_le⟩
  · obtain ⟨seg', hseg', hcarried⟩ := exists_carried hbuf.symm hseg
    exact (h.kept seg' hseg').congr hcarried.symm
  · obtain ⟨seg, hseg, hsn⟩ := h.unacked i hi
    obtain ⟨seg', hseg', hcarried⟩ := exists_carried hbuf hseg
    exact ⟨seg', hseg', (congrArg KcpSegment.sn hcarried).trans hsn⟩

theorem Receiver.congr {s : Arq.State KcpSegment} (h : Receiver s nxt done k)
    (hk : k'.standing.received.1 = k.standing.received.1) (hacks : k'.acklist ⊆ k.acklist) :
    Receiver s nxt done k' := by
  have hbuf : k'.rcvBuf = k.rcvBuf := congrArg Standing.rcvBuf hk
  refine ⟨h.holds.congr hk, fun i => ?_, h.upTo, h.upTo_zero, fun p hp => h.acks p (hacks hp)⟩
  rw [h.received i, Got, Got, hbuf]

theorem Speaks.congr {v : Dialogue} (h : Speaks conv v nxt done k) (hk : k'.spoken = k.spoken) :
    Speaks conv v nxt done k' where
  conv_eq := (congrArg (·.received.conv) hk).trans h.conv_eq
  inputConv_eq := (congrArg (·.received.inputConv) hk).trans h.inputConv_eq
  mtu_eq := (congrArg Spoken.mtu hk).trans h.mtu_eq
  mss_eq := (congrArg Spoken.mss hk).trans h.mss_eq
  stream_eq := (congrArg Spoken.stream hk).trans h.stream_eq
  sender := h.sender.congr (congrArg Spoken.flight hk)
  receiver :=
    have hacks : k'.acklist = k.acklist := congrArg Spoken.acklist hk
    h.receiver.congr (congrArg Spoken.received hk) (hacks ▸ List.Subset.refl _)
  buf := by
    have hbuf : k'.buf = k.buf := congrArg Spoken.buf hk
    exact hbuf ▸ h.buf

/-- Segments are put into the queue. -/
theorem Speaks.push {v : Dialogue} (h : Speaks conv v nxt done k) (items : List KcpSegment)
    (hitems : ∀ a ∈ items, a.data.length ≤ 1376) :
    ∃ v', v.Leads v' ∧ v'.out.queue = v.out.queue ++ items ∧
      Speaks conv v' nxt done { k with sndQueue := k.sndQueue ++ items } := by
  have hs := Arq.Sends.push v.out items
  refine ⟨⟨_, v.inc⟩, ⟨.single hs, .refl⟩, rfl, { h with sender := ?_, receiver := ?_, buf := ?_ }⟩
  · refine ⟨?_, h.sender.sndNxt_eq, ?_, fun seg hseg => (h.sender.kept seg hseg).mono fun _ => id,
      h.sender.unacked, fun a ha => ?_⟩
    · exact h.sender.sent_le.trans (List.prefix_append _ _).length_le
    · rw [List.drop_append_of_le_length h.sender.sent_le, ← h.sender.queue_eq]
    · exact (List.mem_append.1 ha).elim (h.sender.length_le a) (hitems a)
  · exact h.receiver.congr rfl (List.Subset.refl _)
  · exact h.buf.mono ⟨fun _ => id, fun _ => id⟩

theorem Speaks.with_buf {v : Dialogue} (h : Speaks conv v nxt done k) {buf : Bytes}
    (hbuf : HonestPacket conv v buf) : Speaks conv v nxt done { k with buf } :=
  { h with
    sender := h.sender.congr rfl
    receiver := h.receiver.congr rfl (List.Subset.refl _)
    buf := hbuf }

/-! ## What the peer does -/

theorem Sender.receiving {s s' : Arq.State KcpSegment} (h : Sender conv s k)
    (hs : Arq.Receiving s s') : Sender conv s' k where
  sent_le := by rw [hs.frame.sent, hs.frame.queue]; exact h.sent_le
  sndNxt_eq := h.sndNxt_eq.trans (by rw [hs.frame.sent])
  queue_eq := h.queue_eq.trans (by rw [hs.frame.queue, hs.frame.sent])
  kept seg hseg := (h.kept seg hseg).mono hs.frame.network
  unacked i hi := h.unacked i (hs.frame.unacked ▸ hi)
  length_le := hs.frame.queue ▸ h.length_le

theorem Holds.mono {segs segs' : List KcpSegment} (h : k.Holds segs nxt done)
    (hsegs : segs <+: segs') : k.Holds segs' nxt done where
  rcvNxt_eq := h.rcvNxt_eq
  rcvWnd_eq := h.rcvWnd_eq
  nxt_le := h.nxt_le.trans hsegs.length_le
  queue := by
    obtain ⟨more, rfl⟩ := hsegs
    rw [h.queue, List.take_append_of_le_length h.nxt_le]
  buffered := by
    refine ⟨fun s hs => ?_, h.buffered.sorted⟩
    obtain ⟨hoff, hsome⟩ := h.buffered.genuine s hs
    obtain ⟨a, ha, hdata⟩ := Option.map_eq_some_iff.1 hsome
    exact ⟨hoff, Option.map_eq_some_iff.2 ⟨a, Arq.getElem?_of_isPrefix hsegs ha, hdata⟩⟩

theorem Receiver.sending {s s' : Arq.State KcpSegment} (h : Receiver s nxt done k)
    (hs : Arq.Sending s s') : Receiver s' nxt done k where
  holds := h.holds.mono hs.frame.queue
  received i := by rw [hs.frame.received, h.received i]
  upTo := hs.frame.network h.upTo
  upTo_zero := hs.frame.network h.upTo_zero
  acks p hp := (h.acks p hp).imp fun _ hi => hi.imp_right (@hs.frame.network _)

/-- What the peer does leaves the endpoint as it is. -/
theorem Speaks.peer {v v' : Dialogue} (h : Speaks conv v nxt done k) (hv : v.swap.Leads v'.swap) :
    Speaks conv v' nxt done k :=
  { h with
    sender := h.sender.receiving hv.inc
    receiver := h.receiver.sending hv.out
    buf := h.buf.mono hv.within_swap }

end Kcp
end Fuso.ThirdParty

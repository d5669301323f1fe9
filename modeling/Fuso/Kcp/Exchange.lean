import Fuso.Kcp.Endpoint
import Mathlib.Data.List.Sort

/-!
# Two endpoints and the network between them

Two sessions of one conversation, whose packets arrive in any order, any number of times or not at
all, while both are read, written and closed and their update tasks meet any times and any failing
writes. Each direction is an automatic repeat request (`refines_after`). So each stream reads a
prefix of what was written at the other end (`delivered_isPrefix`), nothing is lost on the way
(`nothing_lost`), and an endpoint that has nothing left to send has handed over all of it
(`flushed`).
-/

namespace Fuso.Kcp
open ThirdParty

inductive Party where
  | left
  | right
  deriving DecidableEq

def Party.peer : Party → Party
  | left => right
  | right => left

theorem Party.peer_peer (p : Party) : p.peer.peer = p := by
  cases p <;> rfl

theorem Party.peer_ne (p : Party) : p.peer ≠ p := by
  cases p <;> decide

theorem Party.eq_or_eq_peer (p q : Party) : q = p ∨ q = p.peer := by
  cases p <;> cases q <;> decide

abbrev Exchange := Party → Endpoint

namespace Exchange

def start (conv : UInt32) (clocks : Party → Nat) : Exchange := fun p => .start conv (clocks p)

/-- Something happens to one of the two. -/
def step (conv : UInt32) (e : Party × Endpoint.Event) (x : Exchange) : Exchange :=
  Function.update x e.1 ((x e.1).act conv (x e.1.peer).core.written e.2)

/-- The numbers of the segments do not come round to the same place. -/
def Few (x : Exchange) : Prop := ∀ p, (x p).segments + 1 < 2 ^ 31

variable {conv : UInt32} {x : Exchange} {dir dir' : Party → Arq.State KcpSegment}

/-- The conversation as a party sees it. -/
def dialogue (dir : Party → Arq.State KcpSegment) (p : Party) : Dialogue := ⟨dir p, dir p.peer⟩

theorem dialogue_swap (dir : Party → Arq.State KcpSegment) (p : Party) :
    (dialogue dir p).swap = dialogue dir p.peer := by
  unfold dialogue Dialogue.swap
  rw [p.peer_peer]

/-- The two are the endpoints of directions that are reached. -/
structure Refines (conv : UInt32) (dir : Party → Arq.State KcpSegment) (x : Exchange) : Prop where
  reachable : ∀ p, Arq.Reachable (dir p)
  plays : ∀ p, (x p).Plays conv (dialogue dir p)

theorem Refines.fair (h : Refines conv dir x) (hfew : Few x) (p : Party) :
    (dialogue dir p).Fair := by
  have hlt : ∀ q, (dir q).queue.length < 2 ^ 31 := fun q =>
    Nat.lt_of_le_of_lt ((Nat.le_add_right _ _).trans (h.plays q).length_le) (hfew q)
  exact ⟨(h.reachable p).sound, (h.reachable p.peer).sound, hlt p, hlt p.peer⟩

/-! ## Runs -/

theorem refines_start (conv : UInt32) (clocks : Party → Nat) :
    Refines conv (fun _ => .init) (start conv clocks) := by
  refine ⟨fun _ => .refl, fun p => ⟨⟨0, ?_⟩, nofun, rfl, Nat.le_refl 1⟩⟩
  exact {
    conv_eq := rfl
    inputConv_eq := rfl
    mtu_eq := rfl
    mss_eq := rfl
    stream_eq := rfl
    sender := ⟨Nat.le_refl 0, rfl, rfl, nofun, fun i hi => hi.elim, nofun⟩
    receiver := {
      holds := ⟨rfl, rfl, Nat.le_refl 0, rfl, nofun, .nil⟩
      received := fun i => by simp [dialogue, Arq.State.init, Kcp.Got, start, Endpoint.start,
        Running.start, KcpCore.new, Kcp.new, Kcp.setWndsize, Kcp.setNodelay,
        Kcp.setMaximumResendTimes]
      upTo := Set.mem_singleton _
      upTo_zero := Set.mem_singleton _
      acks := nofun }
    buf := honestPacket_nil }

/-- A step of one of the two is a step of that party in both directions. -/
theorem Refines.step (h : Refines conv dir x) (hfew : Few x) (e : Party × Endpoint.Event) :
    ∃ dir', Refines conv dir' (step conv e x) ∧
      (dialogue dir e.1).Leads (dialogue dir' e.1) := by
  obtain ⟨p, e⟩ := e
  have hinbox : ∀ packet ∈ (x p.peer).core.written,
      HonestPacket conv (dialogue dir p).swap packet := by
    rw [dialogue_swap]
    exact (h.plays p.peer).written
  obtain ⟨v, hleads, hplays⟩ := (h.plays p).act (h.fair hfew p) hinbox e
  obtain ⟨dir', hdir⟩ : ∃ dir', dialogue dir' p = v := by
    refine ⟨fun q => if q = p then v.out else v.inc, ?_⟩
    simp only [dialogue, if_true, if_neg p.peer_ne]
  subst hdir
  refine ⟨dir', ⟨fun q => ?_, fun q => ?_⟩, hleads⟩
  · rcases p.eq_or_eq_peer q with rfl | rfl
    · exact (h.reachable q).sending hleads.out
    · exact (h.reachable p.peer).receiving hleads.inc
  · rcases p.eq_or_eq_peer q with rfl | rfl
    · rw [Exchange.step, Function.update_self]
      exact hplays
    · rw [Exchange.step, Function.update_of_ne p.peer_ne]
      refine (h.plays p.peer).peer ?_
      rw [dialogue_swap, dialogue_swap, p.peer_peer]
      exact hleads

theorem taken_act (s : Endpoint) (inbox : List Bytes) (e : Endpoint.Event) :
    s.taken <+: (s.act conv inbox e).taken := by
  cases e with
  | write cx data => exact List.prefix_append _ _
  | arrive i =>
    simp only [Endpoint.act]
    split <;> exact List.prefix_rfl
  | read | pollClose | close | poll | forced =>
    simp only [Endpoint.act]
    exact List.prefix_rfl

theorem segments_mono {s s' : Endpoint} (h : s.taken <+: s'.taken) : s.segments ≤ s'.segments := by
  obtain ⟨more, hmore⟩ := h
  rw [Endpoint.segments, Endpoint.segments, ← hmore, List.map_append, List.sum_append]
  exact Nat.le_add_right _ _

theorem few_of_step (e : Party × Endpoint.Event) (h : Few (step conv e x)) : Few x := by
  intro p
  have hp := h p
  rcases e.1.eq_or_eq_peer p with rfl | rfl
  · rw [step, Function.update_self] at hp
    exact Nat.lt_of_le_of_lt (Nat.add_le_add_right (segments_mono (taken_act _ _ _)) 1) hp
  · rwa [step, Function.update_of_ne e.1.peer_ne] at hp

/-- In every run each direction is an automatic repeat request. -/
theorem refines_after (conv : UInt32) (clocks : Party → Nat)
    (events : List (Party × Endpoint.Event))
    (hfew : Few (after (step conv) (start conv clocks) events)) :
    ∃ dir, Refines conv dir (after (step conv) (start conv clocks) events) := by
  have hrun : Few (after (step conv) (start conv clocks) events) →
      ∃ dir, Refines conv dir (after (step conv) (start conv clocks) events) := by
    refine after_invariant (I := fun x => Few x → ∃ dir, Refines conv dir x)
      (fun x e ih hstep => ?_) fun _ => ⟨_, refines_start conv clocks⟩
    have hbefore := few_of_step e hstep
    obtain ⟨dir, hrefines⟩ := ih hbefore
    obtain ⟨dir', hrefines', -⟩ := hrefines.step hbefore e
    exact ⟨dir', hrefines'⟩
  exact hrun hfew

/-- Every step of a run is one of its party in the two directions. -/
theorem step_refines (conv : UInt32) (clocks : Party → Nat)
    (events : List (Party × Endpoint.Event)) (e : Party × Endpoint.Event)
    (hfew : Few (after (step conv) (start conv clocks) (events ++ [e]))) :
    ∃ dir dir', Refines conv dir (after (step conv) (start conv clocks) events) ∧
      Refines conv dir' (after (step conv) (start conv clocks) (events ++ [e])) ∧
      (dialogue dir e.1).Leads (dialogue dir' e.1) := by
  rw [after_concat] at hfew ⊢
  have hbefore := few_of_step e hfew
  obtain ⟨dir, h⟩ := refines_after conv clocks events hbefore
  obtain ⟨dir', h', hleads⟩ := h.step hbefore e
  exact ⟨dir, dir', h, h', hleads⟩

/-! ## What is delivered -/

theorem Refines.delivered (h : Refines conv dir x) (p : Party) :
    (x p).delivered <+: (x p.peer).taken.flatten := by
  obtain ⟨nxt, hspeaks⟩ := (h.plays p).speaks
  have hqueue := hspeaks.receiver.holds.queue
  have htaken : bytes (dir p.peer).queue = (x p.peer).taken.flatten := (h.plays p.peer).queue
  have htake : (x p).delivered <+: bytes ((dir p.peer).queue.take nxt) := by
    have hsplit := hqueue
    rw [List.append_assoc] at hsplit
    exact ⟨_, hsplit⟩
  exact htaken ▸ htake.trans (Transfer.prefix_bytes_take _ _)

/-- Whatever happens, each stream has read a prefix of what was written at the other end. -/
theorem delivered_isPrefix (conv : UInt32) (clocks : Party → Nat)
    (events : List (Party × Endpoint.Event))
    (hfew : Few (after (step conv) (start conv clocks) events)) (p : Party) :
    (after (step conv) (start conv clocks) events p).delivered <+:
      (after (step conv) (start conv clocks) events p.peer).taken.flatten := by
  obtain ⟨dir, h⟩ := refines_after conv clocks events hfew
  exact h.delivered p

/-- Three bytes are written, their packet arrives twice, and two of them are read. -/
def shortRun : List (Party × Endpoint.Event) :=
  [(.left, .write 1 [10, 20, 30]), (.left, .poll none), (.left, .poll (some ⟨20, 20, []⟩)),
    (.right, .arrive 0), (.right, .arrive 0), (.right, .read 2 2)]

theorem few_shortRun : Few (after (step 7) (start 7 fun _ => 0) shortRun) := fun p => by
  cases p <;> decide +kernel

theorem step_refines_shortRun : ∃ dir dir',
    Refines 7 dir (after (step 7) (start 7 fun _ => 0) shortRun.dropLast) ∧
      Refines 7 dir' (after (step 7) (start 7 fun _ => 0) shortRun) ∧
      (dialogue dir .right).Leads (dialogue dir' .right) :=
  step_refines 7 (fun _ => 0) shortRun.dropLast (.right, .read 2 2) few_shortRun

theorem delivered_isPrefix_shortRun :
    (after (step 7) (start 7 fun _ => 0) shortRun .right).delivered = [10, 20] ∧
      (after (step 7) (start 7 fun _ => 0) shortRun .right).delivered <+:
        (after (step 7) (start 7 fun _ => 0) shortRun .left).taken.flatten :=
  ⟨by decide +kernel, delivered_isPrefix 7 (fun _ => 0) shortRun few_shortRun .right⟩

/-! ## What is on the way -/

section
variable {s : Arq.State KcpSegment} {k k' : ThirdParty.Kcp} {nxt : Nat} {done : Bytes}

theorem ofNat_of_offset (h : nxt + offset nxt sn = i) : sn = .ofNat i := by
  subst h
  unfold offset
  rw [UInt32.ofNat_add, UInt32.ofNat_toNat, UInt32.add_comm, UInt32.sub_add_cancel]

theorem nxt_le_sent (hs : Arq.Sound s) (hreceiver : k'.Receiver s nxt done) : nxt ≤ s.sent :=
  Kcp.upTo_le hs hreceiver.upTo

/-- A segment that has a number and was not put into the queue of the receiver is in one of the two
buffers. -/
theorem exists_segment (hs : Arq.Sound s) (hlt : s.queue.length < 2 ^ 31)
    (hsender : k.Sender conv s) (hreceiver : k'.Receiver s nxt done) (hge : nxt ≤ i)
    (hi : i < s.sent) :
    ∃ seg ∈ k.sndBuf ++ k'.rcvBuf, seg.sn = .ofNat i ∧
      s.queue[i]?.map (·.data) = some seg.data := by
  rcases hs.conserved i hi with hunacked | hreceived
  · obtain ⟨seg, hseg, hsn⟩ := hsender.unacked i hunacked
    obtain ⟨j, a, hthere, hsn', hdata, -⟩ := (hsender.kept seg hseg).offered
    obtain ⟨hj, hitem⟩ := hs.data j a hthere
    have hsent := hs.sent_le
    obtain rfl : i = j := ofNat_inj (by omega) (by omega) (hsn.symm.trans hsn')
    exact ⟨seg, List.mem_append_left _ hseg, hsn, by rw [hitem, hdata]; rfl⟩
  · obtain ⟨seg, hseg, hoff⟩ := ((hreceiver.received i).1 hreceived).resolve_left (by omega)
    have hgenuine := (hreceiver.holds.buffered.genuine seg hseg).2
    rw [hoff] at hgenuine
    exact ⟨seg, List.mem_append_right _ hseg, ofNat_of_offset hoff, hgenuine⟩

end

/-- Every byte that was written is delivered or with one of the two: of the segments of an endpoint
the peer has put those up to `nxt` into its queue, those up to `sent` are each in the send buffer of
the one or the receive buffer of the other, and the others wait in the send queue. -/
theorem nothing_lost (conv : UInt32) (clocks : Party → Nat)
    (events : List (Party × Endpoint.Event))
    (hfew : Few (after (step conv) (start conv clocks) events)) (p : Party) :
    let s := after (step conv) (start conv clocks) events p
    let r := after (step conv) (start conv clocks) events p.peer
    ∃ (segs : List KcpSegment) (sent nxt : Nat), bytes segs = s.taken.flatten ∧
      s.core.kcp.sndNxt = .ofNat sent ∧ s.core.kcp.sndQueue = segs.drop sent ∧
      r.core.kcp.rcvNxt = .ofNat nxt ∧ nxt ≤ sent ∧ sent ≤ segs.length ∧
      r.delivered ++ r.core.kbuf.contents ++ bytes r.core.kcp.rcvQueue = bytes (segs.take nxt) ∧
      ∀ i, nxt ≤ i → i < sent → ∃ seg ∈ s.core.kcp.sndBuf ++ r.core.kcp.rcvBuf,
        seg.sn = .ofNat i ∧ segs[i]?.map (·.data) = some seg.data := by
  obtain ⟨dir, h⟩ := refines_after conv clocks events hfew
  obtain ⟨_, hsender⟩ := (h.plays p).speaks
  obtain ⟨nxt, hreceiver⟩ := (h.plays p.peer).speaks
  have hreceiver := hreceiver.receiver
  rw [← dialogue_swap] at hreceiver
  have hsound := (h.reachable p).sound
  refine ⟨(dir p).queue, (dir p).sent, nxt, (h.plays p).queue, hsender.sender.sndNxt_eq,
    hsender.sender.queue_eq, hreceiver.holds.rcvNxt_eq, nxt_le_sent hsound hreceiver,
    hsound.sent_le, hreceiver.holds.queue, fun i hge hi => ?_⟩
  exact exists_segment hsound (h.fair hfew p).out_lt hsender.sender hreceiver hge hi

theorem nothing_lost_shortRun :
    ∃ (segs : List KcpSegment) (sent nxt : Nat), bytes segs = [10, 20, 30] ∧ nxt ≤ sent ∧
      (after (step 7) (start 7 fun _ => 0) shortRun .left).core.kcp.sndQueue = segs.drop sent := by
  obtain ⟨segs, sent, nxt, hbytes, -, hqueue, -, hle, -⟩ :=
    nothing_lost 7 (fun _ => 0) shortRun few_shortRun .left
  exact ⟨segs, sent, nxt, hbytes.trans (by decide +kernel), hle, hqueue⟩

/-! ## When nothing is left to send -/

/-- The packet is acknowledged. -/
def ackedRun : List (Party × Endpoint.Event) :=
  shortRun ++ [(.right, .poll none), (.right, .poll (some ⟨20, 20, []⟩)), (.left, .arrive 0)]

theorem few_ackedRun : Few (after (step 7) (start 7 fun _ => 0) ackedRun) := fun p => by
  cases p <;> decide +kernel

/-- A segment that an endpoint may send: its data is that of its number, and it acknowledges what
was received. -/
structure Said (conv : UInt32) (segs : List KcpSegment) (nxt : Nat) (k : ThirdParty.Kcp)
    (s : KcpSegment) : Prop where
  conv_eq : s.conv = conv
  length_le : s.data.length ≤ 1376
  una : ∃ m, s.una = .ofNat m ∧ ∀ i < m, k.Got nxt i
  push : s.cmd = cmdPush → ∃ i, s.sn = .ofNat i ∧ segs[i]?.map (·.data) = some s.data
  ack : s.cmd = cmdAck → ∃ i, s.sn = .ofNat i ∧ k.Got nxt i

theorem said_of_honest {v : Dialogue} {s : KcpSegment} {k : ThirdParty.Kcp} {nxt : Nat}
    {done : Bytes} (h : Honest conv v s) (hout : Arq.Sound v.out) (hinc : Arq.Sound v.inc)
    (hreceiver : k.Receiver v.inc nxt done) : Said conv v.out.queue nxt k s where
  conv_eq := h.conv_eq
  length_le := h.length_le
  una := by
    obtain ⟨m, huna, hm⟩ := h.una
    exact ⟨m, huna, fun i hi => (hreceiver.received i).1 (hinc.acked i (.inr ⟨m, hi, hm⟩))⟩
  push hcmd := by
    cases h.content with
    | push i a cmd sn there data =>
      exact ⟨i, sn, by rw [(hout.data i a there).2, data]; rfl⟩
    | ack i cmd =>
      rw [hcmd] at cmd
      cases cmd
    | control cmd =>
      rw [hcmd] at cmd
      simp [cmdPush, cmdWask, cmdWins, cmdCls, cmdClf] at cmd
  ack hcmd := by
    cases h.content with
    | push i a cmd =>
      rw [hcmd] at cmd
      cases cmd
    | ack i cmd sn there => exact ⟨i, sn, (hreceiver.received i).1 (hinc.acked i (.inl there))⟩
    | control cmd =>
      rw [hcmd] at cmd
      simp [cmdAck, cmdWask, cmdWins, cmdCls, cmdClf] at cmd

/-- Every packet that was ever written is a row of segments that fit into the buffer of a receive
loop. Its data is that of the messages that were written and it acknowledges only what was received,
so the peer takes it without an error, whenever it arrives. -/
theorem packets_said (conv : UInt32) (clocks : Party → Nat)
    (events : List (Party × Endpoint.Event))
    (hfew : Few (after (step conv) (start conv clocks) events)) (p : Party) :
    let s := after (step conv) (start conv clocks) events p
    let r := after (step conv) (start conv clocks) events p.peer
    ∃ (segs : List KcpSegment) (nxt : Nat), bytes segs = s.taken.flatten ∧
      s.core.kcp.rcvNxt = .ofNat nxt ∧ ∀ packet ∈ s.core.written, packet.length ≤ 1400 ∧
        (∃ said : List KcpSegment, packet = said.flatMap (·.encode) ∧
          ∀ seg ∈ said, Said conv segs nxt s.core.kcp seg) ∧
        ∃ c, Session.input r.core packet = (c, .ok ()) := by
  obtain ⟨dir, h⟩ := refines_after conv clocks events hfew
  generalize after (step conv) (start conv clocks) events = x at *
  obtain ⟨nxt, hspeaks⟩ := (h.plays p).speaks
  have hfair := h.fair hfew p
  refine ⟨(dir p).queue, nxt, (h.plays p).queue, hspeaks.receiver.holds.rcvNxt_eq,
    fun packet hp => ?_⟩
  have hpacket := (h.plays p).written packet hp
  obtain ⟨said, hencode, hsaid, hlen⟩ := hpacket
  refine ⟨hlen, ⟨said, hencode, fun seg hseg =>
    said_of_honest (hsaid seg hseg) hfair.out hfair.inc hspeaks.receiver⟩, ?_⟩
  obtain ⟨_, hpeer⟩ := (h.plays p.peer).speaks
  have hhonest : HonestPacket conv (dialogue dir p.peer).swap packet := by
    rw [dialogue_swap, p.peer_peer]
    exact ⟨said, hencode, hsaid, hlen⟩
  obtain ⟨c, _, _, hrun, -⟩ := Session.input_speaks hpeer (h.fair hfew p.peer) hhonest
  exact ⟨c, hrun⟩

theorem packets_said_ackedRun :
    (after (step 7) (start 7 fun _ => 0) ackedRun .left).core.written ≠ [] ∧
      ∀ packet ∈ (after (step 7) (start 7 fun _ => 0) ackedRun .left).core.written,
        packet.length ≤ 1400 := by
  obtain ⟨_, _, -, -, hpackets⟩ := packets_said 7 (fun _ => 0) ackedRun few_ackedRun .left
  exact ⟨by decide +kernel, fun packet hp => (hpackets packet hp).1⟩

end Exchange
end Fuso.Kcp

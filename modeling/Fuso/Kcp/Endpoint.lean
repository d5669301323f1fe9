import Fuso.Kcp.Absorb
import Fuso.Kcp.Graceful

/-!
# An endpoint of a conversation

A session with the messages that were written to it and the bytes that were read from it. Whatever
happens to it, it goes on as the two directions of its conversation allow (`Plays.act`).
-/

namespace Fuso.ThirdParty

namespace Kcp
variable {conv : UInt32} {v : Dialogue} {nxt : Nat} {done : Bytes} {k k' : Kcp}

/-- The first message is taken when it fits. -/
theorem recv_spoken (hopen : k.closeState = .no) (hpeek : k.peeksize = .ok size)
    (hcap : size ≤ cap) :
    ∃ k' : Kcp, k.recv cap = (k', .ok (popMessage k.rcvQueue).1) ∧ k'.closeState = .no ∧
      k'.spoken = ({ k with rcvQueue := (popMessage k.rcvQueue).2 } : Kcp).moveBuf.spoken := by
  unfold Kcp.recv
  simp only [hopen, ne_eq, not_true_eq_false, if_false, (peeksize_ok hpeek).1, Bool.false_eq_true,
    hpeek, if_neg (Nat.not_lt.2 hcap)]
  split
  · exact ⟨_, rfl, rfl, rfl⟩
  · exact ⟨_, rfl, rfl, rfl⟩

/-- The receive queue has a message less. -/
theorem Speaks.recv (h : Speaks conv v nxt done k) (hopen : k.closeState = .no)
    (hpeek : k.peeksize = .ok size) (hcap : size ≤ cap) :
    ∃ k' data v' nxt', k.recv cap = (k', .ok data) ∧ data.length = size ∧ k'.closeState = .no ∧
      v.Leads v' ∧ v'.out = v.out ∧ Speaks conv v' nxt' (done ++ data) k' := by
  obtain ⟨k', hrecv, hopen', hspoken⟩ := recv_spoken hopen hpeek hcap
  have hbytes := bytes_popMessage k.rcvQueue
  have hpop : Holds v.inc.queue nxt (done ++ (popMessage k.rcvQueue).1)
      { k with rcvQueue := (popMessage k.rcvQueue).2 } :=
    { h.receiver.holds with queue := by rw [List.append_assoc, hbytes, h.receiver.holds.queue] }
  obtain ⟨nxt', hholds, hgot⟩ := hpop.moveBuf_got
  have hleads : v.Leads ⟨v.out, v.inc.answer⟩ := ⟨.refl, .single (.answer _)⟩
  have hreceiver := receiver_answer hholds (fun i => (h.receiver.received i).trans (hgot i).symm)
    h.receiver.upTo_zero fun p hp => (h.receiver.acks p hp).imp fun _ hi => hi.imp_right .inl
  have hmoved : Speaks conv ⟨v.out, v.inc.answer⟩ nxt' (done ++ (popMessage k.rcvQueue).1)
      ({ k with rcvQueue := (popMessage k.rcvQueue).2 } : Kcp).moveBuf :=
    { h with
      sender := h.sender.congr rfl
      receiver := hreceiver
      buf := h.buf.mono hleads.within }
  exact ⟨k', _, _, nxt', hrecv, (peeksize_ok hpeek).2, hopen', hleads, rfl, hmoved.congr hspoken⟩

/-- The segments of a message go into the queue, or nothing happens. -/
theorem send_cases (hmss : k.mss = 1376) (hstream : k.stream = false) (data : Bytes) :
    (k.closeState = .no ∧ segmentCount 1376 data < wndRcv ∧ k.send data =
      ({ k with sndQueue := k.sndQueue ++ fragments 1376 false (segmentCount 1376 data) data },
        .ok data.length)) ∨
      ∃ e, k.send data = (k, .error e) := by
  have hmss' : k.mss.toNat = 1376 := by
    rw [hmss]
    rfl
  unfold Kcp.send
  by_cases hopen : k.closeState = .no
  · simp only [hopen, hstream, hmss', ne_eq, not_true_eq_false, if_false, Bool.false_eq_true,
      false_and, true_and]
    by_cases hbig : wndRcv ≤ segmentCount 1376 data
    · exact .inr ⟨_, if_pos hbig⟩
    · exact .inl ⟨Nat.lt_of_not_le hbig, if_neg hbig⟩
  · exact .inr ⟨_, if_pos hopen⟩

theorem length_fragments (mss : Nat) (stream : Bool) (n : Nat) (data : Bytes) :
    (fragments mss stream n data).length = n := by
  induction n generalizing data with
  | zero => rfl
  | succ n ih => rw [fragments, List.length_cons, ih]

end Kcp
end Fuso.ThirdParty

namespace Fuso.Kcp
open ThirdParty

/-- A session, the messages that it took, and what was read from it. -/
structure Endpoint where
  session : Running
  taken : List Bytes
  delivered : Bytes

namespace Endpoint

abbrev core (s : Endpoint) : KcpCore := s.session.update.kcore

def start (conv : UInt32) (clock : Nat) : Endpoint := ⟨.start conv clock, [], []⟩

inductive Event where
  | read (cx : Waker) (cap : Nat)
  | write (cx : Waker) (data : Bytes)
  | pollClose (cx : Waker) (clock : Nat)
  | close (clock : Nat)
  | poll (tick : Option Tick)
  /-- The packet with the number `i` of all that the peer has written. -/
  | arrive (i : Nat)
  /-- The packet that answers one for a session that is gone. -/
  | forced

/-- The messages that a write has taken. -/
def accepted (data : Bytes) : Poll (KcpResult Nat) → List Bytes
  | .ready (.ok n) => [data.take n]
  | _ => []

/-- A step of the endpoint, when `inbox` are the packets that the peer has written. -/
def act (conv : UInt32) (inbox : List Bytes) (s : Endpoint) : Event → Endpoint
  | .read cx cap => { s with
    session := Running.step (.read cx cap) s.session
    delivered := s.delivered ++ (s.core.pollRead cx (.new cap)).2.1.filled }
  | .write cx data => { s with
    session := Running.step (.write cx data) s.session
    taken := s.taken ++ accepted data (s.core.pollWrite cx data).2 }
  | .pollClose cx clock => { s with session := Running.step (.pollClose cx clock) s.session }
  | .close clock => { s with session := Running.step (.close clock) s.session }
  | .poll tick => { s with session := Running.step (.poll tick) s.session }
  | .arrive i =>
    match inbox[i]? with
    | some packet => { s with session := Running.step (.input (packet.take bufLen)) s.session }
    | none => s
  | .forced => { s with session := Running.step (.input (forceClose conv)) s.session }

/-- The number of segments that the messages were cut into. -/
def segments (s : Endpoint) : Nat := (s.taken.map (Kcp.segmentCount 1376)).sum

/-- The endpoint is one of a conversation with the directions `v`. -/
structure Plays (conv : UInt32) (v : Dialogue) (s : Endpoint) : Prop where
  speaks : ∃ nxt, s.core.kcp.Speaks conv v nxt (s.delivered ++ s.core.kbuf.contents)
  written : ∀ packet ∈ s.core.written, HonestPacket conv v packet
  queue : bytes v.out.queue = s.taken.flatten
  /-- Next to the messages there is the segment that closes the conversation. -/
  length_le : v.out.queue.length + s.core.kcp.closings ≤ s.segments + 1

variable {conv : UInt32} {v v' : Dialogue} {s s' : Endpoint}

/-- A step that queues and writes nothing. -/
theorem Plays.quiet (h : Plays conv v s) (hleads : v.Leads v')
    (hqueue : v'.out.queue = v.out.queue)
    (hspeaks : ∃ nxt, s'.core.kcp.Speaks conv v' nxt (s'.delivered ++ s'.core.kbuf.contents))
    (hwritten : s'.core.written = s.core.written) (htaken : s'.taken = s.taken)
    (hclosings : s'.core.kcp.closings ≤ s.core.kcp.closings) : Plays conv v' s' where
  speaks := hspeaks
  written packet hp := (h.written packet (hwritten ▸ hp)).mono hleads.within
  queue := by rw [hqueue, h.queue, htaken]
  length_le := by
    have := h.length_le
    rw [hqueue, segments, htaken]
    unfold segments at this
    omega

/-! ## Reads and writes -/

/-- A read that takes a message. -/
theorem pollRead_recv {c : KcpCore} (cx : Waker) (cap : Nat) (hkbuf : c.kbuf.contents = [])
    (hpeek : c.kcp.peeksize = .ok size) (hopen : c.kcp.closeState = .no) :
    ∃ cap' ≥ size, ∀ k data, c.kcp.recv cap' = (k, .ok data) → data.length = size →
      ∃ c' buf n, c.pollRead cx (.new cap) = (c', buf, .ready (.ok n)) ∧ c'.kcp = k ∧
        c'.written = c.written ∧ buf.filled ++ c'.kbuf.contents = data := by
  have hempty : (!c.kbuf.isEmpty) = false := by
    rw [Bool.not_eq_false', c.kbuf.isEmpty_iff]
    exact hkbuf
  rcases Nat.lt_or_ge cap size with hcap | hcap
  · refine ⟨size, Nat.le_refl _, fun k data hrecv hlen => ?_⟩
    unfold KcpCore.pollRead
    rw [if_neg (by simp [hempty])]
    simp only [ReadBuf.remaining_new, Kcp.recv_too_small hopen hpeek hcap, KcpCore.readPart, hpeek,
      hrecv]
    refine ⟨_, _, _, rfl, rfl, rfl, ?_⟩
    rw [ReadBuf.filled_put (by simp), Buffer.contents_pushBack, hkbuf]
    exact List.take_append_drop _ _
  · refine ⟨cap, hcap, fun k data hrecv hlen => ?_⟩
    unfold KcpCore.pollRead
    rw [if_neg (by simp [hempty])]
    simp only [ReadBuf.remaining_new, hrecv]
    refine ⟨_, _, _, rfl, rfl, rfl, ?_⟩
    rw [ReadBuf.filled_put (by simpa [hlen] using hcap), hkbuf]
    simp

theorem Plays.read (h : Plays conv v s) (cx : Waker) (cap : Nat) (inbox : List Bytes) :
    ∃ v', v.Leads v' ∧ Plays conv v' (s.act conv inbox (.read cx cap)) := by
  obtain ⟨nxt, hspeaks⟩ := h.speaks
  -- what the read leaves, given what it does
  have hdone : ∀ {c buf r}, s.core.pollRead cx (.new cap) = (c, buf, r) →
      s.act conv inbox (.read cx cap) =
        { s with session := s.session.setCore c, delivered := s.delivered ++ buf.filled } := by
    intro c buf r hread
    simp only [act, Running.step, hread]
  have hsame : ∀ {c : KcpCore} {buf : ReadBuf}, c.kcp = s.core.kcp → c.written = s.core.written →
      buf.filled ++ c.kbuf.contents = s.core.kbuf.contents →
      Plays conv v { s with
        session := s.session.setCore c, delivered := s.delivered ++ buf.filled } := by
    intro c buf hkcp hwritten hkbuf
    refine h.quiet (.refl v) rfl ⟨nxt, ?_⟩ hwritten rfl ?_
    · show c.kcp.Speaks conv v nxt (s.delivered ++ buf.filled ++ c.kbuf.contents)
      rw [List.append_assoc, hkbuf, hkcp]
      exact hspeaks
    · show c.kcp.closings ≤ _
      rw [hkcp]
  by_cases hkbuf : s.core.kbuf.contents = []
  · by_cases hopen : s.core.kcp.closeState = .no
    · cases hpeek : s.core.kcp.peeksize with
      | error e =>
        rw [hdone (Transfer.pollRead_waits cx cap hkbuf hopen hpeek)]
        exact ⟨v, .refl v, hsame rfl rfl (by simp [ReadBuf.new])⟩
      | ok size =>
        obtain ⟨cap', hcap, hread⟩ := pollRead_recv cx cap hkbuf hpeek hopen
        obtain ⟨k, data, v', nxt', hrecv, hlen, hopen', hleads, hout, hspeaks'⟩ :=
          hspeaks.recv hopen hpeek hcap
        obtain ⟨c, buf, n, hread, hkcp, hwritten, hdata⟩ := hread k data hrecv hlen
        rw [hdone hread]
        refine ⟨v', hleads, h.quiet hleads (by rw [hout]) ⟨nxt', ?_⟩ hwritten rfl ?_⟩
        · show c.kcp.Speaks conv v' nxt' (s.delivered ++ buf.filled ++ c.kbuf.contents)
          rw [List.append_assoc, hdata, hkcp]
          rw [hkbuf, List.append_nil] at hspeaks'
          exact hspeaks'
        · exact (Kcp.closings_congr ((congrArg _ hkcp).trans (hopen'.trans hopen.symm))).le
    · rw [hdone (Transfer.pollRead_closed cx cap hkbuf hopen)]
      exact ⟨v, .refl v, hsame rfl rfl (by simp [ReadBuf.new])⟩
  · obtain ⟨c, buf, n, hread, hkcp, hcontents, -⟩ := Transfer.pollRead_kbuf cx cap hkbuf
    have hwritten : c.written = s.core.written := by
      rw [Transfer.pollRead_buffered cx cap hkbuf] at hread
      obtain ⟨rfl, -⟩ := Prod.ext_iff.1 hread
      rfl
    rw [hdone hread]
    exact ⟨v, .refl v, hsame hkcp hwritten hcontents⟩

theorem Plays.write (h : Plays conv v s) (cx : Waker) (data : Bytes) (inbox : List Bytes) :
    ∃ v', v.Leads v' ∧ Plays conv v' (s.act conv inbox (.write cx data)) := by
  obtain ⟨nxt, hspeaks⟩ := h.speaks
  rcases Kcp.send_cases hspeaks.mss_eq hspeaks.stream_eq data with ⟨hopen, -, hsend⟩ | ⟨e, hsend⟩
  · obtain ⟨hbytes, hlen⟩ := bytes_fragments _ data (length_le_segmentCount data)
    obtain ⟨v', hleads, hqueue, hspeaks'⟩ := hspeaks.push
      (Kcp.fragments 1376 false (Kcp.segmentCount 1376 data) data) hlen
    have hwrite : s.act conv inbox (.write cx data) = { s with
        session := s.session.setCore { s.core with kcp := { s.core.kcp with
          sndQueue := s.core.kcp.sndQueue ++
            Kcp.fragments 1376 false (Kcp.segmentCount 1376 data) data } }
        taken := s.taken ++ [data] } := by
      simp only [act, Running.step, KcpCore.pollWrite, hsend, accepted, List.take_length]
    rw [hwrite]
    refine ⟨v', hleads, ⟨nxt, hspeaks'⟩, fun p hp => (h.written p hp).mono hleads.within, ?_, ?_⟩
    · rw [hqueue, bytes_append, hbytes, h.queue, List.flatten_append]
      simp
    · have hlimit := h.length_le
      have hsum : ∀ session, ({ s with session, taken := s.taken ++ [data] } : Endpoint).segments =
          s.segments + Kcp.segmentCount 1376 data := fun session => by
        simp [segments]
      rw [hqueue, List.length_append, Kcp.length_fragments, hsum]
      show _ + _ + s.core.kcp.closings ≤ _
      omega
  · -- the message is not taken
    have hnot : accepted data (s.core.pollWrite cx data).2 = [] ∧
        (s.core.pollWrite cx data).1.kcp = s.core.kcp ∧
        (s.core.pollWrite cx data).1.kbuf = s.core.kbuf ∧
        (s.core.pollWrite cx data).1.written = s.core.written := by
      unfold KcpCore.pollWrite
      rw [hsend]
      cases e <;> exact ⟨rfl, rfl, rfl, rfl⟩
    obtain ⟨hnone, hkcp, hkbuf, hwritten⟩ := hnot
    refine ⟨v, .refl v, h.quiet (.refl v) rfl ⟨nxt, ?_⟩ hwritten ?_ ?_⟩
    · show (s.core.pollWrite cx data).1.kcp.Speaks conv v nxt
        (s.delivered ++ (s.core.pollWrite cx data).1.kbuf.contents)
      rw [hkcp, hkbuf]
      exact hspeaks
    · show s.taken ++ accepted data (s.core.pollWrite cx data).2 = s.taken
      rw [hnone, List.append_nil]
    · show (s.core.pollWrite cx data).1.kcp.closings ≤ _
      rw [hkcp]

/-! ## Closing -/

/-- A step that only closes the conversation. -/
theorem Plays.closing (h : Plays conv v s) {c : KcpCore}
    (hspoken : c.kcp.spoken = s.core.kcp.spoken) (hkbuf : c.kbuf = s.core.kbuf) (hwritten : c.written = s.core.written)
    (hclosings : c.kcp.closings ≤ s.core.kcp.closings) :
    Plays conv v { s with session := s.session.setCore c } := by
  obtain ⟨nxt, hspeaks⟩ := h.speaks
  refine h.quiet (.refl v) rfl ⟨nxt, ?_⟩ hwritten rfl hclosings
  show c.kcp.Speaks conv v nxt (s.delivered ++ c.kbuf.contents)
  rw [hkbuf]
  exact hspeaks.congr hspoken

theorem closings_forceClose (k : ThirdParty.Kcp) (clock : Nat) :
    (k.forceClose clock).closings = 0 :=
  Kcp.closings_of_closed (.inr rfl)

theorem Plays.pollClose (h : Plays conv v s) (cx : Waker) (clock : Nat) (inbox : List Bytes) :
    Plays conv v (s.act conv inbox (.pollClose cx clock)) := by
  have hclose : (s.core.pollClose cx clock).1.kcp.spoken = s.core.kcp.spoken ∧
      (s.core.pollClose cx clock).1.kbuf = s.core.kbuf ∧
      (s.core.pollClose cx clock).1.written = s.core.written ∧
      (s.core.pollClose cx clock).1.kcp.closings ≤ s.core.kcp.closings := by
    unfold KcpCore.pollClose
    split
    · exact ⟨rfl, rfl, rfl, Nat.le_refl _⟩
    · exact ⟨rfl, rfl, rfl, (closings_forceClose _ _).trans_le (Nat.zero_le _)⟩
  exact h.closing hclose.1 hclose.2.1 hclose.2.2.1 hclose.2.2.2

theorem Plays.close (h : Plays conv v s) (clock : Nat) (inbox : List Bytes) :
    Plays conv v (s.act conv inbox (.close clock)) := by
  have hclose : (s.core.kcp.close clock).1.spoken = s.core.kcp.spoken ∧
      (s.core.kcp.close clock).1.closings ≤ s.core.kcp.closings := by
    unfold Kcp.close
    split
    · next hopen =>
      have hone : s.core.kcp.closings = 1 := if_pos (.inl hopen)
      exact ⟨rfl, hone ▸ Kcp.closings_le_one _⟩
    · exact ⟨rfl, Nat.le_refl _⟩
  exact h.closing hclose.1 rfl rfl hclose.2

/-! ## The update task -/

theorem Plays.updating (h : Plays conv v s) (t : Tick) :
    ∃ v', v.Leads v' ∧ Plays conv v' { s with
      session := s.session.setCore (s.core.updating t).1 } := by
  obtain ⟨nxt, hspeaks⟩ := h.speaks
  have htells : Kcp.Tells conv v nxt (s.delivered ++ s.core.kbuf.contents)
      (s.core.kcp, ⟨t.results, []⟩) := ⟨hspeaks, fun p hp => by cases hp⟩
  obtain ⟨v', hleads, hbytes, hlimit, htold⟩ :=
    Kcp.update_tells t.current t.clock htells h.length_le
  -- the core behind `Kcp::update`
  have hplays : ∀ c : KcpCore, c.kcp.spoken =
      (Kcp.update t.current t.clock (s.core.kcp, ⟨t.results, []⟩)).2.1.spoken →
      c.kcp.closings ≤
        (Kcp.update t.current t.clock (s.core.kcp, ⟨t.results, []⟩)).2.1.closings →
      c.kbuf = s.core.kbuf → c.written = s.core.written ++
        (Kcp.update t.current t.clock (s.core.kcp, ⟨t.results, []⟩)).2.2.written →
      Plays conv v' { s with session := s.session.setCore c } := by
    intro c hspoken hclosings hkbuf hwritten
    refine ⟨⟨nxt, ?_⟩, fun p hp => ?_, hbytes.trans h.queue, ?_⟩
    · show c.kcp.Speaks conv v' nxt (s.delivered ++ c.kbuf.contents)
      rw [hkbuf]
      exact htold.speaks.congr hspoken
    · have hp' : p ∈ c.written := hp
      rw [hwritten] at hp'
      rcases List.mem_append.1 hp' with hp' | hp'
      · exact (h.written p hp').mono hleads.within
      · exact htold.written p hp'
    · exact (Nat.add_le_add_left hclosings _).trans hlimit
  refine ⟨v', hleads, ?_⟩
  cases hrun : Kcp.update t.current t.clock (s.core.kcp, ⟨t.results, []⟩) with
  | mk r out =>
    rw [hrun] at hplays
    obtain ⟨k, o⟩ := out
    cases r with
    | error e =>
      simp only [KcpCore.updating, hrun]
      exact hplays _ rfl (Nat.le_refl _) rfl rfl
    | ok u =>
      simp only [KcpCore.updating, hrun, KcpCore.updated]
      split
      · refine hplays _ ?_ ((closings_forceClose _ _).trans_le (Nat.zero_le _)) ?_ ?_
        · simp only [KcpCore.wakeAll, KcpCore.kcp_wakeCloseIf, KcpCore.kcp_wakeWriteIf,
            KcpCore.kcp_wakeReadIf]
          rfl
        · simp [KcpCore.wakeAll]
        · simp [KcpCore.wakeAll]
      · exact hplays _ (by simp) (by simp) (by simp) (by simp)

theorem Plays.sleep (h : Plays conv v s) :
    Plays conv v { s with session := s.session.setCore (KcpUpdate.sleep s.core).1.kcore } := by
  have hsleep : (KcpUpdate.sleep s.core).1.kcore.kcp = s.core.kcp ∧
      (KcpUpdate.sleep s.core).1.kcore.kbuf = s.core.kbuf ∧
      (KcpUpdate.sleep s.core).1.kcore.written = s.core.written := by
    unfold KcpUpdate.sleep
    split <;> exact ⟨rfl, rfl, rfl⟩
  obtain ⟨hkcp, hkbuf, hwritten⟩ := hsleep
  exact h.closing (congrArg _ hkcp) hkbuf hwritten (by rw [hkcp])

/-- Only the core of the session matters. -/
theorem Plays.with_core (h : Plays conv v { s with session := s.session.setCore c })
    {session : Running} (hc : session.update.kcore = c) : Plays conv v { s with session } := by
  subst hc
  exact ⟨h.speaks, h.written, h.queue, h.length_le⟩

theorem Plays.update (h : Plays conv v s) (tick : Option Tick) :
    ∃ v', v.Leads v' ∧ Plays conv v' { s with
      session := s.session.setCore (s.session.update.poll tick).1.kcore } := by
  unfold KcpUpdate.poll
  split
  · exact ⟨v, .refl v, h.sleep⟩
  · cases tick with
    | none => exact ⟨v, .refl v, h⟩
    | some t =>
      obtain ⟨v', hleads, hplays⟩ := h.updating t
      refine ⟨v', hleads, ?_⟩
      simp only
      split
      · next hrun =>
        rw [hrun] at hplays
        exact hplays
      · next hrun =>
        rw [hrun] at hplays
        exact hplays.sleep

theorem Plays.poll (h : Plays conv v s) (tick : Option Tick) (inbox : List Bytes) :
    ∃ v', v.Leads v' ∧ Plays conv v' (s.act conv inbox (.poll tick)) := by
  obtain ⟨v', hleads, hplays⟩ := h.update tick
  show ∃ v', v.Leads v' ∧ Plays conv v' { s with session := s.session.poll tick }
  unfold Running.poll
  split
  · exact ⟨v, .refl v, h⟩
  · refine ⟨v', hleads, ?_⟩
    split
    · next hrun => exact hplays.with_core (by rw [hrun])
    · next hrun => exact hplays.with_core (by rw [hrun])

/-! ## Packets -/

theorem Plays.input (h : Plays conv v s) (hv : v.Fair) {packet : Bytes}
    (hpacket : HonestPacket conv v.swap packet) :
    ∃ v', v.Leads v' ∧
      Plays conv v' { s with session := Running.step (.input packet) s.session } := by
  obtain ⟨nxt, hspeaks⟩ := h.speaks
  obtain ⟨c, v', nxt', hrun, hkbuf, hwritten, hleads, hqueue, hspeaks', hclosings⟩ :=
    Session.input_speaks hspeaks hv hpacket
  have hstep : Running.step (.input packet) s.session = s.session.setCore c := by
    simp only [Running.step, hrun]
  rw [hstep]
  refine ⟨v', hleads, h.quiet hleads hqueue ⟨nxt', ?_⟩ hwritten rfl hclosings⟩
  show c.kcp.Speaks conv v' nxt' (s.delivered ++ c.kbuf.contents)
  rw [hkbuf]
  exact hspeaks'

theorem honest_forceClose (hv : v.Fair) : HonestPacket conv v.swap (forceClose conv) := by
  have hclf : Honest conv v.swap { conv, cmd := cmdClf } :=
    ⟨rfl, ⟨0, rfl, hv.out.upTo_zero⟩, Nat.zero_le _, .control (.inr (.inr (.inr rfl)))⟩
  have hlen : ({ conv, cmd := cmdClf } : KcpSegment).data.length = 0 := rfl
  exact honestPacket_nil.append hclf (by rw [hlen]; decide)

/-- Whatever happens to an endpoint of a conversation, it stays one. -/
theorem Plays.act (h : Plays conv v s) (hv : v.Fair) {inbox : List Bytes}
    (hinbox : ∀ packet ∈ inbox, HonestPacket conv v.swap packet) (e : Event) :
    ∃ v', v.Leads v' ∧ Plays conv v' (s.act conv inbox e) := by
  cases e with
  | read cx cap => exact h.read cx cap inbox
  | write cx data => exact h.write cx data inbox
  | pollClose cx clock => exact ⟨v, .refl v, h.pollClose cx clock inbox⟩
  | close clock => exact ⟨v, .refl v, h.close clock inbox⟩
  | poll tick => exact h.poll tick inbox
  | arrive i =>
    simp only [Endpoint.act]
    cases hi : inbox[i]? with
    | none => exact ⟨v, .refl v, h⟩
    | some packet =>
      have hpacket := hinbox packet (List.mem_of_getElem? hi)
      obtain ⟨segs, -, -, hlen⟩ := id hpacket
      have hwhole : packet.take bufLen = packet :=
        List.take_of_length_le (hlen.trans (by decide))
      simp only [hwhole]
      exact h.input hv hpacket
  | forced => exact h.input hv (honest_forceClose hv)

/-- What the peer does leaves an endpoint as it is. -/
theorem Plays.peer (h : Plays conv v s) (hv : v.swap.Leads v'.swap) : Plays conv v' s where
  speaks := h.speaks.imp fun _ hspeaks => hspeaks.peer hv
  written packet hp := (h.written packet hp).mono hv.within_swap
  queue := by
    have hqueue : v'.out.queue = v.out.queue := hv.inc.frame.queue
    rw [hqueue, h.queue]
  length_le := by
    have hqueue : v'.out.queue = v.out.queue := hv.inc.frame.queue
    rw [hqueue]
    exact h.length_le

end Endpoint
end Fuso.Kcp

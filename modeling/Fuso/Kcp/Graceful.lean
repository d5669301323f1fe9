import Fuso.Kcp.Transfer

/-!
# Closing without a loss

Once the conversation is closed a read reports it, whatever was received and not read. So the peer
gets all bytes when nothing is left of what it received (`graceful_of_drained`), and loses what is
left.
-/

namespace Fuso.Kcp
open ThirdParty

namespace Transfer
variable {conv : UInt32} {segs : List KcpSegment}

/-! ## What a read does -/

/-- What waits in `kbuf` is read first. -/
theorem pollRead_buffered {c : KcpCore} (cx : Waker) (cap : Nat) (h : c.kbuf.contents ≠ []) :
    c.pollRead cx (.new cap) = ({ c with kbuf := (c.kbuf.readToBuffer cap).2 },
      (ReadBuf.new cap).put (c.kbuf.contents.take cap),
      .ready (.ok (c.kbuf.contents.take cap).length)) := by
  have hne : (!c.kbuf.isEmpty) = true := by
    rw [Bool.not_eq_true', ← Bool.not_eq_true, c.kbuf.isEmpty_iff]
    exact h
  simp only [KcpCore.pollRead, hne, if_true, ReadBuf.remaining_new, Buffer.readToBuffer_fst]

theorem pollRead_kbuf {c : KcpCore} (cx : Waker) (cap : Nat) (h : c.kbuf.contents ≠ []) :
    ∃ c' buf n, c.pollRead cx (.new cap) = (c', buf, .ready (.ok n)) ∧ c'.kcp = c.kcp ∧
      buf.filled ++ c'.kbuf.contents = c.kbuf.contents ∧
      c'.kbuf.contents = c.kbuf.contents.drop cap ∧ (n = 0 → cap = 0) := by
  refine ⟨_, _, _, pollRead_buffered cx cap h, rfl, ?_, Buffer.contents_readToBuffer _ _,
    fun hn => ?_⟩
  · have hfits : (c.kbuf.contents.take cap).length ≤ (ReadBuf.new cap).remaining :=
      List.length_take_le _ _
    rw [ReadBuf.filled_put hfits, Buffer.contents_readToBuffer]
    exact List.take_append_drop _ _
  · have hpos := List.length_pos_iff.2 h
    rw [List.length_take] at hn
    omega

theorem pollRead_empty {c : KcpCore} {nxt : Nat} (cx : Waker) (cap : Nat) (h : c.kbuf.contents = [])
    (hopen : c.kcp.closeState = .no) (hpeek : c.kcp.peeksize = .ok size)
    (hholds : c.kcp.Holds segs nxt d) :
    ∃ c' buf n, c.pollRead cx (.new cap) = (c', buf, .ready (.ok n)) ∧
      c'.kcp.closeState = .no ∧ c'.kcp.conv = c.kcp.conv ∧ (n = 0 → 0 < cap → size = 0) ∧
      buf.filled ++ c'.kbuf.contents ++ c'.kcp.pending = c.kcp.pending ∧
      (buf.filled ++ c'.kbuf.contents).length = size ∧
      ∃ m ≤ 1024, c'.kcp.Holds segs (nxt + m) (d ++ (buf.filled ++ c'.kbuf.contents)) := by
  have hempty : (!c.kbuf.isEmpty) = false := by
    rw [Bool.not_eq_false', c.kbuf.isEmpty_iff]
    exact h
  unfold KcpCore.pollRead
  rw [if_neg (by simp [hempty])]
  rcases Nat.lt_or_ge cap size with hcap | hcap
  · obtain ⟨k', data, hrecv, hlen, hpending, hopen', hconv, hm⟩ :=
      hholds.recv hopen hpeek (Nat.le_refl size)
    simp only [ReadBuf.remaining_new, Kcp.recv_too_small hopen hpeek hcap, KcpCore.readPart, hpeek,
      hrecv]
    have hsplit : ((ReadBuf.new cap).put (data.take cap)).filled ++
        (c.kbuf.pushBack (data.drop cap)).contents = data := by
      rw [ReadBuf.filled_put (by simp), Buffer.contents_pushBack, h]
      exact List.take_append_drop _ _
    refine ⟨_, _, _, rfl, hopen', hconv, fun hn hpos => by omega, ?_, ?_, ?_⟩
    · rw [hsplit]
      exact hpending
    · rw [hsplit]
      exact hlen
    · rw [hsplit]
      exact hm
  · obtain ⟨k', data, hrecv, hlen, hpending, hopen', hconv, hm⟩ := hholds.recv hopen hpeek hcap
    simp only [ReadBuf.remaining_new, hrecv]
    have hfilled : ((ReadBuf.new cap).put data).filled ++ c.kbuf.contents = data := by
      rw [ReadBuf.filled_put (by simpa [hlen] using hcap), h]
      simp
    refine ⟨_, _, _, rfl, hopen', hconv, fun hn _ => hlen ▸ hn, ?_, ?_, ?_⟩
    · rw [hfilled]
      exact hpending
    · rw [hfilled]
      exact hlen
    · rw [hfilled]
      exact hm

theorem pollRead_waits {c : KcpCore} (cx : Waker) (cap : Nat) (h : c.kbuf.contents = [])
    (hopen : c.kcp.closeState = .no) (hpeek : c.kcp.peeksize = .error e) :
    c.pollRead cx (.new cap) = ({ c with readWaker := some cx }, .new cap, .pending) := by
  have hempty := c.kbuf.isEmpty_iff.2 h
  simp only [KcpCore.pollRead, hempty, Bool.not_true, Bool.false_eq_true, if_false,
    ReadBuf.remaining_new]
  rcases Kcp.recv_waits cap hopen hpeek with hrecv | hrecv <;> rw [hrecv]

theorem pollRead_closed {c : KcpCore} (cx : Waker) (cap : Nat) (h : c.kbuf.contents = [])
    (hclosed : c.kcp.closeState ≠ .no) :
    c.pollRead cx (.new cap) = (c, .new cap, .ready (.error .connectionReset)) := by
  have hempty := c.kbuf.isEmpty_iff.2 h
  simp only [KcpCore.pollRead, hempty, Bool.not_true, Bool.false_eq_true, if_false,
    ReadBuf.remaining_new, Kcp.recv_closed hclosed]

/-! ## The invariant -/

/-- Everything up to the segment `nxt` was read or is held, and with a closed conversation all of it
was read from the receive queue. -/
structure Going (conv : UInt32) (segs : List KcpSegment) (t : Transfer) : Prop where
  holds : t.core.kcp.Holds segs t.nxt (t.delivered ++ t.core.kbuf.contents)
  conv_eq : t.core.kcp.conv = conv
  closed : t.core.kcp.closeState ≠ .no → t.delivered ++ t.core.kbuf.contents = bytes segs
  reset : t.reset = true → t.delivered = bytes segs
  early : t.early = false

theorem prefix_bytes_take (segs : List KcpSegment) (n : Nat) :
    bytes (segs.take n) <+: bytes segs := by
  conv_rhs => rw [← List.take_append_drop n segs, bytes_append]
  exact List.prefix_append _ _

theorem Going.kept (h : Going conv segs t) : Kept (bytes segs) t := by
  refine ⟨?_, h.reset, h.early⟩
  have htake : t.delivered <+: bytes (segs.take t.nxt) := by
    rw [← h.holds.queue, List.append_assoc]
    exact List.prefix_append _ _
  exact htake.trans (prefix_bytes_take segs t.nxt)

/-- The number that is counted is the one that is carried. -/
theorem Going.nxt_advance (h : Going conv segs t) {session : Running} (hm : m < 2 ^ 32)
    (hk : session.update.kcore.kcp.rcvNxt = .ofNat (t.nxt + m)) :
    (t.advance session).nxt = t.nxt + m := by
  have hold := h.holds.rcvNxt_eq
  have hdiff : (session.update.kcore.kcp.rcvNxt - t.core.kcp.rcvNxt).toNat = m := by
    rw [hk, hold, UInt32.ofNat_add, UInt32.add_comm, UInt32.add_sub_cancel,
      UInt32.toNat_ofNat', Nat.mod_eq_of_lt hm]
  rw [advance, hdiff]

/-- A step that reads nothing: segments may have arrived, and the conversation may only be closed
with nothing left to read. -/
theorem Going.advance (h : Going conv segs t) {session : Running} (hm : m < 2 ^ 32)
    (hkbuf : session.update.kcore.kbuf = t.core.kbuf)
    (hholds : session.update.kcore.kcp.Holds segs (t.nxt + m) (t.delivered ++ t.core.kbuf.contents))
    (hconv : session.update.kcore.kcp.conv = conv)
    (hclosed : session.update.kcore.kcp.closeState ≠ .no →
      t.core.kcp.closeState ≠ .no ∨ t.delivered ++ t.core.kbuf.contents = bytes segs) :
    Going conv segs (t.advance session) where
  holds := by
    rw [h.nxt_advance hm hholds.rcvNxt_eq]
    show Kcp.Holds _ _ (t.delivered ++ session.update.kcore.kbuf.contents) _
    rw [hkbuf]
    exact hholds
  conv_eq := hconv
  closed hc := by
    show t.delivered ++ session.update.kcore.kbuf.contents = _
    rw [hkbuf]
    exact (hclosed hc).elim h.closed (fun hall => hall)
  reset := h.reset
  early := h.early

/-- A step that does not touch what is received. -/
theorem Going.same (h : Going conv segs t) {session : Running}
    (hkbuf : session.update.kcore.kbuf = t.core.kbuf)
    (hk : session.update.kcore.kcp.standing.received = t.core.kcp.standing.received) :
    Going conv segs (t.advance session) := by
  refine h.advance (m := 0) (by decide) hkbuf (h.holds.congr (congrArg Prod.fst hk))
    ((congrArg (·.1.conv) hk).trans h.conv_eq) fun hc => .inl fun hopen => hc ?_
  have hstate : decide (session.update.kcore.kcp.closeState = .no) =
      decide (t.core.kcp.closeState = .no) := congrArg (·.2) hk
  simpa [hopen] using hstate

theorem standing_send (k : ThirdParty.Kcp) (data : Bytes) :
    (k.send data).1.standing = k.standing := by
  have hextend : (k.extendLast data).1.standing = k.standing := by
    unfold Kcp.extendLast
    split
    · rfl
    · split <;> rfl
  unfold Kcp.send
  split
  · rfl
  · generalize hp : (if k.stream = true then k.extendLast data else (k, data)) = p
    have hstanding : p.1.standing = k.standing := by
      rw [← hp]
      split
      · exact hextend
      · rfl
    simp only
    split
    · exact hstanding
    · split <;> exact hstanding

theorem pollWrite_same (c : KcpCore) (cx : Waker) (data : Bytes) :
    (c.pollWrite cx data).1.kbuf = c.kbuf ∧
      (c.pollWrite cx data).1.kcp.standing.received = c.kcp.standing.received := by
  have hsend := congrArg Kcp.Standing.received (standing_send c.kcp data)
  unfold KcpCore.pollWrite
  split
  · next hrun => exact ⟨rfl, by rw [hrun] at hsend; exact hsend⟩
  · next hrun => exact ⟨rfl, by rw [hrun] at hsend; exact hsend⟩
  · next hrun => exact ⟨rfl, by rw [hrun] at hsend; exact hsend⟩

theorem updating_same {c : KcpCore} {t : Tick} (hdead :
    (Kcp.update t.current t.clock (c.kcp, ⟨t.results, []⟩)).2.1.isDeadLink = false) :
    (c.updating t).1.kbuf = c.kbuf ∧
      (c.updating t).1.kcp.standing.received = c.kcp.standing.received := by
  have hkeeps := Kcp.update_keeps t.current t.clock (c.kcp, ⟨t.results, []⟩)
  unfold KcpCore.updating
  split
  · next hrun => exact ⟨rfl, by rw [hrun] at hkeeps; exact hkeeps⟩
  · next kcp out hrun =>
    rw [hrun] at hkeeps hdead
    have hlive : ¬ kcp.isDeadLink = true := by simpa using hdead
    simp only [KcpCore.updated, KcpCore.kcp_wakeReadIf, KcpCore.kcp_wakeWriteIf,
      KcpCore.kcp_wakeCloseIf, if_neg hlive, KcpCore.kbuf_wakeReadIf, KcpCore.kbuf_wakeWriteIf,
      KcpCore.kbuf_wakeCloseIf, true_and]
    exact hkeeps

theorem sleep_same (c : KcpCore) : (KcpUpdate.sleep c).1.kcore.kbuf = c.kbuf ∧
    (KcpUpdate.sleep c).1.kcore.kcp.standing.received = c.kcp.standing.received := by
  unfold KcpUpdate.sleep
  split <;> exact ⟨rfl, rfl⟩

theorem poll_same {u : KcpUpdate} (tick : Option Tick)
    (hdead : ∀ t ∈ tick, u.sleeping = true →
      (Kcp.update t.current t.clock (u.kcore.kcp, ⟨t.results, []⟩)).2.1.isDeadLink = false) :
    (u.poll tick).1.kcore.kbuf = u.kcore.kbuf ∧
      (u.poll tick).1.kcore.kcp.standing.received = u.kcore.kcp.standing.received := by
  unfold KcpUpdate.poll
  split
  · exact sleep_same u.kcore
  · next hsleeping =>
    split
    · exact ⟨rfl, rfl⟩
    · next t =>
      obtain ⟨hkbuf, hk⟩ := updating_same (hdead t rfl (by simpa using hsleeping))
      split
      · next hrun =>
        rw [hrun] at hkbuf hk
        exact ⟨hkbuf, hk⟩
      · next c hrun =>
        rw [hrun] at hkbuf hk
        exact ⟨(sleep_same c).1.trans hkbuf, (sleep_same c).2.trans hk⟩

theorem Going.poll (h : Going conv segs t) (hok : Drained (.poll tick) t) :
    Going conv segs (t.advance (t.session.poll tick)) := by
  unfold Running.poll
  split
  · exact h.same rfl rfl
  · next hended =>
    have hnone : t.session.ended = none := by simpa using hended
    obtain ⟨hkbuf, hk⟩ := poll_same (u := t.session.update) tick fun tick' htick hsleeping =>
      hok tick' (by
        cases htick
        exact Running.tick?_eq hnone hsleeping)
    split
    · next hrun =>
      rw [hrun] at hkbuf hk
      exact h.same hkbuf hk
    · next hrun =>
      rw [hrun] at hkbuf hk
      exact h.same hkbuf hk

/-! ## What arrives -/

/-- The input of a packet, for an invariant of the control block that counts the segments. -/
theorem input_packet (c : KcpCore) (packet : List KcpSegment) (P : Nat → ThirdParty.Kcp → Prop)
    (hfits : ∀ s ∈ packet, s.Fits conv) (hconv : ∀ n k, P n k → k.conv = conv)
    (hstep : ∀ n k acked, ∀ s ∈ packet, P n k → P (n + 1) (k.inputSegment s.wire acked).1)
    (hstanding : ∀ n (k k' : ThirdParty.Kcp), k'.standing = k.standing → P n k → P n k')
    (hP : P 0 c.kcp) :
    ∃ c', Session.input c (packet.flatMap (·.encode)) = (c', .ok ()) ∧ c'.kbuf = c.kbuf ∧
      P packet.length c'.kcp := by
  -- one call of `Kcp::input` takes all segments
  have hloop : ∃ k', Session.inputLoop (packet.flatMap (·.encode))
      (packet.flatMap (·.encode)).length c (packet.flatMap (·.encode)) =
        ({ c with kcp := k' }, .ok ()) ∧ P packet.length k' := by
    by_cases hne : packet = []
    · subst hne
      exact ⟨c.kcp, rfl, hP⟩
    · obtain ⟨k', hinput, hP'⟩ := Kcp.input_segments hfits hconv hstep hstanding hP hne
      have hlen := Kcp.length_encodings packet
      have hpos : 0 < packet.length := List.length_pos_iff.2 hne
      have hlong : overhead ≤ (packet.flatMap (·.encode)).length :=
        (Nat.le_mul_of_pos_right _ hpos).trans hlen
      refine ⟨k', ?_, hP'⟩
      generalize packet.flatMap (·.encode) = data at *
      obtain ⟨fuel, hfuel⟩ : ∃ fuel, data.length = fuel + 1 :=
        Nat.exists_eq_add_one.2 (Nat.lt_of_lt_of_le (by decide) hlong)
      have hrest : Session.inputLoop data fuel { c with kcp := k' } [] =
          ({ c with kcp := k' }, .ok ()) := by
        cases fuel <;> rfl
      rw [hfuel]
      unfold Session.inputLoop
      rw [if_pos hlong, hinput]
      simp only [List.drop_length, hrest]
  obtain ⟨k', hloop, hP'⟩ := hloop
  unfold Session.input
  rw [hloop]
  exact ⟨_, rfl, by simp, by simpa using hP'⟩

theorem near_offset {nxt : Nat} (h : Near nxt i) (hm : m ≤ 62464)
    (hoff : offset (nxt + m) (.ofNat i) < 1024) : nxt + m + offset (nxt + m) (.ofNat i) = i := by
  unfold Near at h
  unfold offset at *
  simp only [UInt32.toNat_sub, UInt32.toNat_ofNat'] at *
  omega

theorem fits_segment (hlen : ∀ s ∈ segs, s.data.length ≤ 1376) (p : Packet) :
    (p.segment conv segs).Fits conv := by
  cases p with
  | push i wnd ts una =>
    refine ⟨rfl, rfl, ?_⟩
    show ((segs.getD i {}).data).length < _
    rw [List.getD_eq_getElem?_getD]
    cases hi : segs[i]? with
    | none => exact Nat.two_pow_pos 32
    | some seg => exact Nat.lt_of_le_of_lt (hlen seg (List.mem_of_getElem? hi)) (by decide)
  | control c wnd ts sn una =>
    refine ⟨rfl, ?_, Nat.two_pow_pos 32⟩
    cases c <;> rfl

/-- A segment of a packet is that of its number. -/
theorem genuine_segment {nxt : Nat} (hnear : Near nxt i) (hm : m ≤ 62464) (hi : i < segs.length)
    (wnd : UInt16) (ts una : UInt32)
    (hoff : offset (nxt + m) ((Packet.push i wnd ts una).segment conv segs).sn < 1024) :
    Genuine segs (nxt + m) ((Packet.push i wnd ts una).segment conv segs).wire := by
  refine ⟨hoff, ?_⟩
  show (segs[nxt + m + offset (nxt + m) (.ofNat i)]?).map (·.data) = some (segs.getD i {}).data
  rw [near_offset hnear hm hoff, List.getD_eq_getElem?_getD, List.getElem?_eq_getElem hi]
  rfl

theorem inputPacket_closing (conv : UInt32) (segs : List KcpSegment) (k : ThirdParty.Kcp)
    (p : Packet) (acked : Option UInt32) :
    (k.inputSegment (p.segment conv segs).wire acked).1.conv = k.conv ∧
      (k.inputSegment (p.segment conv segs).wire acked).1.closeState = k.closeState := by
  cases p with
  | push i wnd ts una =>
    rw [Kcp.inputSegment_push k acked rfl]
    exact Kcp.closing_inputPush _ _
  | control c wnd ts sn una =>
    have hstanding := Kcp.standing_inputSegment k
      ((Packet.control c wnd ts sn una).segment conv segs).wire acked c.cmd_cases
    exact ⟨congrArg Kcp.Standing.conv hstanding, congrArg Kcp.Standing.closeState hstanding⟩

theorem inputPacket_holds {k : ThirdParty.Kcp} {nxt : Nat} {p : Packet} (acked : Option UInt32)
    (hk : k.Holds segs (nxt + m) d) (hm : m ≤ 62464)
    (hp : ∀ i ∈ p.number?, i < segs.length ∧ Near nxt i) :
    ∃ m' ≤ 1024,
      (k.inputSegment (p.segment conv segs).wire acked).1.Holds segs (nxt + m + m') d := by
  cases p with
  | push i wnd ts una =>
    obtain ⟨hi, hnear⟩ := hp i rfl
    rw [Kcp.inputSegment_push k acked rfl]
    have hheader : (k.inputHeader ((Packet.push i wnd ts una).segment conv segs).wire).Holds segs
        (nxt + m) d := hk.congr rfl
    exact hheader.inputPush fun hoff => genuine_segment hnear hm hi wnd ts una hoff
  | control c wnd ts sn una =>
    have hstanding := Kcp.standing_inputSegment k
      ((Packet.control c wnd ts sn una).segment conv segs).wire acked c.cmd_cases
    exact ⟨0, Nat.zero_le _, hk.congr (congrArg (·.received.1) hstanding)⟩

theorem Going.arrive (h : Going conv segs t) (hlen : ∀ s ∈ segs, s.data.length ≤ 1376)
    (hlegal : Legal conv segs (.arrive packets) t) (hok : Drained (.arrive packets) t) :
    Going conv segs (t.advance (Running.step (.input (datagram conv segs packets)) t.session)) := by
  have hsmall : packets.length ≤ 62 := by
    have := Kcp.length_encodings (packets.map (·.segment conv segs))
    have hfits : (datagram conv segs packets).length ≤ 1500 := hlegal.1
    simp only [overhead, List.length_map, datagram] at *
    omega
  obtain ⟨c, hinput, hkbuf, hconv, hstate, hholds⟩ := input_packet t.core
    (packets.map (·.segment conv segs))
    (fun n k => k.conv = conv ∧ k.closeState = t.core.kcp.closeState ∧ (n ≤ 62 →
      ∃ m ≤ 1024 * n, k.Holds segs (t.nxt + m) (t.delivered ++ t.core.kbuf.contents)))
    (fun s hs => by
      obtain ⟨p, -, rfl⟩ := List.mem_map.1 hs
      exact fits_segment hlen p)
    (fun n k hP => hP.1)
    (fun n k acked s hs hP => by
      obtain ⟨p, hp, rfl⟩ := List.mem_map.1 hs
      obtain ⟨hconv, hstate⟩ := inputPacket_closing conv segs k p acked
      refine ⟨hconv.trans hP.1, hstate.trans hP.2.1, fun hn => ?_⟩
      obtain ⟨m, hm, hholds⟩ := hP.2.2 (by omega)
      obtain ⟨m', hm', hholds'⟩ := inputPacket_holds acked hholds (by omega)
        fun i hi => ⟨hlegal.2 p hp i hi, hok p hp i hi⟩
      exact ⟨m + m', by omega, by rwa [← Nat.add_assoc]⟩)
    (fun n k k' hk hP => by
      refine ⟨(congrArg Kcp.Standing.conv hk).trans hP.1,
        (congrArg Kcp.Standing.closeState hk).trans hP.2.1, fun hn => ?_⟩
      obtain ⟨m, hm, hholds⟩ := hP.2.2 hn
      exact ⟨m, hm, hholds.congr (congrArg (·.received.1) hk)⟩)
    ⟨h.conv_eq, rfl, fun _ => ⟨0, Nat.zero_le _, h.holds⟩⟩
  rw [List.length_map] at hholds
  obtain ⟨m, hm, hholds⟩ := hholds hsmall
  have hstep : Running.step (.input (datagram conv segs packets)) t.session =
      t.session.setCore c := by
    show t.session.setCore (Session.input t.core (datagram conv segs packets)).1 = _
    rw [datagram, hinput]
  rw [hstep]
  exact h.advance (m := m) (by omega) hkbuf hholds hconv fun hc => .inl (hstate ▸ hc)

/-- When all segments were received and nothing is left of them, all bytes were read. -/
theorem Going.all_read (h : Going conv segs t) (hall : ∀ i < segs.length, t.Received i)
    (hpending : t.core.kcp.pending = []) : t.delivered ++ t.core.kbuf.contents = bytes segs := by
  obtain ⟨hqueue, hbuf⟩ := List.append_eq_nil_iff.1 hpending
  have htake := h.holds.queue
  rw [hqueue, List.append_nil] at htake
  have hdrop : bytes (segs.drop t.nxt) = [] := by
    refine List.flatMap_eq_nil_iff.2 fun seg hseg => ?_
    obtain ⟨i, hi⟩ := List.mem_iff_getElem?.1 hseg
    rw [List.getElem?_drop] at hi
    obtain ⟨hlt, -⟩ := List.getElem?_eq_some_iff.1 hi
    obtain ⟨s, hs, hoff⟩ := (hall (t.nxt + i) hlt).resolve_left (by omega)
    have hdata := (h.holds.buffered.genuine s hs).2
    rw [hoff, hi] at hdata
    have hnil : s.data = [] := List.flatMap_eq_nil_iff.1 hbuf s hs
    simpa [hnil] using hdata
  rw [htake]
  conv_rhs => rw [← List.take_append_drop t.nxt segs, bytes_append, hdrop, List.append_nil]

theorem received_inputCls (k : ThirdParty.Kcp) :
    k.inputCls.standing.received.1 = k.standing.received.1 ∧ k.inputCls.closeState ≠ .no := by
  unfold Kcp.inputCls
  simp only
  split <;> split
  · exact ⟨rfl, by simp⟩
  · exact ⟨rfl, by simp⟩
  · exact ⟨rfl, by simp⟩
  · next hopen => exact ⟨rfl, hopen⟩

/-- The packet that closes the conversation leaves what was received. -/
theorem input_cls {c : KcpCore} (hconv : c.kcp.conv = conv) :
    ∃ c', Session.input c (KcpSegment.encode { conv, cmd := cmdCls }) = (c', .ok ()) ∧
      c'.kbuf = c.kbuf ∧ c'.kcp.standing.received.1 = c.kcp.standing.received.1 ∧
      c'.kcp.closeState ≠ .no := by
  obtain ⟨c', hinput, hkbuf, hk, hclosed⟩ := input_packet c
    [{ conv, cmd := cmdCls }]
    (fun n k => k.standing.received.1 = c.kcp.standing.received.1 ∧
      (0 < n → k.closeState ≠ .no))
    (fun s hs => by
      obtain rfl := List.mem_singleton.1 hs
      exact ⟨rfl, rfl, Nat.two_pow_pos 32⟩)
    (fun n k hP => (congrArg Kcp.Standing.conv hP.1).trans hconv)
    (fun n k acked s hs hP => by
      obtain rfl := List.mem_singleton.1 hs
      rw [Kcp.inputSegment_cls k acked rfl]
      obtain ⟨hk, hclosed⟩ := received_inputCls (k.inputHeader _)
      exact ⟨hk.trans hP.1, fun _ => hclosed⟩)
    (fun n k k' hk hP => ⟨(congrArg (·.received.1) hk).trans hP.1, fun hn hopen =>
      hP.2 hn ((congrArg Kcp.Standing.closeState hk).symm.trans hopen)⟩)
    ⟨rfl, fun hn => absurd hn (Nat.lt_irrefl 0)⟩
  rw [List.flatMap_singleton] at hinput
  exact ⟨c', hinput, hkbuf, hk, hclosed Nat.one_pos⟩

theorem step_cls (h : Going conv segs t) : ∃ c, step conv segs .cls t =
      t.advance (t.session.setCore c) ∧ c.kbuf = t.core.kbuf ∧
      c.kcp.standing.received.1 = t.core.kcp.standing.received.1 ∧ c.kcp.closeState ≠ .no := by
  obtain ⟨c, hinput, hkbuf, hk, hclosed⟩ := input_cls h.conv_eq
  refine ⟨c, ?_, hkbuf, hk, hclosed⟩
  show t.advance (t.session.setCore
    (Session.input t.core (KcpSegment.encode { conv, cmd := cmdCls })).1) = _
  rw [hinput]

theorem Going.cls (h : Going conv segs t) (hlegal : Legal conv segs .cls t) (hok : Drained .cls t) :
    Going conv segs (step conv segs .cls t) := by
  obtain ⟨c, hstep, hkbuf, hk, -⟩ := step_cls h
  rw [hstep]
  exact h.advance (m := 0) (by decide) hkbuf (h.holds.congr hk)
    ((congrArg Kcp.Standing.conv hk).trans h.conv_eq) fun _ => .inr (h.all_read hlegal hok)

/-! ## What is read -/

theorem Going.pending_nil (h : Going conv segs t)
    (hall : t.delivered ++ t.core.kbuf.contents = bytes segs) : t.core.kcp.pending = [] := by
  have hsplit : bytes segs = bytes (segs.take t.nxt) ++ bytes (segs.drop t.nxt) := by
    rw [← bytes_append, List.take_append_drop]
  have hrest : bytes t.core.kcp.rcvQueue ++ bytes (segs.drop t.nxt) = [] := by
    rw [← h.holds.queue, ← hall, List.append_assoc] at hsplit
    exact List.self_eq_append_right.1 hsplit
  obtain ⟨hqueue, hdrop⟩ := List.append_eq_nil_iff.1 hrest
  have hbuf : bytes t.core.kcp.rcvBuf = [] := by
    refine List.flatMap_eq_nil_iff.2 fun s hs => ?_
    have hdata := (h.holds.buffered.genuine s hs).2
    rw [← List.getElem?_drop] at hdata
    obtain ⟨seg, hseg, hdata⟩ := Option.map_eq_some_iff.1 hdata
    rw [← hdata]
    exact List.flatMap_eq_nil_iff.1 hdrop seg (List.mem_of_getElem? hseg)
  rw [Kcp.pending, hqueue, hbuf]
  rfl

theorem Going.report (h : Going conv segs t) {c : KcpCore} {buf : ReadBuf}
    {r : Poll (KcpResult Nat)} (hm : m ≤ 1024)
    (hholds : c.kcp.Holds segs (t.nxt + m) (t.delivered ++ (buf.filled ++ c.kbuf.contents)))
    (hconv : c.kcp.conv = conv)
    (hclosed : c.kcp.closeState ≠ .no →
      t.delivered ++ (buf.filled ++ c.kbuf.contents) = bytes segs)
    (hreset : isReset r = true → t.delivered ++ buf.filled = bytes segs)
    (hend : (isReset r || isEof cap r) = true → c.kbuf.contents ++ c.kcp.pending = []) :
    Going conv segs ((t.advance (t.session.setCore c)).report cap (c, buf, r)) where
  holds := by
    show Kcp.Holds _ (t.advance (t.session.setCore c)).nxt
      (t.delivered ++ buf.filled ++ c.kbuf.contents) c.kcp
    rw [h.nxt_advance (by omega) hholds.rcvNxt_eq, List.append_assoc]
    exact hholds
  conv_eq := hconv
  closed hc := by
    show t.delivered ++ buf.filled ++ c.kbuf.contents = _
    rw [List.append_assoc]
    exact hclosed hc
  reset hr := by
    rcases (Bool.or_eq_true _ _).mp hr with hr | hr
    · -- all was read before, so that this read returns nothing
      have hpre : t.delivered ++ buf.filled <+: bytes segs := by
        have htake := prefix_bytes_take segs (t.nxt + m)
        rw [← hholds.queue, ← List.append_assoc, List.append_assoc _ c.kbuf.contents] at htake
        exact (List.prefix_append _ _).trans htake
      rw [← h.reset hr] at hpre ⊢
      exact hpre.eq_of_length_le (by simp)
    · exact hreset hr
  early := by
    show (t.early || _) = false
    rw [h.early, Bool.false_or, Bool.and_eq_false_iff]
    cases hreport : isReset r || isEof cap r with
    | false => exact .inl rfl
    | true =>
      right
      rw [hend hreport]
      rfl

theorem step_read {t : Transfer} (hread : t.core.pollRead cx (.new cap) = (c, buf, r)) :
    step conv segs (.read cx cap) t =
      (t.advance (t.session.setCore c)).report cap (c, buf, r) := by
  show (t.advance (t.session.setCore (t.core.pollRead cx (.new cap)).1)).report cap
    (t.core.pollRead cx (.new cap)) = _
  rw [hread]

theorem Going.read (h : Going conv segs t) (hok : Drained (.read cx cap) t) :
    Going conv segs (step conv segs (.read cx cap) t) := by
  by_cases hkbuf : t.core.kbuf.contents = []
  · by_cases hopen : t.core.kcp.closeState = .no
    · cases hpeek : t.core.kcp.peeksize with
      | error e =>
        rw [step_read (pollRead_waits cx cap hkbuf hopen hpeek)]
        exact h.report (m := 0) (Nat.zero_le _) h.holds h.conv_eq h.closed (fun hr => by cases hr)
          (fun hr => by cases hr)
      | ok size =>
        have hholds := h.holds
        rw [hkbuf, List.append_nil] at hholds
        obtain ⟨c, buf, n, hread, hopen', hconv, hsize, hpending, hlen, m, hm, hholds'⟩ :=
          pollRead_empty cx cap hkbuf hopen hpeek hholds
        rw [step_read hread]
        refine h.report hm hholds' (hconv.trans h.conv_eq) (fun hc => absurd hopen' hc)
          (fun hr => by cases hr) fun hr => ?_
        -- an empty message
        obtain ⟨rfl, hcap⟩ : n = 0 ∧ 0 < cap := by
          cases n with
          | zero => exact ⟨rfl, by simpa [isReset, isEof] using hr⟩
          | succ n => cases hr
        obtain rfl := hsize rfl hcap
        rw [hok hkbuf hopen hpeek hcap, List.append_assoc] at hpending
        exact (List.append_eq_nil_iff.1 hpending).2
    · have hall := h.closed hopen
      rw [step_read (pollRead_closed cx cap hkbuf hopen)]
      refine h.report (m := 0) (Nat.zero_le _) h.holds h.conv_eq h.closed (fun _ => ?_) fun _ => ?_
      · rw [hkbuf] at hall
        exact hall
      · rw [hkbuf, h.pending_nil hall]
        rfl
  · obtain ⟨c, buf, n, hread, hkcp, hcontents, -, hzero⟩ := pollRead_kbuf cx cap hkbuf
    rw [step_read hread]
    refine h.report (m := 0) (Nat.zero_le _) ?_ (hkcp ▸ h.conv_eq) ?_ (fun hr => by cases hr)
      fun hr => ?_
    · rw [hcontents, hkcp]
      exact h.holds
    · rw [hcontents, hkcp]
      exact h.closed
    · have hcap : n = 0 ∧ 0 < cap := by
        cases n with
        | zero => exact ⟨rfl, by simpa [isReset, isEof] using hr⟩
        | succ n => cases hr
      exact absurd (hzero hcap.1) (by omega)

/-! ## Runs -/

theorem Going.new (conv : UInt32) (segs : List KcpSegment) : Going conv segs (new conv) where
  holds := ⟨rfl, rfl, Nat.zero_le _, rfl, ⟨fun s hs => (List.not_mem_nil hs).elim, .nil⟩⟩
  conv_eq := rfl
  closed hc := absurd rfl hc
  reset hr := by cases hr
  early := rfl

theorem Going.step (h : Going conv segs t) (hlen : ∀ s ∈ segs, s.data.length ≤ 1376)
    (hlegal : Legal conv segs e t) (hok : Drained e t) : Going conv segs (step conv segs e t) := by
  cases e with
  | read cx cap => exact h.read hok
  | write cx data =>
    obtain ⟨hkbuf, hk⟩ := pollWrite_same t.core cx data
    exact h.same hkbuf hk
  | poll tick => exact h.poll hok
  | clean clock =>
    have hclose : Session.close t.core clock = (t.core, .error .connectionReset) := by
      have hkcp : t.core.kcp.close clock = (t.core.kcp, .error .connectionReset) := if_neg hok
      rw [Session.close, hkcp]
    have hsession : Running.step (.close clock) t.session = t.session.setCore t.core := by
      show t.session.setCore (Session.close t.core clock).1 = _
      rw [hclose]
    show Going conv segs (t.advance (Running.step (.close clock) t.session))
    rw [hsession]
    exact h.same rfl rfl
  | arrive packets => exact h.arrive hlen hlegal hok
  | cls => exact h.cls hlegal hok

/-! ### A conversation that is closed too early -/

/-- A read that finds the conversation closed, with bytes that were not read. -/
theorem read_early {t : Transfer} (hkbuf : t.core.kbuf.contents = [])
    (hclosed : t.core.kcp.closeState ≠ .no) (hpending : t.core.kcp.pending ≠ []) :
    (step conv segs (.read 0 1) t).early = true := by
  rw [step_read (pollRead_closed 0 1 hkbuf hclosed)]
  show (t.early || (true || _) && t.core.kbuf.contents ++ t.core.kcp.pending != []) = true
  simp [hpending]

/-- Behind an early close the reads get what is left of a message, and then the end. -/
theorem exists_early (conv : UInt32) (segs : List KcpSegment) {t : Transfer}
    (hclosed : t.core.kcp.closeState ≠ .no)
    (hpending : t.core.kcp.pending ≠ []) :
    ∃ caps : List Nat, (after (step conv segs) t (caps.map (.read 0))).early = true := by
  by_cases hkbuf : t.core.kbuf.contents = []
  · exact ⟨[1], read_early hkbuf hclosed hpending⟩
  · obtain ⟨c, buf, n, hread, hkcp, -, hrest, -⟩ :=
      pollRead_kbuf 0 t.core.kbuf.contents.length hkbuf
    rw [List.drop_length] at hrest
    refine ⟨[t.core.kbuf.contents.length, 1], ?_⟩
    show (step conv segs (.read 0 1) (step conv segs (.read 0 _) t)).early = true
    rw [step_read hread]
    exact read_early hrest (hkcp ▸ hclosed) (hkcp ▸ hpending)

/-- A run of admissible events goes on. -/
theorem going_after (conv : UInt32) {segs : List KcpSegment}
    (hlen : ∀ s ∈ segs, s.data.length ≤ 1376)
    (hlegal : Admissible (step conv segs) (Legal conv segs) (new conv) events)
    (hok : Admissible (step conv segs) Drained (new conv) events) :
    Going conv segs (after (step conv segs) (new conv) events) :=
  have hboth : Admissible (step conv segs) (fun e t => Legal conv segs e t ∧ Drained e t) (new conv)
      events := fun pre e hpre => ⟨hlegal pre e hpre, hok pre e hpre⟩
  after_guarded (fun _ _ h hok => h.step hlen hok.1 hok.2) (Going.new conv segs) hboth

/-- The peer reads all bytes in order before it reports the end, in every state of a run in which
the conversation is closed when nothing is left of what it received. Where something is left, there
are reads that lose it. -/
theorem graceful_of_drained (conv : UInt32) (messages : List Bytes) (events : List Event)
    (hlegal : Admissible (step conv (segments messages)) (Legal conv (segments messages)) (new conv)
      events) :
    (Admissible (step conv (segments messages)) Drained (new conv) events →
      ∀ pre, pre <+: events →
        Kept (taken messages) (after (step conv (segments messages)) (new conv) pre)) ∧
    ∀ pre, pre ++ [.cls] <+: events →
      Admissible (step conv (segments messages)) Drained (new conv) pre →
      (after (step conv (segments messages)) (new conv) pre).core.kcp.pending ≠ [] →
      ∃ caps : List Nat, ¬ Kept (taken messages) (after (step conv (segments messages)) (new conv)
        (pre ++ .cls :: caps.map (.read 0))) := by
  obtain ⟨hbytes, hlen⟩ := segments_spec messages
  have hlegal' : ∀ pre, pre <+: events →
      Admissible (step conv (segments messages)) (Legal conv (segments messages)) (new conv) pre :=
    fun pre hpre pre' e h => hlegal pre' e (h.trans hpre)
  refine ⟨fun hok pre hpre => ?_, fun pre hpre hok hpending => ?_⟩
  · rw [← hbytes]
    exact (going_after conv hlen (hlegal' pre hpre) fun pre' e h => hok pre' e (h.trans hpre)).kept
  · have h := going_after conv hlen (hlegal' pre ((List.prefix_append _ _).trans hpre)) hok
    obtain ⟨c, hstep, -, hk, hclosed⟩ := step_cls h
    have hpending' : c.kcp.pending ≠ [] := by
      rw [Kcp.pending_congr hk]
      exact hpending
    obtain ⟨caps, hearly⟩ := exists_early conv (segments messages)
      (t := Transfer.advance _ (Running.setCore _ c)) hclosed hpending'
    refine ⟨caps, fun hkept => ?_⟩
    rw [after_append, after_cons, hstep] at hkept
    rw [hkept.2.2] at hearly
    cases hearly

/-- A run in which the peer reads before the conversation is closed. -/
theorem graceful_of_drained_prompt : Kept (taken [[1]])
    (after (step 7 (segments [[1]])) (new 7) [.poll none, .arrive [.push 0 128 0 0], .read 1 16,
      .poll (some ⟨20, 20, []⟩), .cls, .read 1 16]) :=
  (graceful_of_drained 7 [[1]] [.poll none, .arrive [.push 0 128 0 0], .read 1 16,
    .poll (some ⟨20, 20, []⟩), .cls, .read 1 16] (by decide)).1 (by decide) _ List.prefix_rfl

/-- A message arrives and its acknowledgement is sent. Then the conversation is closed before the
peer reads. -/
theorem late_reader :
    (after (step 7 (segments [[1]])) (new 7) [.poll none, .arrive [.push 0 128 0 0],
      .poll (some ⟨20, 20, []⟩)]).core.written =
        [KcpSegment.encode { conv := 7, cmd := cmdAck, wnd := 1023, una := 1 }] ∧
    Admissible (step 7 (segments [[1]])) (Legal 7 (segments [[1]])) (new 7)
      [.poll none, .arrive [.push 0 128 0 0], .poll (some ⟨20, 20, []⟩), .cls, .read 1 16] ∧
    ¬ Kept (taken [[1]]) (after (step 7 (segments [[1]])) (new 7)
      [.poll none, .arrive [.push 0 128 0 0], .poll (some ⟨20, 20, []⟩), .cls, .read 1 16]) := by
  decide

end Transfer
end Fuso.Kcp

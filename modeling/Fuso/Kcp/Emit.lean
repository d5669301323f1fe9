import Fuso.Kcp.Speaks

/-!
# What an endpoint writes

Every packet that `update` writes is honest, also when writes fail on the way (`update_tells`). What
is written of an older state waits in `buf` for the next flush, and stays so.
-/

namespace Fuso.ThirdParty

namespace Kcp
open KcpM
variable {conv : UInt32} {v : Dialogue} {nxt : Nat} {done : Bytes} {k k' : Kcp}

/-- An endpoint that has written honest packets. -/
structure Tells (conv : UInt32) (v : Dialogue) (nxt : Nat) (done : Bytes) (s : Kcp × Output) :
    Prop where
  speaks : Speaks conv v nxt done s.1
  written : ∀ packet ∈ s.2.written, HonestPacket conv v packet

theorem Tells.congr {s : Kcp × Output} (h : Tells conv v nxt done s)
    (hk : k'.spoken = s.1.spoken) : Tells conv v nxt done (k', s.2) :=
  ⟨h.speaks.congr hk, h.written⟩

/-! ## Writing -/

/-- A write leaves the control block. -/
theorem write_ensures {packet : Bytes} (hpacket : HonestPacket conv v packet) (C : Kcp → Prop) :
    Ensures (fun s => Tells conv v nxt done s ∧ C s.1) (write packet)
      (fun _ s => Tells conv v nxt done s ∧ C s.1) (fun s => Tells conv v nxt done s ∧ C s.1) := by
  rintro s ⟨htells, hC⟩
  rcases write_cases packet s with hrun | ⟨o, hrun, hwritten⟩ | ⟨e, o, hrun, hwritten⟩
  · rw [hrun]
    exact ⟨htells, hC⟩
  · rw [hrun]
    refine ⟨⟨htells.speaks, fun p hp => ?_⟩, hC⟩
    rw [hwritten] at hp
    rcases List.mem_append.1 hp with hp | hp
    · exact htells.written p hp
    · exact List.mem_singleton.1 hp ▸ hpacket
  · rw [hrun]
    exact ⟨⟨htells.speaks, fun p hp => htells.written p (hwritten ▸ hp)⟩, hC⟩

/-- What is in the buffer is written, and nothing else changes. -/
theorem makeRoom_ensures {need : Nat} (hneed : need ≤ 1400) (C : Kcp → Prop)
    (hC : ∀ k buf, C k → C { k with buf }) :
    Ensures (fun s => Tells conv v nxt done s ∧ C s.1) (makeRoom need)
      (fun _ s => Tells conv v nxt done s ∧ C s.1 ∧ s.1.buf.length + need ≤ 1400)
      (Tells conv v nxt done) := by
  refine .bind (Q := fun k s => (Tells conv v nxt done s ∧ C s.1) ∧ s.1 = k)
    (.get fun s hs => ⟨hs, rfl⟩) fun k => .when (fun _ => ?_) fun hfits s hs => ?_
  · rintro s ⟨⟨htells, hk⟩, rfl⟩
    refine Ensures.bind ((write_ensures htells.speaks.buf C).mono (fun _ hs => hs)
      (fun _ _ hs => hs) fun _ hs => hs.1) (fun _ => .modify fun s' hs' => ?_) s ⟨htells, hk⟩
    exact ⟨⟨hs'.1.speaks.with_buf honestPacket_nil, hs'.1.written⟩, hC _ _ hs'.2, by simpa⟩
  · obtain ⟨⟨htells, hC⟩, rfl⟩ := hs
    exact ⟨htells, hC, by rwa [htells.speaks.mtu_eq, Nat.not_lt] at hfits⟩

theorem putSegment_ensures {seg : KcpSegment} (hseg : Honest conv v seg) (C : Kcp → Prop)
    (hC : ∀ k buf, C k → C { k with buf }) :
    Ensures (fun s => Tells conv v nxt done s ∧ C s.1 ∧
        s.1.buf.length + (overhead + seg.data.length) ≤ 1400) (putSegment seg)
      (fun _ s => Tells conv v nxt done s ∧ C s.1) (Tells conv v nxt done) :=
  .modify fun _ ⟨htells, hk, hlen⟩ =>
    ⟨⟨htells.speaks.with_buf (htells.speaks.buf.append hseg hlen), htells.written⟩, hC _ _ hk⟩

/-! ## Acknowledgements and probes -/

/-- What an acknowledgement says apart from its number. -/
structure Heading (conv : UInt32) (v : Dialogue) (seg : KcpSegment) : Prop where
  conv_eq : seg.conv = conv
  cmd : seg.cmd = cmdAck
  una : ∃ m, seg.una = .ofNat m ∧ .upTo m ∈ v.inc.network
  data : seg.data = []

theorem Speaks.heading (h : Speaks conv v nxt done k) : Heading conv v k.ackSegment where
  conv_eq := h.conv_eq
  cmd := rfl
  una := ⟨nxt, h.receiver.holds.rcvNxt_eq, h.receiver.upTo⟩
  data := rfl

theorem Heading.honest (h : Heading conv v seg) (hack : .ack i ∈ v.inc.network) (ts : UInt32) :
    Honest conv v { seg with sn := .ofNat i, ts } where
  conv_eq := h.conv_eq
  una := h.una
  length_le := by simp [h.data]
  content := .ack i h.cmd rfl hack

theorem flushAcks_ensures (acks : List (UInt32 × UInt32)) {seg : KcpSegment}
    (hseg : Heading conv v seg) (hacks : ∀ p ∈ acks, ∃ i, p.1 = .ofNat i ∧ .ack i ∈ v.inc.network) :
    Ensures (Tells conv v nxt done) (flushAcks seg acks)
      (fun seg s => Tells conv v nxt done s ∧ Heading conv v seg) (Tells conv v nxt done) := by
  induction acks generalizing seg with
  | nil =>
    refine .bind (Q := fun _ s => Tells conv v nxt done s) (.modify fun s hs => ?_) fun _ =>
      .pure _ fun s hs => ⟨hs, hseg⟩
    exact ⟨{ hs.speaks with
      sender := hs.speaks.sender.congr rfl
      receiver := hs.speaks.receiver.congr rfl (List.nil_subset _) }, hs.written⟩
  | cons ack acks ih =>
    obtain ⟨sn, ts⟩ := ack
    obtain ⟨i, rfl, hack⟩ := hacks _ List.mem_cons_self
    have hnext : Heading conv v { seg with sn := .ofNat i, ts } := { hseg with }
    have hroom : overhead + ({ seg with sn := .ofNat i, ts } : KcpSegment).data.length = overhead :=
      by rw [hnext.data]; rfl
    refine .bind ((makeRoom_ensures (by decide : overhead ≤ 1400) (fun _ => True)
      fun _ _ _ => trivial).mono (fun s hs => ⟨hs, trivial⟩) (fun _ s hs => hs) fun s hs => hs)
      fun _ => .bind ((putSegment_ensures (hseg.honest hack ts) (fun _ => True)
        fun _ _ _ => trivial).mono (fun s hs => ?_) (fun _ s hs => hs.1) fun s hs => hs) fun _ =>
      ih hnext fun p hp => hacks p (List.mem_cons_of_mem _ hp)
    rw [hroom]
    exact hs

theorem spoken_probeWndSize (k : Kcp) : k.probeWndSize.spoken = k.spoken := by
  unfold probeWndSize spoken flight standing
  split
  · rfl
  · split <;> rfl

theorem flushProbe_ensures (ask : UInt32) {seg : KcpSegment} (hseg : Honest conv v seg)
    (hdata : seg.data = []) : Ensures (Tells conv v nxt done) (flushProbe ask seg)
      (fun _ => Tells conv v nxt done) (Tells conv v nxt done) := by
  refine .bind (Q := fun _ => Tells conv v nxt done) (.get fun s hs => hs) fun k =>
    .when (fun _ => ?_) fun _ s hs => hs
  refine .bind ((makeRoom_ensures (by decide : overhead ≤ 1400) (fun _ => True)
    fun _ _ _ => trivial).mono (fun s hs => ⟨hs, trivial⟩) (fun _ s hs => hs) fun s hs => hs)
    fun _ => (putSegment_ensures hseg (fun _ => True) fun _ _ _ => trivial).mono
      (fun s hs => ?_) (fun _ s hs => hs.1) fun s hs => hs
  rw [hdata]
  exact hs

theorem flushProbeCommands_ensures {seg : KcpSegment} (hseg : Heading conv v seg) :
    Ensures (Tells conv v nxt done) (flushProbeCommands seg)
      (fun _ => Tells conv v nxt done) (Tells conv v nxt done) := by
  have hprobe : ∀ cmd, cmd = cmdWask ∨ cmd = cmdWins → Honest conv v { seg with cmd } :=
    fun cmd hcmd => {
      conv_eq := hseg.conv_eq
      una := hseg.una
      length_le := by simp [hseg.data]
      content := .control (hcmd.imp_right .inl) }
  exact .bind (flushProbe_ensures askSend (hprobe cmdWask (.inl rfl)) hseg.data) fun _ =>
    .bind (flushProbe_ensures askTell (hprobe cmdWins (.inr rfl)) hseg.data) fun _ =>
    .modify fun s hs => hs.congr rfl

/-! ## Data -/

/-- The next segment of the queue gets its number. -/
theorem Sender.number {s : Arq.State KcpSegment} {queue : List KcpSegment}
    (h : Sender conv s { k with sndQueue := seg :: queue }) (wnd : UInt16)
    (hconv : k.conv = conv) :
    ∃ s', Arq.Sending s s' ∧ s'.queue = s.queue ∧
      Sender conv s' { k with
        sndNxt := k.sndNxt + 1
        sndBuf := k.sndBuf ++ [{ seg with
          conv := k.conv, cmd := cmdPush, wnd, ts := k.current, sn := k.sndNxt, una := k.rcvNxt
          resendts := k.current, rto := k.rxRto, fastack := 0, xmit := 0 }]
        sndQueue := queue } := by
  have hdrop : s.queue.drop s.sent = seg :: queue := h.queue_eq.symm
  have hlt : s.sent < s.queue.length := by
    apply Nat.lt_of_not_le
    intro hle
    rw [List.drop_of_length_le hle] at hdrop
    cases hdrop
  obtain ⟨hget, hrest⟩ : s.queue[s.sent] = seg ∧ s.queue.drop (s.sent + 1) = queue := by
    rw [List.drop_eq_getElem_cons hlt] at hdrop
    exact List.cons.inj hdrop
  have hmem : seg ∈ s.queue := hget ▸ List.getElem_mem hlt
  refine ⟨_, .tail (.single (.number s 1 hlt)) (.offer _), rfl, ?_⟩
  refine ⟨hlt, ?_, hrest.symm, fun seg' hseg' => ?_, ?_, h.length_le⟩
  · have hnxt : k.sndNxt = .ofNat s.sent := h.sndNxt_eq
    show k.sndNxt + 1 = .ofNat (s.sent + 1)
    rw [hnxt, UInt32.ofNat_add]
    rfl
  · rcases List.mem_append.1 hseg' with hseg' | hseg'
    · exact (h.kept seg' hseg').mono Set.subset_union_left
    · obtain rfl := List.mem_singleton.1 hseg'
      refine ⟨hconv, rfl, h.length_le seg hmem, s.sent, seg,
        .inr ⟨⟨.inr ⟨Nat.le_refl _, Nat.lt_succ_self _⟩, ?_⟩, _, _, rfl⟩, h.sndNxt_eq, rfl, rfl⟩
      show s.queue[s.sent]? = some seg
      rw [List.getElem?_eq_getElem hlt, hget]
  · rintro i (hi | ⟨hge, hlt'⟩)
    · obtain ⟨seg', hseg', hsn⟩ := h.unacked i hi
      exact ⟨seg', List.mem_append_left _ hseg', hsn⟩
    · obtain rfl : i = s.sent := by omega
      exact ⟨_, List.mem_append_right _ (List.mem_singleton_self _), h.sndNxt_eq⟩

theorem Sender.moveQueue {s : Arq.State KcpSegment} (wnd cwnd : UInt16) (queue : List KcpSegment)
    (h : Sender conv s { k with sndQueue := queue }) (hconv : k.conv = conv) :
    ∃ s', Arq.Sending s s' ∧ s'.queue = s.queue ∧ Sender conv s' (moveQueue wnd cwnd k queue) := by
  induction queue generalizing k s with
  | nil => exact ⟨s, .refl, rfl, h⟩
  | cons seg queue ih =>
    unfold Kcp.moveQueue
    split
    · obtain ⟨s₁, hs₁, hqueue₁, h₁⟩ := h.number wnd hconv
      obtain ⟨s₂, hs₂, hqueue₂, h₂⟩ := ih (k := { k with
        sndNxt := k.sndNxt + 1
        sndBuf := k.sndBuf ++ [{ seg with
          conv := k.conv, cmd := cmdPush, wnd, ts := k.current, sn := k.sndNxt, una := k.rcvNxt
          resendts := k.current, rto := k.rxRto, fastack := 0, xmit := 0 }] })
        (h₁.congr rfl) hconv
      exact ⟨s₂, hs₁.trans hs₂, hqueue₂.trans hqueue₁, h₂⟩
    · exact ⟨s, .refl, rfl, h⟩

theorem Speaks.moveQueue (h : Speaks conv v nxt done k) (wnd cwnd : UInt16) :
    ∃ v', v.Leads v' ∧ v'.out.queue = v.out.queue ∧
      Speaks conv v' nxt done (moveQueue wnd cwnd k k.sndQueue) := by
  obtain ⟨s, hs, hqueue, hsender⟩ := h.sender.moveQueue wnd cwnd k.sndQueue h.conv_eq
  have hsends := sends_moveQueue wnd cwnd k.sndQueue k
  have hframe : ∀ (queue : List KcpSegment) (k : Kcp),
      (Kcp.moveQueue wnd cwnd k queue).mtu = k.mtu ∧
        (Kcp.moveQueue wnd cwnd k queue).acklist = k.acklist ∧
        (Kcp.moveQueue wnd cwnd k queue).buf = k.buf := by
    intro queue
    induction queue with
    | nil => exact fun k => ⟨rfl, rfl, rfl⟩
    | cons seg queue ih =>
      intro k
      unfold Kcp.moveQueue
      split
      · exact ih _
      · exact ⟨rfl, rfl, rfl⟩
  obtain ⟨hmtu, hacks, hbuf⟩ := hframe k.sndQueue k
  have hleads : v.Leads ⟨s, v.inc⟩ := ⟨hs, .refl⟩
  refine ⟨⟨s, v.inc⟩, hleads, hqueue, ?_⟩
  exact {
    conv_eq := (congrArg Standing.conv hsends.standing).trans h.conv_eq
    inputConv_eq := (congrArg Standing.inputConv hsends.standing).trans h.inputConv_eq
    mtu_eq := hmtu.trans h.mtu_eq
    mss_eq := hsends.mss.trans h.mss_eq
    stream_eq := hsends.stream.trans h.stream_eq
    sender := hsender
    receiver := h.receiver.congr (congrArg (·.received.1) hsends.standing)
      (hacks ▸ List.Subset.refl _)
    buf := hbuf ▸ h.buf.mono hleads.within }

/-- What is sent of a segment that the sender has. -/
theorem Speaks.honest_data {s : KcpSegment} (h : Speaks conv v nxt done k)
    (hs : Kept conv v.out s) (huna : s.una = k.rcvNxt) :
    Honest conv v s where
  conv_eq := hs.conv_eq
  una := ⟨nxt, huna.trans h.receiver.holds.rcvNxt_eq, h.receiver.upTo⟩
  length_le := hs.length_le
  content := by
    obtain ⟨i, a, hthere, hsn, hdata, hfrg⟩ := hs.offered
    exact .push i a hs.cmd hsn hthere hdata hfrg

theorem carried_resend {seg seg' : KcpSegment}
    (h : k.resend resent rtomin seg = some (cause, seg')) :
    seg'.carried = seg.carried := by
  unfold resend at h
  split at h
  · obtain ⟨-, rfl⟩ := Prod.ext_iff.1 (Option.some.inj h)
    rfl
  · split at h
    · obtain ⟨-, rfl⟩ := Prod.ext_iff.1 (Option.some.inj h)
      rfl
    · split at h
      · obtain ⟨-, rfl⟩ := Prod.ext_iff.1 (Option.some.inj h)
        rfl
      · cases h

/-- A segment is in the place of one that carries the same. -/
theorem Tells.replace {s : Kcp × Output} {gone rest : List KcpSegment} {seg : KcpSegment}
    (h : Tells conv v nxt done s) (out : KcpSegment)
    (hbuf : s.1.sndBuf.map (·.carried) = (gone ++ seg :: rest).map (·.carried))
    (hout : out.carried = seg.carried) :
    (∀ xmit, Tells conv v nxt done ({ s.1 with sndBuf := gone ++ out :: rest, xmit }, s.2)) ∧
      Kept conv v.out out := by
  have hsame : (gone ++ out :: rest).map (·.carried) = s.1.sndBuf.map (·.carried) := by
    rw [hbuf, List.map_append, List.map_append, List.map_cons, List.map_cons, hout]
  refine ⟨fun xmit => h.congr ?_, ?_⟩
  · unfold spoken flight
    simp only [hsame]
    rfl
  · have hmem : out ∈ gone ++ out :: rest := List.mem_append_right _ List.mem_cons_self
    obtain ⟨seg₀, hseg₀, hcarried⟩ := exists_carried hsame.symm hmem
    exact (h.speaks.sender.kept seg₀ hseg₀).congr hcarried.symm

theorem flushSegments_ensures (wnd : UInt16) (resent rtomin : UInt32) (rest : List KcpSegment)
    (gone : List KcpSegment) (lost : Bool) (change : Nat) :
    Ensures (fun s => Tells conv v nxt done s ∧
        s.1.sndBuf.map (·.carried) = (gone ++ rest).map (·.carried))
      (flushSegments wnd resent rtomin gone lost change rest)
      (fun _ => Tells conv v nxt done) (Tells conv v nxt done) := by
  induction rest generalizing gone lost change with
  | nil => exact .pure _ fun s hs => hs.1
  | cons seg rest ih =>
    rintro s ⟨htells, hbuf⟩
    unfold flushSegments
    rw [get_bind]
    cases hresend : s.1.resend resent rtomin seg with
    | none =>
      refine ih (gone ++ [seg]) lost change s ⟨htells, ?_⟩
      rw [hbuf, List.append_assoc]
      rfl
    | some sent =>
      obtain ⟨cause, seg'⟩ := sent
      simp only
      rw [modify_bind]
      -- what is sent again takes the place of the segment
      let out : KcpSegment := { seg' with ts := s.1.current, wnd, una := s.1.rcvNxt }
      have hsent : seg'.carried = seg.carried := carried_resend hresend
      obtain ⟨hreplaced, hkept⟩ := htells.replace out hbuf hsent
      have hhonest : Honest conv v out := htells.speaks.honest_data hkept rfl
      have hlen : overhead + out.data.length ≤ 1400 := by
        have := hkept.length_le
        unfold overhead
        omega
      let C : Kcp → Prop := fun k =>
        k.sndBuf.map (·.carried) = (gone ++ [out] ++ rest).map (·.carried)
      refine Ensures.bind (P := fun s => Tells conv v nxt done s ∧ C s.1)
        (makeRoom_ensures hlen C fun _ _ h => h) (fun _ =>
        .bind (putSegment_ensures hhonest C fun _ _ h => h) fun _ =>
        .bind (Q := fun _ s => Tells conv v nxt done s ∧ C s.1) (.modify fun s hs => ?_) fun _ => ?_)
        _ ⟨hreplaced _, ?_⟩
      · split
        · exact ⟨hs.1.congr rfl, hs.2⟩
        · exact hs
      · cases cause <;> exact ih _ _ _
      · show (gone ++ out :: rest).map _ = _
        rw [List.append_assoc]
        rfl

/-! ## A flush -/

theorem spoken_shrink (k : Kcp) (cwnd : UInt16) (resent : UInt32) (lost : Bool) (change : Nat) :
    ((k.shrinkFast resent change).shrinkLost cwnd lost).openCwnd.spoken = k.spoken := by
  have hfast : (k.shrinkFast resent change).spoken = k.spoken := by
    unfold shrinkFast
    split <;> rfl
  have hlost : ∀ k : Kcp, (k.shrinkLost cwnd lost).spoken = k.spoken := fun k => by
    unfold shrinkLost
    split <;> rfl
  have hopen : ∀ k : Kcp, k.openCwnd.spoken = k.spoken := fun k => by
    unfold openCwnd
    split <;> rfl
  rw [hopen, hlost, hfast]

/-- The endpoint has gone on from `v`, and nothing was queued. -/
def Comes (conv : UInt32) (v : Dialogue) (nxt : Nat) (done : Bytes) (s : Kcp × Output) : Prop :=
  ∃ v', v.Leads v' ∧ v'.out.queue = v.out.queue ∧ Tells conv v' nxt done s

theorem Tells.comes {s : Kcp × Output} (h : Tells conv v nxt done s) : Comes conv v nxt done s :=
  ⟨v, .refl v, rfl, h⟩

theorem Comes.congr {s : Kcp × Output} (h : Comes conv v nxt done s)
    (hk : k'.spoken = s.1.spoken) : Comes conv v nxt done (k', s.2) := by
  obtain ⟨v', hleads, hqueue, htells⟩ := h
  exact ⟨v', hleads, hqueue, htells.congr hk⟩

/-- The part of a flush behind the numbering. -/
theorem flushData_ensures (wnd cwnd : UInt16) :
    Ensures (Tells conv v nxt done)
      (do
        let k ← KcpM.get
        let resent : UInt32 := if 0 < k.fastresend then k.fastresend else 0xFFFFFFFF
        let rtomin : UInt32 := if k.nodelay then 0 else k.rxRto >>> 3
        let sent ← flushSegments wnd resent rtomin [] false 0 k.sndBuf
        let k ← KcpM.get
        when (k.buf ≠ []) do
          write k.buf
          KcpM.modify ({ · with buf := [] })
        KcpM.modify fun k => ((k.shrinkFast resent sent.2).shrinkLost cwnd sent.1).openCwnd)
      (fun _ => Tells conv v nxt done) (Tells conv v nxt done) := by
  refine .bind (Q := fun k s => Tells conv v nxt done s ∧ s.1 = k) (.get fun s hs => ⟨hs, rfl⟩)
    fun k => .bind ((flushSegments_ensures wnd _ _ k.sndBuf [] false 0).mono
      (fun s hs => ⟨hs.1, ?_⟩) (fun _ s hs => hs) fun s hs => hs) fun sent =>
    .bind (Q := fun k s => Tells conv v nxt done s ∧ s.1 = k) (.get fun s hs => ⟨hs, rfl⟩)
    fun k => .bind (.when (Q := fun _ => Tells conv v nxt done) (fun _ => ?_) fun _ s hs => hs.1)
    fun _ => .modify fun s hs => hs.congr (spoken_shrink _ _ _ _ _)
  · rw [hs.2]
    rfl
  · rintro s ⟨hs, rfl⟩
    refine Ensures.bind ((write_ensures hs.speaks.buf fun _ => True).mono (fun _ hs => hs)
      (fun _ _ hs => hs) fun _ hs => hs.1) (fun _ => .modify fun s' hs' => ?_) s ⟨hs, trivial⟩
    exact ⟨hs'.1.speaks.with_buf honestPacket_nil, hs'.1.written⟩

theorem flushAll_ensures :
    Ensures (Tells conv v nxt done) flushAll (fun _ => Comes conv v nxt done)
      (Comes conv v nxt done) := by
  have hcomes : ∀ s, Tells conv v nxt done s → Comes conv v nxt done s := fun s hs => hs.comes
  refine .bind (Q := fun k s => Tells conv v nxt done s ∧ s.1 = k) (.get fun s hs => ⟨hs, rfl⟩)
    fun k => .bind (Q := fun seg s => Tells conv v nxt done s ∧ Heading conv v seg) ?_ fun seg =>
    .bind (Q := fun _ s => Tells conv v nxt done s ∧ Heading conv v seg)
      (.modify fun s hs => ⟨hs.1.congr (spoken_probeWndSize _), hs.2⟩) fun _ =>
    .bind (Q := fun _ => Tells conv v nxt done) ?_ fun _ =>
    .bind (Q := fun _ => Tells conv v nxt done) (.get fun s hs => hs) fun k =>
    .bind (Q := fun _ => Comes conv v nxt done) (.modify fun s hs => ?_) fun _ => ?_
  · rintro s ⟨hs, rfl⟩
    exact (flushAcks_ensures _ hs.speaks.heading hs.speaks.receiver.acks).mono (fun s hs => hs)
      (fun _ s hs => hs) hcomes s hs
  · rintro s ⟨hs, hseg⟩
    exact (flushProbeCommands_ensures hseg).mono (fun s hs => hs) (fun _ s hs => hs) hcomes s hs
  · obtain ⟨v', hleads, hqueue, hspeaks⟩ := hs.speaks.moveQueue seg.wnd
      (if k.nocwnd then min k.sndWnd k.rmtWnd else min k.cwnd (min k.sndWnd k.rmtWnd))
    exact ⟨v', hleads, hqueue, hspeaks, fun p hp => (hs.written p hp).mono hleads.within⟩
  · rintro s ⟨v', hleads, hqueue, hs⟩
    exact (flushData_ensures _ _).mono (fun s hs => hs) (fun _ s hs => ⟨v', hleads, hqueue, hs⟩)
      (fun s hs => ⟨v', hleads, hqueue, hs⟩) s hs

theorem flush_ensures :
    Ensures (Tells conv v nxt done) flush (fun _ => Comes conv v nxt done)
      (Comes conv v nxt done) :=
  .bind (Q := fun _ => Tells conv v nxt done) (.get fun _ hs => hs) fun _ =>
    .bind (Q := fun _ => Tells conv v nxt done)
      (.when (fun _ => .throw _ fun _ hs => hs.comes) fun _ _ hs => hs) fun _ => flushAll_ensures

theorem spoken_start (k : Kcp) (current : UInt32) : (k.start current).resync.spoken = k.spoken := by
  have hstart : (k.start current).spoken = k.spoken := by
    unfold start
    split <;> rfl
  have hresync : ∀ k : Kcp, k.resync.spoken = k.spoken := fun k => by
    unfold resync
    simp only
    split <;> rfl
  rw [hresync, hstart]

theorem updateFlush_ensures (current : UInt32) :
    Ensures (Tells conv v nxt done) (updateFlush current) (fun _ => Comes conv v nxt done)
      (Comes conv v nxt done) :=
  .bind (Q := fun _ => Tells conv v nxt done)
    (.modify fun s hs => hs.congr (spoken_start s.1 current)) fun _ =>
  .bind (Q := fun _ => Tells conv v nxt done) (.get fun _ hs => hs) fun _ =>
  .when (fun _ => .bind (Q := fun _ => Tells conv v nxt done) (.modify fun _ hs => hs.congr rfl)
    fun _ => flush_ensures) fun _ _ hs => hs.comes

theorem flushAck_ensures :
    Ensures (Tells conv v nxt done) flushAck (fun _ => Tells conv v nxt done)
      (Tells conv v nxt done) := by
  refine .bind (Q := fun k s => Tells conv v nxt done s ∧ s.1 = k) (.get fun s hs => ⟨hs, rfl⟩)
    fun k => .bind (Q := fun _ s => Tells conv v nxt done s ∧ s.1 = k)
      (.when (fun _ => .throw _ fun s hs => hs.1) fun _ s hs => hs) fun _ =>
    .bind (Q := fun _ => Tells conv v nxt done) ?_ fun _ => .pure _ fun s hs => hs
  rintro s ⟨hs, rfl⟩
  exact (flushAcks_ensures _ hs.speaks.heading hs.speaks.receiver.acks).mono (fun s hs => hs)
    (fun _ s hs => hs.1) (fun s hs => hs) s hs

/-! ## An update -/

/-- How many segments that close the conversation may still be queued. -/
def closings (k : Kcp) : Nat := if k.closeState = .no ∨ k.closeState = .wsnd then 1 else 0

/-- The endpoint has gone on from `v`, and queued no data. -/
structure Closes (conv : UInt32) (v : Dialogue) (nxt : Nat) (done : Bytes) (limit : Nat)
    (s : Kcp × Output) : Prop where
  exists_view : ∃ v', v.Leads v' ∧ bytes v'.out.queue = bytes v.out.queue ∧
    v'.out.queue.length + s.1.closings ≤ limit ∧ Tells conv v' nxt done s

variable {limit : Nat}

theorem closings_congr (hk : k'.closeState = k.closeState) : k'.closings = k.closings := by
  rw [closings, closings, hk]

theorem closings_of_closed (h : k.closeState = .wait ∨ k.closeState = .yes) : k.closings = 0 :=
  if_neg (by rcases h with h | h <;> simp [h])

theorem closings_le_one (k : Kcp) : k.closings ≤ 1 := by
  unfold closings
  split
  · exact Nat.le_refl 1
  · exact Nat.zero_le 1

theorem closeAcks_ensures :
    Ensures (Closes conv v nxt done limit) closeAcks (fun _ => Closes conv v nxt done limit)
      (Closes conv v nxt done limit) := by
  rintro s ⟨v', hleads, hbytes, hlimit, htells⟩
  rw [closeAcks, get_bind, when_apply]
  by_cases hstate : s.1.closeState = .wsnd
  · rw [if_pos hstate]
    have hacks : Tells conv v' nxt done (flushAck s).2 := flushAck_ensures.last htells
    have hsame : (flushAck s).2.1.closings = s.1.closings :=
      closings_congr (congrArg (·.1.closeState) (flushAck_keeps s))
    exact ⟨v', hleads, hbytes, hsame.symm ▸ hlimit, hacks⟩
  · rw [if_neg hstate]
    exact ⟨v', hleads, hbytes, hlimit, htells⟩

/-- The segment that closes the conversation may be sent at any time. -/
theorem Speaks.honest_cls (h : Speaks conv v nxt done k) :
    HonestPacket conv v k.clsSegment.encode := by
  have hcls : Honest conv v k.clsSegment :=
    ⟨h.conv_eq, ⟨0, rfl, h.receiver.upTo_zero⟩, Nat.zero_le _, .control (.inr (.inr (.inl rfl)))⟩
  have hlen : k.clsSegment.data.length = 0 := rfl
  exact honestPacket_nil.append hcls (by rw [hlen]; decide)

theorem closeSent_ensures (clock : Nat) :
    Ensures (Closes conv v nxt done limit) (closeSent clock)
      (fun _ => Closes conv v nxt done limit) (Closes conv v nxt done limit) := by
  rintro s ⟨v', hleads, hbytes, hlimit, htells⟩
  rw [closeSent, get_bind, when_apply]
  by_cases hstate : s.1.closeState = .wsnd ∧ s.1.waitSnd = 0
  · rw [if_pos hstate]
    have hone : s.1.closings = 1 := if_pos (.inr hstate.1)
    refine Ensures.bind ((write_ensures htells.speaks.honest_cls (· = s.1)).mono (fun _ hs => hs)
      (fun _ _ hs => hs) fun s' hs' => ?_) (fun _ => .modify fun s' hs' => ?_) s ⟨htells, rfl⟩
    · exact ⟨v', hleads, hbytes, hs'.2 ▸ hlimit, hs'.1⟩
    · obtain ⟨v'', hleads', hqueue, hspeaks⟩ := hs'.1.speaks.push
        [s'.1.clsSegment] (by simp [clsSegment])
      refine ⟨v'', hleads.trans hleads', ?_, ?_, hspeaks.congr rfl,
        fun p hp => (hs'.1.written p hp).mono hleads'.within⟩
      · rw [hqueue, bytes_append, hbytes]
        exact List.append_nil _
      · rw [hqueue, List.length_append, closings_of_closed (.inl rfl)]
        rw [hone] at hlimit
        exact hlimit
  · rw [if_neg hstate]
    exact ⟨v', hleads, hbytes, hlimit, htells⟩

theorem closeReceived_ensures :
    Ensures (Closes conv v nxt done limit) closeReceived
      (fun _ => Closes conv v nxt done limit) (Closes conv v nxt done limit) := by
  rintro s ⟨v', hleads, hbytes, hlimit, htells⟩
  rw [closeReceived, get_bind, when_apply]
  by_cases hstate : s.1.closeState = .wrcv
  · rw [if_pos hstate]
    refine Ensures.bind ((write_ensures htells.speaks.honest_cls (· = s.1)).mono (fun _ hs => hs)
      (fun _ _ hs => hs) fun s' hs' => ?_) (fun _ => .modify fun s' hs' => ?_) s ⟨htells, rfl⟩
    · exact ⟨v', hleads, hbytes, hs'.2 ▸ hlimit, hs'.1⟩
    · refine ⟨v', hleads, hbytes, ?_, hs'.1.congr rfl⟩
      rw [closings_of_closed (.inr rfl)]
      exact (Nat.le_add_right _ _).trans hlimit
  · rw [if_neg hstate]
    exact ⟨v', hleads, hbytes, hlimit, htells⟩

theorem updateClose_ensures (clock : Nat) :
    Ensures (Closes conv v nxt done limit) (updateClose clock)
      (fun _ => Closes conv v nxt done limit) (Closes conv v nxt done limit) :=
  .bind closeAcks_ensures fun _ => .bind (closeSent_ensures clock) fun _ =>
  .bind closeReceived_ensures fun _ =>
  .bind (Q := fun _ => Closes conv v nxt done limit) (.get fun _ hs => hs) fun _ =>
  .when (fun _ => .throw _ fun _ hs => hs) fun _ _ hs => hs

/-- What an update does, however it ends. -/
theorem update_tells (current : UInt32) (clock : Nat) {s : Kcp × Output}
    (h : Tells conv v nxt done s) (hlimit : v.out.queue.length + s.1.closings ≤ limit) :
    Closes conv v nxt done limit (update current clock s).2 := by
  have hstart : Closes conv v nxt done limit s := ⟨v, .refl v, rfl, hlimit, h⟩
  have hflush : Ensures (fun s' => s' = s) (updateFlush current)
      (fun _ => Closes conv v nxt done limit) (Closes conv v nxt done limit) := by
    rintro s' rfl
    have hsame : (updateFlush current s').2.1.closings = s'.1.closings :=
      closings_congr (congrArg Standing.closeState (updateFlush_keeps current s'))
    obtain ⟨v', hleads, hqueue, htells⟩ := (updateFlush_ensures current).last h
    have hcloses : Closes conv v nxt done limit (updateFlush current s').2 :=
      ⟨v', hleads, congrArg bytes hqueue, by rwa [hqueue, hsame], htells⟩
    cases hrun : updateFlush current s' with
    | mk r s'' =>
      rw [hrun] at hcloses
      cases r <;> exact hcloses
  have hupdate : Ensures (fun s' => s' = s) (update current clock)
      (fun _ => Closes conv v nxt done limit) (Closes conv v nxt done limit) :=
    .bind (Q := fun _ s' => s' = s) (.get fun _ hs => hs) fun _ =>
    .bind (Q := fun _ s' => s' = s) (.when (fun _ => .throw _ fun _ hs => hs ▸ hstart)
      fun _ _ hs => hs) fun _ => .bind hflush fun _ => updateClose_ensures clock
  exact hupdate.last rfl

end Kcp
end Fuso.ThirdParty

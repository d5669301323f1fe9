import Fuso.Kcp.Datagrams
import Fuso.Kcp.Emit
import Mathlib.Data.List.TakeWhile

/-!
# What an endpoint takes

A packet of the peer is honest, so what the endpoint does with it is what the two directions allow:
the sender forgets what was acknowledged, and the receiver takes what was sent
(`Session.input_speaks`). The numbers of the segments are carried modulo `2 ^ 32`, which tells them
apart as long as there are fewer than `2 ^ 31`.
-/

namespace Fuso.ThirdParty

/-- The directions are reached, and their segments are told apart by the numbers that are carried.
-/
structure Dialogue.Fair (v : Dialogue) : Prop where
  out : Arq.Sound v.out
  inc : Arq.Sound v.inc
  out_lt : v.out.queue.length < 2 ^ 31
  inc_lt : v.inc.queue.length < 2 ^ 31

theorem Dialogue.Fair.leads {v v' : Dialogue} (h : v.Fair) (hv : v.Leads v')
    (hqueue : v'.out.queue = v.out.queue) : v'.Fair where
  out := h.out.sending hv.out
  inc := h.inc.receiving hv.inc
  out_lt := hqueue ▸ h.out_lt
  inc_lt := hv.inc.frame.queue ▸ h.inc_lt

theorem ofNat_inj (hi : i < 2 ^ 32) (hj : j < 2 ^ 32) (h : UInt32.ofNat i = UInt32.ofNat j) :
    i = j := by
  have := congrArg UInt32.toNat h
  simp only [UInt32.toNat_ofNat'] at this
  omega

theorem timediff_ofNat (hi : i < 2 ^ 31) (hj : j < 2 ^ 31) :
    timediff (.ofNat i) (.ofNat j) = (i : Int) - j := by
  rw [timediff_eq, Int.bmod_def]
  simp only [UInt32.toNat_ofNat']
  omega

namespace Kcp
variable {conv : UInt32} {v : Dialogue} {nxt : Nat} {done : Bytes} {k k' : Kcp}

/-! ## What was acknowledged -/

/-- The sender drops segments that are acknowledged. -/
theorem Sender.forget {s : Arq.State KcpSegment} (h : Sender conv s k) (hs : Arq.Sound s)
    {buf : List KcpSegment} (hbuf : buf ⊆ k.sndBuf)
    (hgone : ∀ seg ∈ k.sndBuf, seg ∉ buf → ∀ i < s.sent, seg.sn = .ofNat i → s.Acked i) :
    ∃ s', Arq.Sending s s' ∧ s'.queue = s.queue ∧ Sender conv s' { k with sndBuf := buf } := by
  refine ⟨_, .single (.forget s { i | i ∈ s.unacked ∧ ∀ seg ∈ buf, seg.sn ≠ .ofNat i } ?_), rfl, ?_⟩
  · rintro i ⟨hi, hnone⟩
    obtain ⟨seg, hseg, hsn⟩ := h.unacked i hi
    exact hgone seg hseg (fun hmem => hnone seg hmem hsn) i (hs.unacked_lt i hi) hsn
  · refine ⟨h.sent_le, h.sndNxt_eq, h.queue_eq, fun seg hseg =>
      (h.kept seg (hbuf hseg)).mono fun _ => id, ?_,
      h.length_le⟩
    rintro i ⟨hi, hnot⟩
    by_contra hnone
    exact hnot ⟨hi, fun seg hseg hsn => hnone ⟨seg, hseg, hsn⟩⟩

theorem Speaks.forget (h : Speaks conv v nxt done k) (hv : v.Fair) {buf : List KcpSegment}
    (hbuf : buf ⊆ k.sndBuf)
    (hgone : ∀ seg ∈ k.sndBuf, seg ∉ buf → ∀ i < v.out.sent, seg.sn = .ofNat i → v.out.Acked i) :
    ∃ v', v.Leads v' ∧ v'.out.queue = v.out.queue ∧ v'.inc = v.inc ∧
      Speaks conv v' nxt done { k with sndBuf := buf } := by
  obtain ⟨s, hs, hqueue, hsender⟩ := h.sender.forget hv.out hbuf hgone
  have hleads : v.Leads ⟨s, v.inc⟩ := ⟨hs, .refl⟩
  exact ⟨⟨s, v.inc⟩, hleads, hqueue, rfl, { h with
    sender := hsender
    receiver := h.receiver.congr rfl (List.Subset.refl _)
    buf := h.buf.mono hleads.within }⟩

/-- All that was said to be received has a number. -/
theorem upTo_le {s : Arq.State KcpSegment} (hs : Arq.Sound s) (hm : .upTo m ∈ s.network) :
    m ≤ s.sent := by
  cases m with
  | zero => exact Nat.zero_le _
  | succ m =>
    obtain ⟨a, ha⟩ := Option.isSome_iff_exists.1 (hs.acked m (.inr ⟨m + 1, m.lt_succ_self, hm⟩))
    exact (hs.received m a ha).1

theorem mem_dropWhile_or {α : Type} (p : α → Bool) {l : List α} {a : α} (h : a ∈ l) :
    a ∈ l.dropWhile p ∨ p a = true := by
  rw [← List.takeWhile_append_dropWhile (p := p) (l := l)] at h
  exact (List.mem_append.1 h).symm.imp_right List.mem_takeWhile_imp

theorem Speaks.parseUna (h : Speaks conv v nxt done k) (hv : v.Fair)
    (hm : .upTo m ∈ v.out.network) :
    ∃ v', v.Leads v' ∧ v'.out.queue = v.out.queue ∧ v'.inc = v.inc ∧
      Speaks conv v' nxt done (k.parseUna (.ofNat m)) := by
  refine h.forget hv (List.dropWhile_sublist _).subset fun seg hseg hnot i hi hsn => ?_
  have hbefore := (mem_dropWhile_or _ hseg).resolve_left hnot
  have hle := upTo_le hv.out hm
  have hsent := hv.out.sent_le
  have hlt := hv.out_lt
  rw [hsn, timediff_ofNat (by omega) (by omega), decide_eq_true_iff] at hbefore
  exact .inr ⟨m, by omega, hm⟩

theorem removeAcked_sublist (sn : UInt32) (buf : List KcpSegment) :
    (removeAcked sn buf).Sublist buf := by
  induction buf with
  | nil => exact .slnil
  | cons seg buf ih =>
    unfold removeAcked
    split
    · exact ih.cons _
    · split
      · exact List.Sublist.refl _
      · exact ih.cons_cons _

theorem mem_removeAcked {sn : UInt32} {buf : List KcpSegment} {seg : KcpSegment} (h : seg ∈ buf)
    (hsn : seg.sn ≠ sn) : seg ∈ removeAcked sn buf := by
  induction buf with
  | nil => cases h
  | cons first buf ih =>
    unfold removeAcked
    rcases List.mem_cons.1 h with rfl | h
    · rw [if_neg (Ne.symm hsn)]
      split <;> exact List.mem_cons_self
    · split
      · exact ih h
      · split
        · exact List.mem_cons_of_mem _ h
        · exact List.mem_cons_of_mem _ (ih h)

theorem Speaks.parseAck (h : Speaks conv v nxt done k) (hv : v.Fair)
    (hj : .ack j ∈ v.out.network) :
    ∃ v', v.Leads v' ∧ v'.out.queue = v.out.queue ∧ v'.inc = v.inc ∧
      Speaks conv v' nxt done (k.parseAck (.ofNat j)) := by
  unfold Kcp.parseAck
  split
  · refine h.forget hv (removeAcked_sublist _ _).subset fun seg hseg hnot i hi hsn => ?_
    have hsame : seg.sn = .ofNat j := by
      by_contra hne
      exact hnot (mem_removeAcked hseg hne)
    obtain ⟨a, ha⟩ := Option.isSome_iff_exists.1 (hv.out.acked j (.inl hj))
    have hjlt := (hv.out.received j a ha).1
    have hsent := hv.out.sent_le
    have hlt := hv.out_lt
    obtain rfl : i = j := ofNat_inj (by omega) (by omega) (hsn.symm.trans hsame)
    exact .inl hj
  · exact ⟨v, .refl v, rfl, rfl, h⟩

/-! ## Data -/

/-- `Got`, of a receive buffer. -/
def Filled (nxt : Nat) (buf : List KcpSegment) (i : Nat) : Prop :=
  i < nxt ∨ ∃ seg ∈ buf, nxt + offset nxt seg.sn = i

/-- The window moves on behind the next segment, and nothing else is received by this. -/
theorem filled_tail {segs buf : List KcpSegment} {s : KcpSegment}
    (h : Buffered segs nxt (s :: buf)) (hs : s.sn = .ofNat nxt) (i : Nat) :
    Filled (nxt + 1) buf i ↔ Filled nxt (s :: buf) i := by
  have hoff : offset nxt s.sn = 0 := by
    rw [hs]
    unfold offset
    simp
  have hrest : ∀ seg ∈ buf, nxt + 1 + offset (nxt + 1) seg.sn = nxt + offset nxt seg.sn := by
    intro seg hseg
    have hpos : offset nxt s.sn < offset nxt seg.sn := List.rel_of_pairwise_cons h.sorted hseg
    rw [offset_add (by omega)]
    omega
  constructor
  · rintro (hlt | ⟨seg, hseg, hi⟩)
    · rcases Nat.lt_succ_iff_lt_or_eq.1 hlt with hlt | rfl
      · exact .inl hlt
      · exact .inr ⟨s, List.mem_cons_self, by omega⟩
    · exact .inr ⟨seg, List.mem_cons_of_mem _ hseg, hrest seg hseg ▸ hi⟩
  · rintro (hlt | ⟨seg, hseg, hi⟩)
    · exact .inl (Nat.lt_succ_of_lt hlt)
    · rcases List.mem_cons.1 hseg with rfl | hseg
      · exact .inl (by omega)
      · exact .inr ⟨seg, hseg, (hrest seg hseg).trans hi⟩

theorem moveSegments_filled (wnd : Nat) (queue : List KcpSegment) {segs buf : List KcpSegment}
    (h : Buffered segs nxt buf) :
    ∃ m ≤ buf.length, (moveSegments wnd (.ofNat nxt) queue buf).1 = .ofNat (nxt + m) ∧
      ∀ i, Filled (nxt + m) (moveSegments wnd (.ofNat nxt) queue buf).2.2 i ↔ Filled nxt buf i := by
  induction buf generalizing nxt queue with
  | nil => exact ⟨0, Nat.le_refl 0, rfl, fun i => Iff.rfl⟩
  | cons s buf ih =>
    unfold moveSegments
    split
    · next hs =>
      obtain ⟨m, hm, hnxt, hfilled⟩ := ih (queue ++ [s]) (h.tail hs.1).2.2
      have hsucc : UInt32.ofNat nxt + 1 = .ofNat (nxt + 1) := by
        rw [UInt32.ofNat_add]
        rfl
      rw [hsucc]
      refine ⟨m + 1, by simpa using hm, ?_, fun i => ?_⟩
      · rw [hnxt, Nat.add_comm m, ← Nat.add_assoc]
      · rw [Nat.add_comm m, ← Nat.add_assoc, hfilled i]
        exact filled_tail h hs.1 i
    · exact ⟨0, Nat.zero_le _, rfl, fun i => Iff.rfl⟩

theorem Holds.moveBuf_got {segs : List KcpSegment} (h : k.Holds segs nxt done) :
    ∃ nxt', Holds segs nxt' done k.moveBuf ∧ ∀ i, k.moveBuf.Got nxt' i ↔ k.Got nxt i := by
  obtain ⟨m, hm, hholds, -⟩ := h.moveBuf
  obtain ⟨m', hm', hnxt, hfilled⟩ :=
    moveSegments_filled k.rcvWnd.toNat k.rcvQueue h.buffered
  rw [← h.rcvNxt_eq] at hnxt hfilled
  -- both say where the window is, and it has not moved far
  have hsame : UInt32.ofNat (nxt + m) = .ofNat (nxt + m') := hholds.rcvNxt_eq.symm.trans hnxt
  have hlen := h.buffered.length_le
  have heq : m = m' := by
    have := congrArg UInt32.toNat hsame
    simp only [UInt32.toNat_ofNat'] at this
    omega
  subst heq
  exact ⟨nxt + m, hholds, hfilled⟩

theorem mem_insertRev (new seg : KcpSegment) (buf : List KcpSegment) :
    (seg ∈ buf → seg ∈ insertRev new buf) ∧ ∃ seg ∈ insertRev new buf, seg.sn = new.sn := by
  induction buf with
  | nil => exact ⟨nofun, new, List.mem_singleton_self _, rfl⟩
  | cons first buf ih =>
    unfold insertRev
    split
    · next hsn => exact ⟨id, first, List.mem_cons_self, hsn⟩
    · split
      · exact ⟨List.mem_cons_of_mem _, new, List.mem_cons_self, rfl⟩
      · obtain ⟨hmem, seg', hseg', hsn⟩ := ih
        refine ⟨fun h => ?_, seg', List.mem_cons_of_mem _ hseg', hsn⟩
        rcases List.mem_cons.1 h with rfl | h
        · exact List.mem_cons_self
        · exact List.mem_cons_of_mem _ (hmem h)

theorem filled_insert {segs buf : List KcpSegment} {new : KcpSegment} (h : Buffered segs nxt buf)
    (hnew : offset nxt new.sn < 1024) (i : Nat) :
    Filled nxt (insertRev new buf.reverse).reverse i ↔
      Filled nxt buf i ∨ nxt + offset nxt new.sn = i := by
  obtain ⟨-, hmem⟩ := insertRev_sorted hnew
    (fun s hs => (h.genuine s (List.mem_reverse.1 hs)).1) (List.pairwise_reverse.2 h.sorted)
  constructor
  · rintro (hlt | ⟨seg, hseg, hi⟩)
    · exact .inl (.inl hlt)
    · rcases hmem seg (List.mem_reverse.1 hseg) with rfl | hseg
      · exact .inr hi
      · exact .inl (.inr ⟨seg, List.mem_reverse.1 hseg, hi⟩)
  · rintro ((hlt | ⟨seg, hseg, hi⟩) | hi)
    · exact .inl hlt
    · exact .inr ⟨seg,
        List.mem_reverse.2 ((mem_insertRev new seg _).1 (List.mem_reverse.2 hseg)), hi⟩
    · obtain ⟨seg, hseg, hsn⟩ := (mem_insertRev new new buf.reverse).2
      exact .inr ⟨seg, List.mem_reverse.2 hseg, by rw [hsn]; exact hi⟩

/-- The receiver may say what it has received. -/
theorem receiver_answer {s : Arq.State KcpSegment} (hholds : k.Holds s.queue nxt done)
    (hreceived : ∀ i, (s.received i).isSome ↔ k.Got nxt i) (hzero : .upTo 0 ∈ s.network)
    (hacks : ∀ p ∈ k.acklist, ∃ i, p.1 = .ofNat i ∧ (.ack i ∈ s.network ∨ (s.received i).isSome)) :
    Receiver s.answer nxt done k where
  holds := hholds
  received := hreceived
  upTo := .inr ⟨fun i hi => (hreceived i).2 (.inl hi), nofun⟩
  upTo_zero := .inl hzero
  acks p hp := by
    obtain ⟨i, hi, hthere | hreceived⟩ := hacks p hp
    · exact ⟨i, hi, .inl hthere⟩
    · exact ⟨i, hi, .inr ⟨hreceived, nofun⟩⟩

/-- The receiver takes a segment of the sender, when it is not too far ahead. -/
theorem Receiver.take {s : Arq.State KcpSegment} {seg a : KcpSegment} (h : Receiver s nxt done k)
    (hs : Arq.Sound s) (hlt : s.queue.length < 2 ^ 31) (hthere : .data i a ∈ s.network)
    (hsn : seg.sn = .ofNat i) (hdata : seg.data = a.data) :
    ∃ s' nxt', Arq.Receiving s s' ∧ Receiver s' nxt' done (k.inputPush seg) := by
  obtain ⟨hi, hitem⟩ := hs.data i a hthere
  have hsent := hs.sent_le
  have hnxt := h.holds.nxt_le
  have hwnd : k.rcvNxt + k.rcvWnd.toUInt32 = .ofNat nxt + 1024 := by
    rw [h.holds.rcvNxt_eq, h.holds.rcvWnd_eq]
    rfl
  have hold : ∀ p ∈ (k.ackPush seg.sn seg.ts).acklist, p = (seg.sn, seg.ts) ∨
      ∃ j, p.1 = .ofNat j ∧ .ack j ∈ s.network := fun p hp => by
    rcases List.mem_append.1 hp with hp | hp
    · exact .inr (h.acks p hp)
    · exact .inl (List.mem_singleton.1 hp)
  unfold Kcp.inputPush
  split
  · next hbelow =>
    simp only
    split
    · next habove =>
      -- the segment is in the window
      have hwindow : offset nxt seg.sn < 1024 :=
        in_window_iff.1 ⟨hwnd ▸ hbelow, h.holds.rcvNxt_eq ▸ habove⟩
      have hnumber : nxt + offset nxt seg.sn = i := by
        rw [hsn] at hwindow ⊢
        unfold offset at hwindow ⊢
        simp only [UInt32.toNat_sub, UInt32.toNat_ofNat'] at hwindow ⊢
        omega
      have hgenuine : Genuine s.queue nxt seg :=
        ⟨hwindow, by rw [hnumber, hitem, hdata]; rfl⟩
      have hinside : ¬ (0 ≤ timediff seg.sn ((k.ackPush seg.sn seg.ts).rcvNxt +
          (k.ackPush seg.sn seg.ts).rcvWnd.toUInt32) ∨
          timediff seg.sn (k.ackPush seg.sn seg.ts).rcvNxt < 0) := by
        rw [not_or, not_le, not_lt]
        exact ⟨hbelow, habove⟩
      rw [parseData, if_neg hinside]
      have hinsert : Holds s.queue nxt done { k.ackPush seg.sn seg.ts with
          rcvBuf := (insertRev seg (k.ackPush seg.sn seg.ts).rcvBuf.reverse).reverse } :=
        { h.holds with buffered := h.holds.buffered.insert hgenuine }
      obtain ⟨nxt', hholds, hgot⟩ := hinsert.moveBuf_got
      refine ⟨(s.take i a).answer, nxt', .tail (.single (.take s i a hthere)) (.answer _),
        receiver_answer hholds (fun j => ?_) h.upTo_zero fun p hp => ?_⟩
      · rw [Arq.isSome_take_iff, h.received j, hgot j, ← hnumber]
        exact (filled_insert h.holds.buffered hwindow j).symm
      · rcases hold p hp with rfl | ⟨j, hj, hthere⟩
        · exact ⟨i, hsn, .inr (Arq.isSome_take_iff.2 (.inr rfl))⟩
        · exact ⟨j, hj, .inl hthere⟩
    · next hnot =>
      -- it was received before
      have hbefore : i < nxt := by
        have hsame : (k.ackPush seg.sn seg.ts).rcvNxt = .ofNat nxt := h.holds.rcvNxt_eq
        rw [hsame, hsn, timediff_ofNat (by omega) (by omega)] at hnot
        omega
      refine ⟨s.answer, nxt, .single (.answer s), receiver_answer (h.holds.congr rfl) h.received
        h.upTo_zero fun p hp => ?_⟩
      rcases hold p hp with rfl | ⟨j, hj, hthere⟩
      · exact ⟨i, hsn, .inr ((h.received i).2 (.inl hbefore))⟩
      · exact ⟨j, hj, .inl hthere⟩
  · exact ⟨s, nxt, .refl, h⟩

/-! ## A segment -/

theorem spoken_updateAck (k : Kcp) (rtt : UInt32) : (k.updateAck rtt).spoken = k.spoken := by
  unfold updateAck spoken flight standing
  simp only
  split <;> rfl

theorem spoken_inputCls (k : Kcp) : k.inputCls.spoken = k.spoken := by
  unfold inputCls
  simp only
  split <;> split <;> rfl

theorem closeState_inputCls (k : Kcp) : k.inputCls.closeState =
    match k.closeState with
    | .no => .wrcv
    | .wait => .yes
    | state => state := by
  unfold inputCls
  cases h : k.closeState <;> simp [h]

theorem closings_inputCls (k : Kcp) : k.inputCls.closings ≤ k.closings := by
  rw [closings, closings, closeState_inputCls]
  cases k.closeState <;> decide

theorem Speaks.inputPush {s a : KcpSegment} (h : Speaks conv v nxt done k) (hv : v.Fair)
    (hthere : .data i a ∈ v.inc.network) (hsn : s.sn = .ofNat i) (hdata : s.data = a.data) :
    ∃ v' nxt', v.Leads v' ∧ v'.out = v.out ∧ Speaks conv v' nxt' done (k.inputPush s) := by
  obtain ⟨t, nxt', hreceiving, hreceiver⟩ := h.receiver.take hv.inc hv.inc_lt hthere hsn hdata
  have hleads : v.Leads ⟨v.out, t⟩ := ⟨.refl, hreceiving⟩
  have hframe : (k.inputPush s).inputConv = k.inputConv ∧ (k.inputPush s).mtu = k.mtu ∧
      (k.inputPush s).flight = k.flight ∧ (k.inputPush s).buf = k.buf := by
    unfold Kcp.inputPush
    split
    · simp only
      split
      · unfold parseData
        split <;> exact ⟨rfl, rfl, rfl, rfl⟩
      · exact ⟨rfl, rfl, rfl, rfl⟩
    · exact ⟨rfl, rfl, rfl, rfl⟩
  obtain ⟨hinputConv, hmtu, hflight, hbuf⟩ := hframe
  have hsending := sending_inputPush k s
  refine ⟨⟨v.out, t⟩, nxt', hleads, rfl, ?_⟩
  exact {
    conv_eq := (closing_inputPush k s).1.trans h.conv_eq
    inputConv_eq := hinputConv.trans h.inputConv_eq
    mtu_eq := hmtu.trans h.mtu_eq
    mss_eq := (congrArg Sending.mss hsending).trans h.mss_eq
    stream_eq := (congrArg Sending.stream hsending).trans h.stream_eq
    sender := h.sender.congr hflight
    receiver := hreceiver
    buf := hbuf ▸ h.buf.mono hleads.within }

/-- What an endpoint does with a segment of the peer. -/
theorem Speaks.inputSegment {s : KcpSegment} (h : Speaks conv v nxt done k) (hv : v.Fair)
    (hs : Honest conv v.swap s) (acked : Option UInt32) :
    ∃ v' nxt', v.Leads v' ∧ v'.out.queue = v.out.queue ∧
      Speaks conv v' nxt' done (k.inputSegment s acked).1 ∧
      (k.inputSegment s acked).1.closings ≤ k.closings := by
  obtain ⟨m, huna, hm⟩ := hs.una
  obtain ⟨v₁, hleads₁, hqueue₁, hinc₁, h₁⟩ := h.parseUna hv hm
  -- the header
  have hheader : Speaks conv v₁ nxt done (k.inputHeader s) :=
    (huna ▸ h₁).congr rfl
  have hclosings : (k.inputHeader s).closings = k.closings := rfl
  have hv₁ : v₁.Fair := hv.leads hleads₁ hqueue₁
  cases hs.content with
  | push i a cmd sn there data frg =>
    rw [inputSegment_push k acked cmd]
    obtain ⟨v₂, nxt', hleads₂, hout₂, h₂⟩ := hheader.inputPush hv₁ (hinc₁ ▸ there) sn data
    have hstate := closings_congr (closing_inputPush (k.inputHeader s) s).2
    exact ⟨v₂, nxt', hleads₁.trans hleads₂, by rw [hout₂, hqueue₁], h₂,
      (hstate.trans hclosings).le⟩
  | ack i cmd sn there =>
    have hrun : (k.inputSegment s acked).1 = (k.inputHeader s).inputAck s := by
      simp only [Kcp.inputSegment, cmd]
      rfl
    have hrtt : ∀ k : Kcp, (if 0 ≤ timediff k.current s.ts then
        k.updateAck (.ofNat (timediff k.current s.ts).toNat) else k).spoken = k.spoken := fun k => by
      split
      · exact spoken_updateAck k _
      · rfl
    have hout₁ := hleads₁.out.frame.network
    obtain ⟨v₂, hleads₂, hqueue₂, -, h₂⟩ :=
      (hheader.congr (hrtt (k.inputHeader s))).parseAck hv₁ (hout₁ there)
    have hstate : ((k.inputHeader s).inputAck s).closings = k.closings :=
      closings_congr (congrArg (·.1.closeState) (steady_inputAck (k.inputHeader s) s))
    rw [hrun]
    refine ⟨v₂, nxt, hleads₁.trans hleads₂, hqueue₂.trans hqueue₁, ?_, hstate.le⟩
    rw [inputAck, sn]
    exact h₂.congr rfl
  | control cmd =>
    refine ⟨v₁, nxt, hleads₁, hqueue₁, ?_⟩
    rcases cmd with cmd | cmd | cmd | cmd
    · simp only [Kcp.inputSegment, cmd]
      exact ⟨hheader.congr rfl, hclosings.le⟩
    · simp only [Kcp.inputSegment, cmd]
      exact ⟨hheader.congr rfl, hclosings.le⟩
    · rw [inputSegment_cls k acked cmd]
      exact ⟨hheader.congr (spoken_inputCls _), closings_inputCls (k.inputHeader s)⟩
    · simp only [Kcp.inputSegment, cmd]
      exact ⟨hheader.congr rfl, Nat.zero_le _⟩

/-! ## A packet -/

theorem knownCmd_of_content {s : KcpSegment} (h : Content v s) : knownCmd s.cmd := by
  cases h with
  | push i a cmd => rw [cmd]; decide
  | ack i cmd => rw [cmd]; decide
  | control cmd => rcases cmd with cmd | cmd | cmd | cmd <;> rw [cmd] <;> decide

theorem accept_honest {s : KcpSegment} (h : Speaks conv v nxt done k) (hs : Honest conv v.swap s)
    (acked : Option UInt32) : k.accept acked s =
      ((k.inputSegment s acked).1, .ok (k.inputSegment s acked).2) := by
  have hconv : s.conv = k.conv := hs.conv_eq.trans h.conv_eq.symm
  simp only [accept, hconv, ne_eq, not_true_eq_false, false_and, if_false,
    knownCmd_of_content hs.content, Bool.not_true, Bool.false_eq_true]

theorem Speaks.acceptAll {segs : List KcpSegment} (h : Speaks conv v nxt done k) (hv : v.Fair)
    (hsegs : ∀ s ∈ segs, Honest conv v.swap s) (acked : Option UInt32) :
    ∃ k' acked' v' nxt', k.acceptAll acked segs = (k', .ok acked') ∧ v.Leads v' ∧
      v'.out.queue = v.out.queue ∧ Speaks conv v' nxt' done k' ∧ k'.closings ≤ k.closings := by
  induction segs generalizing k acked v nxt with
  | nil => exact ⟨k, acked, v, nxt, rfl, .refl v, rfl, h, Nat.le_refl _⟩
  | cons s segs ih =>
    have hs := hsegs s List.mem_cons_self
    obtain ⟨v₁, nxt₁, hleads₁, hqueue₁, h₁, hclosings₁⟩ := h.inputSegment hv hs acked
    obtain ⟨k', acked', v₂, nxt₂, hrun, hleads₂, hqueue₂, h₂, hclosings₂⟩ :=
      ih h₁ (hv.leads hleads₁ hqueue₁) (fun s hs => (hsegs s (List.mem_cons_of_mem _ hs)).mono
        hleads₁.within_swap) (k.inputSegment s acked).2
    refine ⟨k', acked', v₂, nxt₂, ?_, hleads₁.trans hleads₂, hqueue₂.trans hqueue₁, h₂,
      hclosings₂.trans hclosings₁⟩
    rw [Kcp.acceptAll, accept_honest h hs acked]
    exact hrun

theorem carried_countFastack (sn : UInt32) (buf : List KcpSegment) :
    (countFastack sn buf).map (·.carried) = buf.map (·.carried) := by
  induction buf with
  | nil => rfl
  | cons seg buf ih =>
    unfold countFastack
    split
    · rfl
    · split
      · rw [List.map_cons, List.map_cons, ih]
        rfl
      · rw [List.map_cons, List.map_cons, ih]

theorem spoken_grow (k : Kcp) : k.grow.spoken = k.spoken := by
  have hcwnd : k.growCwnd.spoken = k.spoken := by
    unfold growCwnd
    split
    · rfl
    · simp only
      split <;> split <;> rfl
  have hcap : ∀ k : Kcp, k.capCwnd.spoken = k.spoken := fun k => by
    unfold capCwnd
    split <;> rfl
  rw [grow, hcap, hcwnd]

theorem spoken_settle (old k : Kcp) (acked : Option UInt32) :
    (settle old k acked).spoken = k.spoken := by
  have hfastack : ∀ sn, (k.parseFastack sn).spoken = k.spoken := fun sn => by
    unfold parseFastack
    split
    · unfold spoken flight
      simp only [carried_countFastack]
      rfl
    · rfl
  have hgrow : ∀ (c : Prop) [Decidable c] (k : Kcp),
      (if c then k.grow else k).spoken = k.spoken := fun c _ k => by
    split
    · exact spoken_grow k
    · rfl
  unfold settle
  rw [hgrow]
  cases acked with
  | none => rfl
  | some sn => exact hfastack sn

theorem closings_settle (old k : Kcp) (acked : Option UInt32) :
    (settle old k acked).closings = k.closings := by
  have hgrow : ∀ (c : Prop) [Decidable c] (k : Kcp),
      (if c then k.grow else k).closeState = k.closeState := fun c _ k =>
    congrArg (·.1.closeState) (steady_grow_if k c)
  refine closings_congr ?_
  unfold settle
  rw [hgrow]
  cases acked with
  | none => rfl
  | some sn => exact congrArg (·.1.closeState) (steady_parseFastack k sn)

end Kcp
end Fuso.ThirdParty

namespace Fuso.Kcp
open ThirdParty Kcp
variable {conv : UInt32} {v : Dialogue} {nxt : Nat} {done : Bytes}

/-- A session takes a packet of the peer, without an error. -/
theorem Session.input_speaks {c : KcpCore} {packet : Bytes} (h : c.kcp.Speaks conv v nxt done)
    (hv : v.Fair) (hpacket : HonestPacket conv v.swap packet) :
    ∃ c' v' nxt', Session.input c packet = (c', .ok ()) ∧ c'.kbuf = c.kbuf ∧
      c'.written = c.written ∧ v.Leads v' ∧ v'.out.queue = v.out.queue ∧
      c'.kcp.Speaks conv v' nxt' done ∧ c'.kcp.closings ≤ c.kcp.closings := by
  obtain ⟨segs, hencode, hsegs, -⟩ := hpacket
  have hloop : ∃ k v' nxt', Session.inputLoop packet packet.length c packet =
      ({ c with kcp := k }, .ok ()) ∧ v.Leads v' ∧ v'.out.queue = v.out.queue ∧
      k.Speaks conv v' nxt' done ∧ k.closings ≤ c.kcp.closings := by
    rcases Nat.lt_or_ge packet.length overhead with hshort | hlong
    · exact ⟨c.kcp, v, nxt, Session.inputLoop_short hshort _ _, .refl v, rfl, h, Nat.le_refl _⟩
    · have hwire : ∀ s ∈ segs.map (·.wire), Honest conv v.swap s := fun s hs => by
        obtain ⟨s', hs', rfl⟩ := List.mem_map.1 hs
        exact (hsegs s' hs').wire
      obtain ⟨k, acked, v', nxt', hrun, hleads, hqueue, hspeaks, hclosings⟩ :=
        h.acceptAll hv hwire none
      have hdata : packet = (segs.map (·.wire)).flatMap (·.encode) ++ [] := by
        rw [hencode, List.append_nil, List.flatMap_map]
        rfl
      have hreceived : ∀ s ∈ segs.map (·.wire), Received s := fun s hs => by
        obtain ⟨s', hs', rfl⟩ := List.mem_map.1 hs
        exact ⟨rfl, (hsegs s' hs').length_le.trans_lt (by decide)⟩
      have hfuel : 2 ≤ packet.length := Nat.le_trans (by decide) hlong
      refine ⟨settle c.kcp k acked, v', nxt', ?_, hleads, hqueue,
        hspeaks.congr (spoken_settle _ _ _), (closings_settle _ _ _).trans_le hclosings⟩
      rw [Session.inputLoop_datagram c hdata hreceived (.inl (by decide)) hlong hfuel]
      simp only [KcpCore.acceptDatagram, Kcp.acceptDatagram, hrun]
      rfl
  obtain ⟨k, v', nxt', hrun, hleads, hqueue, hspeaks, hclosings⟩ := hloop
  unfold Session.input
  rw [hrun]
  refine ⟨_, v', nxt', rfl, by simp, ?_, hleads, hqueue, ?_, ?_⟩
  · simp
  · simpa using hspeaks
  · simpa using hclosings

end Fuso.Kcp

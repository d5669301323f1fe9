import Fuso.Kcp.Absorb
import Fuso.Kcp.Wakers
import Fuso.Theory.Serial

/-!
# The windows of a session

Whatever arrives for a session, well-formed or not, its buffers stay within its windows: it holds at
most 1024 segments that were received and not read, 1024 more that are early, and has at most 1024
on the way (`bounded_after`). No step puts more on the way than the peer has room for
(`inFlight_step`).
-/

namespace Fuso.ThirdParty

namespace Kcp
open KcpM Serial

/-- What the windows depend on. -/
structure Windows where
  sndWnd : UInt16
  rcvWnd : UInt16
  rmtWnd : UInt16
  nocwnd : Bool
  sndUna : UInt32
  sndNxt : UInt32
  rcvNxt : UInt32
  /-- The numbers of the segments of `snd_buf`. -/
  sent : List UInt32
  /-- Those of `rcv_buf`. -/
  early : List UInt32
  /-- The length of `rcv_queue`. -/
  queued : Nat

def windows (k : Kcp) : Windows where
  sndWnd := k.sndWnd
  rcvWnd := k.rcvWnd
  rmtWnd := k.rmtWnd
  nocwnd := k.nocwnd
  sndUna := k.sndUna
  sndNxt := k.sndNxt
  rcvNxt := k.rcvNxt
  sent := k.sndBuf.map (·.sn)
  early := k.rcvBuf.map (·.sn)
  queued := k.rcvQueue.length

namespace Windows

/-- How many numbers are on the way. -/
def inFlight (w : Windows) : Nat := ahead w.sndUna w.sndNxt

/-- The buffers are within the windows. -/
structure Bounded (w : Windows) : Prop where
  sndWnd_eq : w.sndWnd = 1024
  rcvWnd_eq : w.rcvWnd = 1024
  nocwnd_eq : w.nocwnd = true
  inFlight_le : w.inFlight ≤ 1024
  sent : Within w.sndUna w.inFlight w.sent
  early : Within w.rcvNxt 1024 w.early
  queued_le : w.queued ≤ 1024

/-- Bounded windows stay so, and no more segments are on the way. -/
def Narrows (w w' : Windows) : Prop := w.Bounded → w'.Bounded ∧ w'.inFlight ≤ w.inFlight

theorem Narrows.refl (w : Windows) : w.Narrows w := fun h => ⟨h, Nat.le_refl _⟩

theorem Narrows.of_eq {w w' : Windows} (h : w' = w) : w.Narrows w' := h ▸ .refl w

theorem Narrows.trans {w₁ w₂ w₃ : Windows} (h₁ : w₁.Narrows w₂) (h₂ : w₂.Narrows w₃) :
    w₁.Narrows w₃ := fun h =>
  ⟨(h₂ (h₁ h).1).1, (h₂ (h₁ h).1).2.trans (h₁ h).2⟩

/-- Segments that were on the way are dropped. -/
theorem narrows_sent {w : Windows} {sent : List UInt32} (h : sent.Sublist w.sent) :
    w.Narrows { w with sent } := fun hw =>
  ⟨{ hw with sent := hw.sent.sublist h }, Nat.le_refl _⟩

end Windows

open Windows
variable {k k' : Kcp}

/-! ## What arrives and is read -/

theorem moveSegments_within (wnd : Nat) (queue : List KcpSegment) {rcvNxt : UInt32}
    {buf : List KcpSegment}
    (hbuf : Within rcvNxt 1024 (buf.map (·.sn))) (hqueue : queue.length ≤ wnd) :
    Within (moveSegments wnd rcvNxt queue buf).1 1024
        ((moveSegments wnd rcvNxt queue buf).2.2.map (·.sn)) ∧
      (moveSegments wnd rcvNxt queue buf).2.1.length ≤ wnd := by
  induction buf generalizing rcvNxt queue with
  | nil => exact ⟨.nil _ _, hqueue⟩
  | cons seg buf ih =>
    unfold moveSegments
    split
    · next hnext =>
      obtain ⟨rfl, hroom⟩ := hnext
      apply ih _ hbuf.tail
      rw [List.length_append]
      exact hroom
    · exact ⟨hbuf, hqueue⟩

theorem narrows_moveBuf (k : Kcp) : k.windows.Narrows k.moveBuf.windows := by
  intro h
  have hwnd : k.rcvWnd.toNat = 1024 := by
    rw [show k.rcvWnd = 1024 from h.rcvWnd_eq]
    rfl
  obtain ⟨hearly, hqueued⟩ := moveSegments_within k.rcvWnd.toNat k.rcvQueue h.early
    (hwnd ▸ h.queued_le)
  exact ⟨{ h with early := hearly, queued_le := hwnd ▸ hqueued }, Nat.le_refl _⟩

/-- The new segment is put where its number belongs. -/
theorem insert_within {rcvNxt : UInt32} {buf : List KcpSegment} {new : KcpSegment}
    (hbuf : Within rcvNxt 1024 (buf.map (·.sn))) (hnew : ahead rcvNxt new.sn < 1024) :
    Within rcvNxt 1024 ((insertRev new buf.reverse).reverse.map (·.sn)) := by
  have hoffset : ∀ sn, offset rcvNxt.toNat sn = ahead rcvNxt sn := fun sn => by
    rw [offset, UInt32.ofNat_toNat, ahead]
  have hbefore : ∀ s ∈ buf.reverse, offset rcvNxt.toNat s.sn < 1024 := fun s hs => by
    rw [hoffset]
    exact hbuf.lt _ (List.mem_map_of_mem (List.mem_reverse.1 hs))
  have hreverse : buf.reverse.Pairwise fun s s' =>
      offset rcvNxt.toNat s'.sn < offset rcvNxt.toNat s.sn := by
    simpa only [hoffset, List.pairwise_reverse, List.pairwise_map] using hbuf.sorted
  obtain ⟨hsorted, hmem⟩ := insertRev_sorted ((hoffset new.sn).trans_lt hnew) hbefore hreverse
  simp only [hoffset] at hsorted
  constructor
  · intro sn hsn
    obtain ⟨s, hs, rfl⟩ := List.mem_map.1 hsn
    rcases hmem s (List.mem_reverse.1 hs) with rfl | hs
    · exact hnew
    · exact hbuf.lt _ (List.mem_map_of_mem (List.mem_reverse.1 hs))
  · exact List.pairwise_map.2 (List.pairwise_reverse.2 hsorted)

theorem in_window_ahead {rcvNxt sn : UInt32} (hlt : timediff sn (rcvNxt + 1024) < 0)
    (hge : 0 ≤ timediff sn rcvNxt) : ahead rcvNxt sn < 1024 := by
  have h : timediff sn (.ofNat rcvNxt.toNat + 1024) < 0 ∧ 0 ≤ timediff sn (.ofNat rcvNxt.toNat) →
      offset rcvNxt.toNat sn < 1024 := in_window_iff.1
  rw [UInt32.ofNat_toNat, offset, UInt32.ofNat_toNat] at h
  exact h ⟨hlt, hge⟩

theorem narrows_parseData (k : Kcp) (seg : KcpSegment) :
    k.windows.Narrows (k.parseData seg).windows := by
  unfold parseData
  split
  · exact .refl _
  · next hinside =>
    rw [not_or, not_le, not_lt] at hinside
    refine Narrows.trans (fun h => ?_) (narrows_moveBuf _)
    have hwnd : k.rcvWnd.toUInt32 = 1024 := by
      rw [show k.rcvWnd = 1024 from h.rcvWnd_eq]
      rfl
    have hnew := in_window_ahead (hwnd ▸ hinside.1) hinside.2
    exact ⟨{ h with early := insert_within h.early hnew }, Nat.le_refl _⟩

theorem narrows_inputPush (k : Kcp) (seg : KcpSegment) :
    k.windows.Narrows (k.inputPush seg).windows := by
  unfold inputPush
  split
  · simp only
    split
    · exact narrows_parseData (k.ackPush seg.sn seg.ts) seg
    · exact .refl _
  · exact .refl _

theorem length_popMessage_le (queue : List KcpSegment) :
    (popMessage queue).2.length ≤ queue.length := by
  induction queue with
  | nil => exact Nat.le_refl 0
  | cons seg queue ih =>
    unfold popMessage
    split
    · exact Nat.le_succ _
    · exact ih.trans (Nat.le_succ _)

theorem narrows_recv (k : Kcp) (cap : Nat) : k.windows.Narrows (k.recv cap).1.windows := by
  have hpop : k.windows.Narrows
      ({ k with rcvQueue := (popMessage k.rcvQueue).2 } : Kcp).moveBuf.windows := by
    refine Narrows.trans (fun h => ?_) (narrows_moveBuf _)
    exact ⟨{ h with queued_le := (length_popMessage_le k.rcvQueue).trans h.queued_le },
      Nat.le_refl _⟩
  unfold recv
  split
  · exact .refl _
  · split
    · exact .refl _
    · split
      · exact .refl _
      · split
        · exact .refl _
        · simp only
          split <;> exact hpop

theorem windows_send (k : Kcp) (data : Bytes) : (k.send data).1.windows = k.windows := by
  have hextend : ∀ data, (k.extendLast data).1.windows = k.windows := fun data => by
    unfold extendLast
    split
    · rfl
    · simp only
      split <;> rfl
  have hfirst : (if k.stream then k.extendLast data else (k, data)).1.windows = k.windows := by
    split
    · exact hextend data
    · rfl
  unfold send
  split
  · rfl
  · generalize (if k.stream then k.extendLast data else (k, data)) = extended at hfirst ⊢
    simp only
    split
    · exact hfirst
    · split <;> exact hfirst

/-! ## What is acknowledged -/

theorem narrows_parseUna (k : Kcp) (una : UInt32) :
    k.windows.Narrows (k.parseUna una).windows :=
  narrows_sent ((List.dropWhile_sublist _).map _)

theorem narrows_shrinkBuf (k : Kcp) : k.windows.Narrows k.shrinkBuf.windows := by
  intro h
  have hsent : Within k.sndUna k.windows.inFlight (k.sndBuf.map (·.sn)) := h.sent
  cases hbuf : k.sndBuf with
  | nil =>
    have hk : k.shrinkBuf.windows = { k.windows with sndUna := k.sndNxt } := by
      unfold shrinkBuf
      simp only [hbuf, windows]
    have hzero : ({ k.windows with sndUna := k.sndNxt } : Windows).inFlight = 0 :=
      ahead_self k.sndNxt
    rw [hk, hzero]
    refine ⟨{ h with inFlight_le := by omega, sent := ?_ }, Nat.zero_le _⟩
    show Within _ _ (k.sndBuf.map (·.sn))
    rw [hbuf]
    exact .nil _ _
  | cons seg buf =>
    have hk : k.shrinkBuf.windows = { k.windows with sndUna := seg.sn } := by
      unfold shrinkBuf
      simp only [hbuf, windows]
    rw [hbuf] at hsent
    have hfirst : ahead k.sndUna seg.sn < k.windows.inFlight := hsent.lt _ List.mem_cons_self
    have hless : ({ k.windows with sndUna := seg.sn } : Windows).inFlight =
        k.windows.inFlight - ahead k.sndUna seg.sn := ahead_of_le hfirst.le
    have hle := h.inFlight_le
    rw [hk]
    refine ⟨{ h with inFlight_le := by omega, sent := ?_ }, by omega⟩
    show Within seg.sn _ (k.sndBuf.map (·.sn))
    rw [hless, hbuf]
    exact hsent.rebase hsent.head_le

theorem narrows_parseAck (k : Kcp) (sn : UInt32) :
    k.windows.Narrows (k.parseAck sn).windows := by
  unfold parseAck
  split
  · exact narrows_sent ((removeAcked_sublist sn _).map _)
  · exact .refl _

theorem sn_of_carried {buf buf' : List KcpSegment}
    (h : buf'.map (·.carried) = buf.map (·.carried)) : buf'.map (·.sn) = buf.map (·.sn) := by
  have hsn := congrArg (List.map KcpSegment.sn) h
  rwa [List.map_map, List.map_map] at hsn

theorem windows_parseFastack (k : Kcp) (sn : UInt32) : (k.parseFastack sn).windows = k.windows := by
  unfold parseFastack
  split
  · unfold windows
    simp only [sn_of_carried (carried_countFastack sn _)]
  · rfl

theorem narrows_inputAck (k : Kcp) (seg : KcpSegment) :
    k.windows.Narrows (k.inputAck seg).windows := by
  unfold inputAck
  refine Narrows.trans (.of_eq ?_) ((narrows_parseAck _ _).trans (narrows_shrinkBuf _))
  split
  · unfold updateAck
    simp only
    split <;> rfl
  · rfl

/-! ## Packets -/

theorem narrows_inputSegment (k : Kcp) (seg : KcpSegment) (acked : Option UInt32) :
    k.windows.Narrows (k.inputSegment seg acked).1.windows := by
  have hheader : k.windows.Narrows
      (({ k with rmtWnd := seg.wnd } : Kcp).parseUna seg.una).shrinkBuf.windows := by
    refine Narrows.trans (fun h => ?_) ((narrows_parseUna _ _).trans (narrows_shrinkBuf _))
    exact ⟨{ h with }, Nat.le_refl _⟩
  have hcls : ∀ k : Kcp, k.inputCls.windows = k.windows := fun k => by
    unfold inputCls
    simp only
    split <;> split <;> rfl
  unfold inputSegment
  simp only
  split
  · exact hheader.trans (narrows_inputAck _ seg)
  · split
    · exact hheader.trans (narrows_inputPush _ seg)
    · split
      · exact hheader
      · split
        · exact hheader.trans (.of_eq (hcls _))
        · split <;> exact hheader

theorem narrows_inputLoop (fuel : Nat) (k : Kcp) (acked : Option UInt32) (buf : Bytes) :
    k.windows.Narrows (inputLoop fuel k acked buf).1.windows := by
  induction fuel generalizing k acked buf with
  | zero => exact .refl _
  | succ fuel ih =>
    have hconv : ∀ conv, (if conv ≠ k.conv then { k with conv, inputConv := false }
        else k : Kcp).windows = k.windows := fun conv => by split <;> rfl
    unfold inputLoop
    split
    · exact .refl _
    · simp only
      split
      · exact .refl _
      · split
        · exact .of_eq (hconv _)
        · split
          · exact .of_eq (hconv _)
          · refine Narrows.trans (.of_eq (hconv (header buf).1.conv)) ?_
            exact (narrows_inputSegment _ _ _).trans (ih _ _ _)

theorem windows_grow (k : Kcp) : k.grow.windows = k.windows := by
  have hcwnd : k.growCwnd.windows = k.windows := by
    unfold growCwnd
    split
    · rfl
    · simp only
      split <;> split <;> rfl
  have hcap : ∀ k : Kcp, k.capCwnd.windows = k.windows := fun k => by
    unfold capCwnd
    split <;> rfl
  rw [grow, hcap, hcwnd]

theorem narrows_input (k : Kcp) (buf : Bytes) : k.windows.Narrows (k.input buf).1.windows := by
  have hloop := narrows_inputLoop buf.length k none buf
  have hgrow : ∀ (c : Prop) [Decidable c] (k : Kcp),
      (if c then k.grow else k).windows = k.windows := fun c _ k => by
    split
    · exact windows_grow k
    · rfl
  unfold input
  split
  · exact .refl _
  · split
    · next hrun =>
      rw [hrun] at hloop
      exact hloop
    · next acked rest hrun =>
      rw [hrun] at hloop
      simp only [hgrow]
      cases acked with
      | none => exact hloop
      | some sn => exact hloop.trans (.of_eq (windows_parseFastack _ sn))

/-! ## What is sent -/

theorem makeRoom_windows (need : Nat) : Keeps windows (makeRoom need) :=
  .bind .get fun _ => .when (.bind (.write _) fun _ => .modify fun _ => rfl)

theorem putSegment_windows (seg : KcpSegment) : Keeps windows (putSegment seg) :=
  .modify fun _ => rfl

theorem flushAcks_windows (acks : List (UInt32 × UInt32)) (segment : KcpSegment) :
    Keeps windows (flushAcks segment acks) := by
  induction acks generalizing segment with
  | nil => exact .bind (.modify fun _ => rfl) fun _ => .pure _
  | cons ack acks ih =>
    exact .bind (makeRoom_windows _) fun _ => .bind (putSegment_windows _) fun _ => ih _

theorem flushAck_windows : Keeps windows flushAck :=
  .bind .get fun _ => .bind (.when (.throw _)) fun _ =>
    .bind (flushAcks_windows _ _) fun _ => .pure _

theorem flushProbeCommands_windows (segment : KcpSegment) :
    Keeps windows (flushProbeCommands segment) := by
  have hprobe : ∀ ask seg, Keeps windows (flushProbe ask seg) := fun ask seg =>
    .bind .get fun _ => .when (.bind (makeRoom_windows _) fun _ => putSegment_windows _)
  exact .bind (hprobe _ _) fun _ => .bind (hprobe _ _) fun _ => .modify fun _ => rfl

theorem windows_probeWndSize (k : Kcp) : k.probeWndSize.windows = k.windows := by
  unfold probeWndSize windows
  split
  · rfl
  · split <;> rfl

/-- What is sent again keeps its number. -/
theorem flushSegments_windows (w : Windows) (wnd : UInt16) (resent rtomin : UInt32)
    (rest done : List KcpSegment) (lost : Bool) (change : Nat)
    (hsent : w.sent = (done ++ rest).map (·.sn)) :
    Ensures (·.1.windows = w) (flushSegments wnd resent rtomin done lost change rest)
      (fun _ s => s.1.windows = w) (·.1.windows = w) := by
  induction rest generalizing done lost change with
  | nil => exact .pure _ fun _ hs => hs
  | cons seg rest ih =>
    intro s hs
    unfold flushSegments
    rw [get_bind]
    cases hresend : s.1.resend resent rtomin seg with
    | none =>
      apply ih (done ++ [seg]) lost change _ s hs
      rw [hsent, List.append_assoc]
      rfl
    | some again =>
      obtain ⟨cause, seg'⟩ := again
      simp only
      rw [modify_bind]
      have hsn : seg'.sn = seg.sn := congrArg (·.sn) (carried_resend hresend)
      let out : KcpSegment := { seg' with ts := s.1.current, wnd, una := s.1.rcvNxt }
      have hnext : w.sent = (done ++ [out] ++ rest).map (·.sn) := by
        have hout : out.sn = seg.sn := hsn
        rw [hsent, List.append_assoc, List.map_append, List.map_append, List.singleton_append,
          List.map_cons, List.map_cons, hout]
      refine Ensures.bind (makeRoom_windows _).ensures (fun _ =>
        .bind (putSegment_windows _).ensures fun _ =>
        .bind (Keeps.modify fun k => ?_).ensures fun _ => ?_) _ ?_
      · split <;> rfl
      · cases cause <;> exact ih _ _ _ hnext
      · rw [List.append_assoc] at hnext
        rw [← hs] at hnext ⊢
        show ({ s.1.windows with sent := (done ++ out :: rest).map (·.sn) } : Windows) = s.1.windows
        rw [← List.singleton_append, ← hnext]

theorem windows_shrink (k : Kcp) (cwnd : UInt16) (resent : UInt32) (lost : Bool) (change : Nat) :
    ((k.shrinkFast resent change).shrinkLost cwnd lost).openCwnd.windows = k.windows := by
  have hfast : (k.shrinkFast resent change).windows = k.windows := by
    unfold shrinkFast
    split <;> rfl
  have hlost : ∀ k : Kcp, (k.shrinkLost cwnd lost).windows = k.windows := fun k => by
    unfold shrinkLost
    split <;> rfl
  have hopen : ∀ k : Kcp, k.openCwnd.windows = k.windows := fun k => by
    unfold openCwnd
    split <;> rfl
  rw [hopen, hlost, hfast]

/-- The part of a flush behind the numbering. -/
theorem flushData_windows (wnd cwnd : UInt16) :
    Keeps windows (do
      let k ← KcpM.get
      let resent : UInt32 := if 0 < k.fastresend then k.fastresend else 0xFFFFFFFF
      let rtomin : UInt32 := if k.nodelay then 0 else k.rxRto >>> 3
      let sent ← flushSegments wnd resent rtomin [] false 0 k.sndBuf
      let k ← KcpM.get
      when (k.buf ≠ []) do
        write k.buf
        KcpM.modify ({ · with buf := [] })
      KcpM.modify fun k => ((k.shrinkFast resent sent.2).shrinkLost cwnd sent.1).openCwnd) := by
  intro s
  rw [get_bind]
  refine Ensures.last (R := (·.1.windows = s.1.windows)) (.bind
    (flushSegments_windows s.1.windows wnd _ _ s.1.sndBuf [] false 0 rfl) fun sent =>
    Keeps.ensures ?_) rfl
  exact .bind .get fun _ => .bind (.when (.bind (.write _) fun _ => .modify fun _ => rfl)) fun _ =>
    .modify fun k => windows_shrink k _ _ _ _

/-- Bounded windows stay so, and no more is on the way than the peer has room for, or was before. -/
def Allows (k k' : Kcp) : Prop := k.windows.Bounded → k'.windows.Bounded ∧
  k'.windows.inFlight ≤ max k.windows.inFlight k.rmtWnd.toNat ∧ k'.rmtWnd = k.rmtWnd

theorem Allows.of_windows (h : k'.windows = k.windows) : k.Allows k' := fun hk =>
  ⟨h ▸ hk, h ▸ Nat.le_max_left _ _, congrArg (·.rmtWnd) h⟩

theorem Allows.trans {k₁ k₂ k₃ : Kcp} (h₁ : k₁.Allows k₂) (h₂ : k₂.Allows k₃) :
    k₁.Allows k₃ := by
  intro h
  obtain ⟨hbounded₂, hle₂, hrmt₂⟩ := h₁ h
  obtain ⟨hbounded₃, hle₃, hrmt₃⟩ := h₂ hbounded₂
  rw [hrmt₂] at hle₃ hrmt₃
  exact ⟨hbounded₃, by omega, hrmt₃⟩

theorem timediff_window {una nxt : UInt32} {cwnd : UInt16} (hflight : ahead una nxt ≤ 1024)
    (hcwnd : cwnd.toNat ≤ 1024) (h : timediff nxt (una + cwnd.toUInt32) < 0) :
    ahead una nxt < cwnd.toNat := by
  have := nxt.toNat_lt
  have := una.toNat_lt
  rw [timediff_eq] at h
  unfold ahead at *
  simp only [UInt32.toNat_sub, UInt32.toNat_add, UInt16.toNat_toUInt32, Int.bmod_def] at *
  omega

/-- Segments get numbers as long as the window lets them through. -/
theorem moveQueue_allows {cwnd : UInt16} (wnd : UInt16) (queue : List KcpSegment) (k : Kcp)
    (hcwnd : cwnd.toNat ≤ 1024) (hrmt : cwnd.toNat ≤ k.rmtWnd.toNat) :
    k.Allows (moveQueue wnd cwnd k queue) := by
  induction queue generalizing k with
  | nil => exact .of_windows rfl
  | cons seg queue ih =>
    unfold moveQueue
    split
    · next hroom =>
      refine Allows.trans (fun h => ?_) (ih _ hrmt)
      have hlt : k.windows.inFlight < cwnd.toNat := timediff_window h.inFlight_le hcwnd hroom
      have hsucc : ahead k.sndUna (k.sndNxt + 1) = k.windows.inFlight + 1 :=
        ahead_succ (Nat.lt_of_le_of_lt hlt (by omega))
      have hsent : Within k.sndUna (k.windows.inFlight + 1) (k.sndBuf.map (·.sn) ++ [k.sndNxt]) :=
        h.sent.concat rfl
      refine ⟨{ h with inFlight_le := ?_, sent := ?_ }, ?_, rfl⟩
      · show ahead k.sndUna (k.sndNxt + 1) ≤ 1024
        omega
      · show Within k.sndUna (ahead k.sndUna (k.sndNxt + 1))
          (List.map KcpSegment.sn (k.sndBuf ++ [_]))
        rw [hsucc, List.map_append]
        exact hsent
      · show ahead k.sndUna (k.sndNxt + 1) ≤ _
        have hmax := Nat.le_max_right k.windows.inFlight k.rmtWnd.toNat
        omega
    · exact .of_windows rfl

theorem flush_allows : Moves Allows flush := by
  have hkeeps : ∀ {α β : Type} {m : KcpM α} {f : α → KcpM β}, Keeps windows m →
      (∀ a, Moves Allows (f a)) → Moves Allows (m >>= f) := fun hm hf =>
    .bind (fun _ _ _ => .trans) (.of_keeps (fun _ _ => .of_windows) hm) hf
  refine hkeeps .get fun _ => hkeeps (.when (.throw _)) fun _ => hkeeps .get fun _ =>
    hkeeps (flushAcks_windows _ _) fun segment => hkeeps (.modify windows_probeWndSize) fun _ =>
    hkeeps (flushProbeCommands_windows _) fun _ => fun s => ?_
  rw [get_bind, modify_bind]
  refine Allows.trans (fun h => ?_) (.of_windows (flushData_windows _ _ _))
  have hcwnd : (if s.1.nocwnd then min s.1.sndWnd s.1.rmtWnd
      else min s.1.cwnd (min s.1.sndWnd s.1.rmtWnd)) = min 1024 s.1.rmtWnd := by
    rw [show s.1.nocwnd = true from h.nocwnd_eq, show s.1.sndWnd = 1024 from h.sndWnd_eq]
    rfl
  have hmin : (min 1024 s.1.rmtWnd).toNat = min 1024 s.1.rmtWnd.toNat := by
    rw [UInt16.toNat_min]
    rfl
  exact moveQueue_allows _ _ s.1 (by rw [hcwnd, hmin]; omega) (by rw [hcwnd, hmin]; omega) h

theorem windows_start (k : Kcp) (current : UInt32) :
    (k.start current).resync.windows = k.windows := by
  have hstart : (k.start current).windows = k.windows := by
    unfold start
    split <;> rfl
  have hresync : ∀ k : Kcp, k.resync.windows = k.windows := fun k => by
    unfold resync
    simp only
    split <;> rfl
  rw [hresync, hstart]

theorem updateClose_windows (clock : Nat) : Keeps windows (updateClose clock) :=
  .bind (.bind .get fun _ => .when (.ignore flushAck_windows)) fun _ =>
  .bind (.bind .get fun _ => .when (.bind (.write _) fun _ => .modify fun _ => rfl)) fun _ =>
  .bind (.bind .get fun _ => .when (.bind (.write _) fun _ => .modify fun _ => rfl)) fun _ =>
  .bind .get fun _ => .when (.throw _)

/-- What an update does to the windows, however it ends. -/
theorem update_allows (current : UInt32) (clock : Nat) : Moves Allows (update current clock) := by
  have hkeeps : ∀ {α : Type} {m : KcpM α}, Keeps windows m → Moves Allows m := fun hm =>
    .of_keeps (fun _ _ => .of_windows) hm
  have htrans : ∀ a b c : Kcp, a.Allows b → b.Allows c → a.Allows c := fun _ _ _ => .trans
  have hflush : Moves Allows (updateFlush current) :=
    .bind htrans (hkeeps (.modify fun k => windows_start k current)) fun _ =>
    .bind htrans (hkeeps .get) fun _ => .when (fun _ => .of_windows rfl)
      (.bind htrans (hkeeps (.modify fun _ => rfl)) fun _ => flush_allows)
  exact .bind htrans (hkeeps .get) fun _ => .bind htrans (hkeeps (.when (.throw _))) fun _ =>
    .bind htrans hflush fun _ => hkeeps (updateClose_windows clock)

theorem Windows.Narrows.allowed (h : k.windows.Narrows k'.windows) (hk : k.windows.Bounded) :
    k'.windows.Bounded ∧ k'.windows.inFlight ≤ max k.windows.inFlight k.rmtWnd.toNat :=
  ⟨(h hk).1, (h hk).2.trans (Nat.le_max_left _ _)⟩

theorem Allows.allowed (h : k.Allows k') (hk : k.windows.Bounded) :
    k'.windows.Bounded ∧ k'.windows.inFlight ≤ max k.windows.inFlight k.rmtWnd.toNat :=
  ⟨(h hk).1, (h hk).2.1⟩

end Kcp
end Fuso.ThirdParty

namespace Fuso.Kcp
open ThirdParty Kcp Kcp.Windows Serial

namespace Running

abbrev kcp (s : Running) : ThirdParty.Kcp := s.update.kcore.kcp

/-! ## Steps -/

theorem narrows_pollRead (c : KcpCore) (cx : Waker) (buf : ReadBuf) :
    c.kcp.windows.Narrows (c.pollRead cx buf).1.kcp.windows := by
  have hpart : ∀ c : KcpCore, c.kcp.windows.Narrows (c.readPart buf).1.kcp.windows := fun c => by
    unfold KcpCore.readPart
    split
    · exact .refl _
    · next size hsize =>
      have hrecv := narrows_recv c.kcp size
      split
      · next hrun =>
        rw [hrun] at hrecv
        exact hrecv
      · next hrun =>
        rw [hrun] at hrecv
        exact hrecv
  have hrecv := narrows_recv c.kcp buf.remaining
  unfold KcpCore.pollRead
  split
  · exact .refl _
  · cases hrun : c.kcp.recv buf.remaining with
    | mk kcp r =>
      rw [hrun] at hrecv
      have hnext : c.kcp.windows.Narrows ({ c with kcp }.readPart buf).1.kcp.windows :=
        Narrows.trans hrecv (hpart { c with kcp })
      split <;> next heq =>
        cases heq
        first
        | exact hrecv
        | exact hnext

theorem windows_pollWrite (c : KcpCore) (cx : Waker) (data : Bytes) :
    (c.pollWrite cx data).1.kcp.windows = c.kcp.windows := by
  have hsend := windows_send c.kcp data
  unfold KcpCore.pollWrite
  split <;> next hrun =>
    rw [hrun] at hsend
    exact hsend

theorem narrows_inputLoop (data : Bytes) (fuel : Nat) (c : KcpCore) (next : Bytes) :
    c.kcp.windows.Narrows (Session.inputLoop data fuel c next).1.kcp.windows := by
  induction fuel generalizing c next with
  | zero => exact .refl _
  | succ fuel ih =>
    have hinput := narrows_input c.kcp next
    unfold Session.inputLoop
    split
    · split
      · next hrun =>
        rw [hrun] at hinput
        exact hinput
      · next kcp n hrun =>
        rw [hrun] at hinput
        exact Narrows.trans hinput (ih { c with kcp } _)
    · exact .refl _

theorem narrows_input (c : KcpCore) (data : Bytes) :
    c.kcp.windows.Narrows (Session.input c data).1.kcp.windows := by
  have hloop := narrows_inputLoop data data.length c data
  unfold Session.input
  split <;> next hrun =>
    rw [hrun] at hloop
    simpa using hloop

/-- An update, with what the future does behind it. -/
theorem allows_updating (c : KcpCore) (t : Tick) : c.kcp.Allows (c.updating t).1.kcp := by
  have hupdate := update_allows t.current t.clock (c.kcp, ⟨t.results, []⟩)
  have hupdated : ∀ c : KcpCore, (c.updated t.clock).1.kcp.windows = c.kcp.windows := fun c => by
    unfold KcpCore.updated
    simp only
    split <;> simp [KcpCore.wakeAll, Kcp.forceClose, windows]
  unfold KcpCore.updating
  split
  · next hrun =>
    rw [hrun] at hupdate
    exact hupdate
  · next kcp out hrun =>
    rw [hrun] at hupdate
    exact hupdate.trans (.of_windows (hupdated _))

theorem allows_poll (s : Running) (tick : Option Tick) : s.kcp.Allows (s.poll tick).kcp := by
  have hsleep : ∀ c : KcpCore, (KcpUpdate.sleep c).1.kcore.kcp = c.kcp := fun c => by
    unfold KcpUpdate.sleep
    split <;> rfl
  have htask : s.kcp.Allows (s.update.poll tick).1.kcore.kcp := by
    unfold KcpUpdate.poll
    split
    · exact .of_windows (congrArg windows (hsleep _))
    · cases tick with
      | none => exact .of_windows rfl
      | some t =>
        have hupdating := allows_updating s.update.kcore t
        simp only
        split <;> next hrun =>
          rw [hrun] at hupdating
          first
          | exact hupdating
          | exact hupdating.trans (.of_windows (congrArg windows (hsleep _)))
  unfold poll
  split
  · exact .of_windows rfl
  · split <;> next hrun =>
      rw [hrun] at htask
      exact htask

theorem step_allowed (e : Event) (s : Running) (h : s.kcp.windows.Bounded) :
    (step e s).kcp.windows.Bounded ∧
      (step e s).kcp.windows.inFlight ≤ max s.kcp.windows.inFlight s.kcp.rmtWnd.toNat := by
  cases e with
  | read cx cap => exact (narrows_pollRead s.update.kcore cx (.new cap)).allowed h
  | write cx data => exact (Narrows.of_eq (windows_pollWrite s.update.kcore cx data)).allowed h
  | pollClose cx clock =>
    refine Windows.Narrows.allowed (.of_eq ?_) h
    show (s.update.kcore.pollClose cx clock).1.kcp.windows = _
    unfold KcpCore.pollClose
    split <;> rfl
  | close clock =>
    refine Windows.Narrows.allowed (.of_eq ?_) h
    show (s.kcp.close clock).1.windows = _
    unfold ThirdParty.Kcp.close
    split <;> rfl
  | input data => exact (narrows_input s.update.kcore data).allowed h
  | poll tick => exact (allows_poll s tick).allowed h

/-! ## Runs -/

theorem bounded_start (conv : UInt32) (clock : Nat) :
    (start conv clock).kcp.windows.Bounded where
  sndWnd_eq := rfl
  rcvWnd_eq := rfl
  nocwnd_eq := rfl
  inFlight_le := (ahead_self 0).trans_le (Nat.zero_le 1024)
  sent := .nil _ _
  early := .nil _ _
  queued_le := Nat.zero_le _

theorem windows_after (conv : UInt32) (clock : Nat) (events : List Event) :
    (after step (start conv clock) events).kcp.windows.Bounded :=
  after_invariant (fun s e h => (step_allowed e s h).1) (bounded_start conv clock)

/-- Whatever arrives for a session and whatever is done with it, its buffers are within its windows,
and the window that it tells its peer is what is free in its receive queue. -/
theorem bounded_after (conv : UInt32) (clock : Nat) (events : List Event) :
    let k := (after step (start conv clock) events).kcp
    k.rcvQueue.length ≤ 1024 ∧ k.rcvBuf.length ≤ 1024 ∧
      k.sndBuf.length ≤ ahead k.sndUna k.sndNxt ∧ ahead k.sndUna k.sndNxt ≤ 1024 ∧
      (k.sndBuf.map (·.sn)).Nodup ∧ (k.rcvBuf.map (·.sn)).Nodup ∧
      k.wndUnused.toNat + k.rcvQueue.length = 1024 := by
  have h := windows_after conv clock events
  generalize (after step (start conv clock) events).kcp = k at h
  refine ⟨h.queued_le, ?_, ?_, h.inFlight_le, h.sent.nodup, h.early.nodup, ?_⟩
  · exact (List.length_map _).symm.trans_le h.early.length_le
  · exact (List.length_map _).symm.trans_le h.sent.length_le
  · have hqueued : k.rcvQueue.length ≤ 1024 := h.queued_le
    have hwnd : k.rcvWnd = 1024 := h.rcvWnd_eq
    unfold wndUnused
    rw [hwnd]
    split
    · rw [UInt16.toNat_sub, UInt16.toNat_ofNat']
      show (2 ^ 16 - k.rcvQueue.length % 2 ^ 16 + 1024) % 2 ^ 16 + k.rcvQueue.length = 1024
      omega
    · next hfull =>
      have hfull : ¬ k.rcvQueue.length < 1024 := hfull
      show 0 + k.rcvQueue.length = 1024
      omega

/-- In every run a step brings no more segments on the way than the peer has told that it has room
for, unless as many were on the way before. -/
theorem inFlight_step (conv : UInt32) (clock : Nat) (events : List Event) (e : Event) :
    let k := (after step (start conv clock) events).kcp
    let k' := (after step (start conv clock) (events ++ [e])).kcp
    ahead k'.sndUna k'.sndNxt ≤ max (ahead k.sndUna k.sndNxt) k.rmtWnd.toNat := by
  have h := (step_allowed e _ (windows_after conv clock events)).2
  rw [← after_concat step] at h
  exact h

end Running
end Fuso.Kcp

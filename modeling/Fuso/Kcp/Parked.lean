import Fuso.Kcp.Arrival
import Fuso.Kcp.Core
import Fuso.Theory.Run

/-!
# Writes that wait

`KcpCore::poll_write` waits when `send` finds a message too long, which is one of 128 segments or
more. No datagram and no update makes a message shorter, so such a write waits as long as the
session is open (`responsive_iff`).
-/

namespace Fuso.ThirdParty
namespace Kcp

/-- The room in the last segment of the queue, which a stream fills up first. -/
def spare (k : Kcp) : Nat :=
  if k.stream then
    match k.sndQueue.getLast? with
    | none => 0
    | some old => k.mss.toNat - old.data.length
  else 0

/-- The greatest length that `send` takes. -/
def maxMessage (k : Kcp) : Nat := (wndRcv - 1) * k.mss.toNat + k.spare

theorem spare_eq {k : Kcp} (hstream : k.stream = true) (hlast : k.sndQueue.getLast? = some old) :
    k.spare = k.mss.toNat - old.data.length := by
  simp only [spare, hstream, hlast, if_true]

theorem spare_nil {k : Kcp} (hlast : k.sndQueue.getLast? = none) : k.spare = 0 := by
  simp only [spare, hlast, ite_self]

/-- What is sent leaves no more room. -/
theorem Sends.spare_le {k k' : Kcp} (h : Sends k k') : k'.spare ≤ k.spare := by
  obtain ⟨sent, hqueue⟩ := h.suffix
  cases hlast : k'.sndQueue.getLast? with
  | none =>
    rw [spare_nil hlast]
    exact Nat.zero_le _
  | some old =>
    have hlast' : k.sndQueue.getLast? = some old := by
      rw [← hqueue, List.getLast?_append, hlast, Option.some_or]
    simp [spare, h.stream, h.mss, hlast, hlast']

theorem segmentCount_lt_iff {n : Nat} (hn : 0 < n) (buf : Bytes) :
    segmentCount n buf < wndRcv ↔ buf.length ≤ (wndRcv - 1) * n := by
  unfold segmentCount wndRcv
  split
  · omega
  · rw [Nat.div_lt_iff_lt_mul hn]
    omega

theorem mss_pos {k : Kcp} (h : k.mss ≠ 0) : 0 < k.mss.toNat :=
  Nat.pos_of_ne_zero fun hzero => h (UInt32.toNat.inj hzero)

/-- What `send` does first: in stream mode the last segment is filled up. -/
structure Fills (k : Kcp) (buf : Bytes) (k' : Kcp) (rest : Bytes) : Prop where
  mss : k'.mss = k.mss
  closeState : k'.closeState = k.closeState
  length : rest.length = buf.length - k.spare
  full : rest ≠ [] → k'.spare = 0

theorem extendLast_fills {k : Kcp} (hstream : k.stream = true) (buf : Bytes) :
    Fills k buf (k.extendLast buf).1 (k.extendLast buf).2 := by
  unfold extendLast
  cases hlast : k.sndQueue.getLast? with
  | none => exact ⟨rfl, rfl, by rw [spare_nil hlast]; rfl, fun _ => spare_nil hlast⟩
  | some old =>
    have hspare := spare_eq hstream hlast
    simp only
    split
    · next hlt =>
      refine ⟨rfl, rfl, ?_, fun hrest => ?_⟩
      · rw [List.length_drop, hspare]
        omega
      · have hlong : k.mss.toNat - old.data.length ≤ buf.length := by
          have := List.length_pos_iff.2 hrest
          rw [List.length_drop] at this
          omega
        have hfilled : ∀ k' : Kcp, k'.stream = true → k'.mss = k.mss →
            k'.sndQueue.getLast? = some { old with
              data := old.data ++ buf.take (min buf.length (k.mss.toNat - old.data.length))
              frg := 0 } → k'.spare = 0 := fun k' hstream' hmss hlast' => by
          rw [spare_eq hstream' hlast', hmss, List.length_append, List.length_take]
          omega
        exact hfilled _ hstream rfl List.getLast?_concat
    · next hge =>
      have hzero : k.spare = 0 := by omega
      exact ⟨rfl, rfl, by rw [hzero]; rfl, fun _ => hzero⟩

theorem send_fills (k : Kcp) (buf : Bytes) :
    Fills k buf (if k.stream then k.extendLast buf else (k, buf)).1
      (if k.stream then k.extendLast buf else (k, buf)).2 := by
  split
  · next hstream => exact extendLast_fills hstream buf
  · next hstream =>
    have hzero : k.spare = 0 := by rw [spare, if_neg hstream]
    exact ⟨rfl, rfl, by rw [hzero]; rfl, fun _ => hzero⟩

section
variable {k : Kcp} {buf : Bytes} (hopen : k.closeState = .no) (hmss : 0 < k.mss.toNat)
include hopen hmss

theorem send_short (h : buf.length ≤ k.maxMessage) : (k.send buf).2 = .ok buf.length := by
  have hfills := send_fills k buf
  unfold send
  rw [if_neg (by simp [hopen])]
  generalize (if k.stream then k.extendLast buf else (k, buf)) = p at hfills ⊢
  obtain ⟨k', rest⟩ := p
  simp only
  split
  · rfl
  · rw [if_neg]
    rw [Nat.not_le, segmentCount_lt_iff (hfills.mss ▸ hmss), hfills.mss, hfills.length]
    unfold maxMessage at h
    omega

/-- A message that is too long is not taken, also when the last segment has been filled up. -/
theorem send_long (h : k.maxMessage < buf.length) : ∃ k', k.send buf = (k', .error .userBufTooBig) ∧
    k'.closeState = .no ∧ k'.mss = k.mss ∧ k'.spare = 0 := by
  have hfills := send_fills k buf
  unfold send
  rw [if_neg (by simp [hopen])]
  generalize (if k.stream then k.extendLast buf else (k, buf)) = p at hfills ⊢
  obtain ⟨k', rest⟩ := p
  have hlong : (wndRcv - 1) * k.mss.toNat < rest.length := by
    rw [hfills.length]
    unfold maxMessage at h
    omega
  have hne : rest ≠ [] := List.ne_nil_of_length_pos (by omega)
  have hcount : wndRcv ≤ segmentCount k'.mss.toNat rest := by
    rw [← Nat.not_lt, segmentCount_lt_iff (hfills.mss ▸ hmss), hfills.mss]
    omega
  refine ⟨k', ?_, hfills.closeState.trans hopen, hfills.mss, hfills.full hne⟩
  simp only [hne, and_false, if_false, if_pos hcount]

end
end Kcp
end Fuso.ThirdParty

namespace Fuso.Kcp
open ThirdParty

/-- What can happen to a session while a write waits. -/
inductive Progress where
  | input (data : Bytes)
  | update (t : Tick)

namespace KcpCore

def progress : Progress → KcpCore → KcpCore
  | .input data, c => (Session.input c data).1
  | .update t, c => (c.updating t).1

/-- The write takes bytes. -/
def Accepts (c : KcpCore) (cx : Waker) (data : Bytes) : Prop :=
  ∃ c' n, c.pollWrite cx data = (c', .ready (.ok n)) ∧ 1 ≤ n ∧ n ≤ data.length

/-- The write takes bytes, or it waits and takes some when the right things have happened. The
session stays open until then. -/
def Responsive (c : KcpCore) (cx : Waker) (data : Bytes) : Prop :=
  c.Accepts cx data ∨ ∃ c', c.pollWrite cx data = (c', .pending) ∧ ∃ events,
    (∀ pre, pre <+: events → (after progress c' pre).kcp.closeState = .no) ∧
      ∃ r, ((after progress c' events).pollWrite cx data).2 = .ready (.ok r)

/-! ## What is too long stays too long -/

theorem sending_inputLoop (fuel : Nat) (c : KcpCore) (data next : Bytes) :
    (Session.inputLoop data fuel c next).1.kcp.sending = c.kcp.sending := by
  induction fuel generalizing c next with
  | zero => rfl
  | succ fuel ih =>
    have hinput := Kcp.sending_input c.kcp next
    unfold Session.inputLoop
    split
    · split
      · next kcp e heq =>
        rw [heq] at hinput
        exact hinput
      · next kcp n heq =>
        rw [heq] at hinput
        exact (ih _ _).trans hinput
    · rfl

theorem sending_input (c : KcpCore) (data : Bytes) :
    (Session.input c data).1.kcp.sending = c.kcp.sending := by
  have hloop := sending_inputLoop data.length c data data
  unfold Session.input
  split
  · next c' e heq =>
    rw [heq] at hloop
    exact hloop
  · next c' heq =>
    rw [heq] at hloop
    simp only [kcp_wakeWriteIf, kcp_wakeReadIf]
    exact hloop

theorem sending_updated (c : KcpCore) (clock : Nat) :
    (c.updated clock).1.kcp.sending = c.kcp.sending := by
  unfold updated
  simp only
  split
  · simp only [wakeAll, kcp_wakeCloseIf, kcp_wakeWriteIf, kcp_wakeReadIf]
    rfl
  · simp only [kcp_wakeCloseIf, kcp_wakeWriteIf, kcp_wakeReadIf]

/-- No room, and segments of the size `mss`. -/
structure Full (mss : UInt32) (c : KcpCore) : Prop where
  mss_eq : c.kcp.mss = mss
  spare_eq : c.kcp.spare = 0

theorem Full.of_sending {c c' : KcpCore} (hfull : Full mss c)
    (h : c'.kcp.sending = c.kcp.sending) : Full mss c' := by
  obtain ⟨hmss, hstream, hqueue⟩ := Kcp.Sending.mk.inj h
  refine ⟨hmss.trans hfull.mss_eq, ?_⟩
  rw [← hfull.spare_eq, Kcp.spare, Kcp.spare, hmss, hstream, hqueue]

theorem Full.update (hfull : Full mss c) (t : Tick) (hopen : c.kcp.closeState = .no) :
    Full mss (c.updating t).1 := by
  have hsends := Kcp.update_sends t.current t.clock (s := (c.kcp, ⟨t.results, []⟩)) hopen
  have hkcp : ∀ c' : KcpCore, Kcp.Sends c.kcp c'.kcp → Full mss c' := fun c' h =>
    ⟨h.mss.trans hfull.mss_eq, Nat.le_zero.1 (hfull.spare_eq ▸ h.spare_le)⟩
  unfold updating
  split
  · next e kcp out heq =>
    rw [heq] at hsends
    exact hkcp _ hsends
  · next kcp out heq =>
    rw [heq] at hsends
    exact (hkcp { c with kcp, written := c.written ++ out.written } hsends).of_sending
      (sending_updated _ _)

theorem Full.progress (hfull : Full mss c) (e : Progress) (hopen : c.kcp.closeState = .no) :
    Full mss (progress e c) := by
  cases e with
  | input data => exact hfull.of_sending (sending_input c data)
  | update t => exact hfull.update t hopen

section
variable {c : KcpCore} {data : Bytes} (hopen : c.kcp.closeState = .no) (hmss : c.kcp.mss ≠ 0)
  (cx : Waker)
include hopen hmss

theorem pollWrite_short (h : data.length ≤ c.kcp.maxMessage) :
    (c.pollWrite cx data).2 = .ready (.ok data.length) := by
  have hsend := Kcp.send_short hopen (Kcp.mss_pos hmss) h
  unfold pollWrite
  split
  · next kcp n heq =>
    rw [heq] at hsend
    rw [Except.ok.inj hsend]
  · next kcp heq =>
    rw [heq] at hsend
    cases hsend
  · next kcp e _ heq =>
    rw [heq] at hsend
    cases hsend

/-- A write that is too long waits, and leaves no room. -/
theorem pollWrite_long (h : c.kcp.maxMessage < data.length) : ∃ c',
    c.pollWrite cx data = (c', .pending) ∧ c'.kcp.closeState = .no ∧ Full c.kcp.mss c' := by
  obtain ⟨kcp, hsend, hopen', hmss', hspare⟩ := Kcp.send_long hopen (Kcp.mss_pos hmss) h
  refine ⟨{ c with kcp, writeWaker := some cx }, ?_, hopen', hmss', hspare⟩
  simp only [pollWrite, hsend]

theorem not_responsive (h : c.kcp.maxMessage < data.length) : ¬ c.Responsive cx data := by
  obtain ⟨c', hpending, hopen', hfull⟩ := pollWrite_long hopen hmss cx h
  rintro (⟨_, _, hready, _⟩ | ⟨c'', hpending', events, hstay, r, hready⟩)
  · rw [hpending] at hready
    cases hready
  · obtain rfl : c'' = c' := (Prod.ext_iff.1 (hpending'.symm.trans hpending)).1
    have hopens : Admissible progress (fun _ c => c.kcp.closeState = .no) c'' events :=
      fun pre e hpre => hstay pre ((List.prefix_append pre [e]).trans hpre)
    have hend : Full c.kcp.mss (after progress c'' events) :=
      after_guarded (fun _ e hfull => hfull.progress e) hfull hopens
    have hlong : (after progress c'' events).kcp.maxMessage < data.length := by
      rw [Kcp.maxMessage, hend.mss_eq, hend.spare_eq]
      exact Nat.lt_of_le_of_lt (Nat.le_add_right _ _) h
    -- the poll that follows the events finds the message too long again
    obtain ⟨_, hagain, -⟩ := pollWrite_long (hstay events (List.prefix_refl _))
      (hend.mss_eq ▸ hmss) cx hlong
    rw [hagain] at hready
    cases hready

end

/-- A write is responsive exactly when it has less than 128 segments, with what fills up the last
one of a stream. -/
theorem responsive_iff {c : KcpCore} {data : Bytes} (hopen : c.kcp.closeState = .no)
    (hmss : c.kcp.mss ≠ 0) (hdata : data ≠ []) (cx : Waker) :
    c.Responsive cx data ↔ data.length ≤ c.kcp.maxMessage := by
  constructor
  · intro h
    by_contra hlong
    exact not_responsive hopen hmss cx (Nat.not_le.1 hlong) h
  · intro hshort
    have hwrite := pollWrite_short hopen hmss cx hshort
    exact .inl ⟨_, data.length, Prod.ext rfl hwrite, List.length_pos_iff.2 hdata, Nat.le_refl _⟩

theorem responsive_iff_hello : (KcpCore.new 7 0).Responsive 0 [104, 105] ↔ 2 ≤ 174752 :=
  responsive_iff rfl (by decide) (by decide) 0

/-- A message that is one byte longer than 127 segments, in a session that is new. -/
theorem parked_large : (KcpCore.new 7 0).kcp.closeState = .no ∧
    List.replicate 174753 (0 : UInt8) ≠ [] ∧
    ¬ (KcpCore.new 7 0).Responsive 0 (List.replicate 174753 0) := by
  refine ⟨rfl, List.ne_nil_of_length_pos ?_, not_responsive rfl (by decide) 0 ?_⟩
  · rw [List.length_replicate]
    decide
  · rw [List.length_replicate]
    decide

end KcpCore
end Fuso.Kcp

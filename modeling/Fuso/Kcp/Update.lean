import Fuso.Kcp.Output

/-!
# What KCP sends

`flush` and `update`. Neither touches what is received, and what is to be sent only leaves the queue
at its front (`update_sends`). When no write fails, `update` fails exactly on a conversation that is
closed or overdue (`update_ok_iff`).
-/

namespace Fuso.ThirdParty

namespace Kcp
open KcpM

/-- The free places of the receive queue. -/
def wndUnused (k : Kcp) : UInt16 :=
  if k.rcvQueue.length < k.rcvWnd.toNat then k.rcvWnd - .ofNat k.rcvQueue.length else 0

/-- What is in the buffer is written when `need` bytes more do not fit. -/
def makeRoom (need : Nat) : KcpM Unit := do
  let k ← get
  when (k.mtu < k.buf.length + need) do
    write k.buf
    modify ({ · with buf := [] })

def putSegment (seg : KcpSegment) : KcpM Unit :=
  modify fun k => { k with buf := k.buf ++ seg.encode }

/-- The segment that carries acknowledgements. -/
def ackSegment (k : Kcp) : KcpSegment :=
  { conv := k.conv, cmd := cmdAck, wnd := k.wndUnused, una := k.rcvNxt }

/-- The acknowledgements, each in `segment`, which keeps the numbers of the last one. -/
def flushAcks (segment : KcpSegment) : List (UInt32 × UInt32) → KcpM KcpSegment
  | [] => do
    modify ({ · with acklist := [] })
    pure segment
  | (sn, ts) :: acks => do
    makeRoom overhead
    putSegment { segment with sn, ts }
    flushAcks { segment with sn, ts } acks

def probeWndSize (k : Kcp) : Kcp :=
  if k.rmtWnd ≠ 0 then { k with tsProbe := 0, probeWait := 0 }
  else if k.probeWait = 0 then
    { k with probeWait := probeInit, tsProbe := k.current + probeInit }
  else
    let wait := if 0 ≤ timediff k.current k.tsProbe ∧ k.probeWait < probeInit then probeInit
      else k.probeWait
    let wait := min (wait + wait / 2) probeLimit
    { k with probeWait := wait, tsProbe := k.current + wait, probe := k.probe ||| askSend }

def flushProbe (ask : UInt32) (segment : KcpSegment) : KcpM Unit := do
  let k ← get
  when (k.probe &&& ask ≠ 0) do
    makeRoom overhead
    putSegment segment

def flushProbeCommands (segment : KcpSegment) : KcpM Unit := do
  flushProbe askSend { segment with cmd := cmdWask }
  flushProbe askTell { segment with cmd := cmdWins }
  modify ({ · with probe := 0 })

def flushAck : KcpM Unit := do
  let k ← get
  when (k.updated = false) (throw .needUpdate)
  let _ ← flushAcks k.ackSegment k.acklist

/-- The segments of the queue that the window `cwnd` lets through go to `snd_buf`. -/
def moveQueue (wnd cwnd : UInt16) : Kcp → List KcpSegment → Kcp
  | k, [] => { k with sndQueue := [] }
  | k, seg :: queue =>
    if timediff k.sndNxt (k.sndUna + cwnd.toUInt32) < 0 then
      let seg := { seg with
        conv := k.conv, cmd := cmdPush, wnd, ts := k.current, sn := k.sndNxt, una := k.rcvNxt
        resendts := k.current, rto := k.rxRto, fastack := 0, xmit := 0 }
      moveQueue wnd cwnd { k with sndNxt := k.sndNxt + 1, sndBuf := k.sndBuf ++ [seg] } queue
    else { k with sndQueue := seg :: queue }

/-- Why a segment is sent. -/
inductive Cause where
  | first
  | lost
  | fast

/-- Whether a segment is sent now, and the segment with its next deadline. -/
def resend (k : Kcp) (resent rtomin : UInt32) (seg : KcpSegment) : Option (Cause × KcpSegment) :=
  if seg.xmit = 0 then
    some (.first, { seg with
      xmit := seg.xmit + 1, rto := k.rxRto, resendts := k.current + k.rxRto + rtomin })
  else if 0 ≤ timediff k.current seg.resendts then
    let rto := seg.rto + if k.nodelay then k.rxRto / 2 else k.rxRto
    some (.lost, { seg with xmit := seg.xmit + 1, rto, resendts := k.current + rto })
  else if resent ≤ seg.fastack then
    some (.fast, { seg with xmit := seg.xmit + 1, fastack := 0, resendts := k.current + seg.rto })
  else none

/-- The segments of `snd_buf` behind `done`. The result says whether one was lost and how many were
sent again early. -/
def flushSegments (wnd : UInt16) (resent rtomin : UInt32) (done : List KcpSegment) (lost : Bool)
    (change : Nat) : List KcpSegment → KcpM (Bool × Nat)
  | [] => pure (lost, change)
  | seg :: rest => do
    let k ← get
    match k.resend resent rtomin seg with
    | none => flushSegments wnd resent rtomin (done ++ [seg]) lost change rest
    | some (cause, seg) =>
      let seg := { seg with ts := k.current, wnd, una := k.rcvNxt }
      modify fun k => { k with
        sndBuf := done ++ seg :: rest
        xmit := match cause with
          | .lost => k.xmit + 1
          | .first | .fast => k.xmit }
      makeRoom (overhead + seg.data.length)
      putSegment seg
      modify fun k => if k.deadLink ≤ seg.xmit then { k with state := -1 } else k
      match cause with
      | .first => flushSegments wnd resent rtomin (done ++ [seg]) lost change rest
      | .lost => flushSegments wnd resent rtomin (done ++ [seg]) true change rest
      | .fast => flushSegments wnd resent rtomin (done ++ [seg]) lost (change + 1) rest

/-- The congestion window behind a flush that sent `change` segments early. -/
def shrinkFast (k : Kcp) (resent : UInt32) (change : Nat) : Kcp :=
  if 0 < change then
    let ssthresh := max ((k.sndNxt - k.sndUna).toUInt16 / 2) threshMin
    let cwnd := ssthresh + resent.toUInt16
    { k with ssthresh, cwnd, incr := cwnd.toUInt32 * k.mss }
  else k

/-- The one behind a flush with the window `cwnd`, when a segment was lost. -/
def shrinkLost (k : Kcp) (cwnd : UInt16) (lost : Bool) : Kcp :=
  if lost then { k with ssthresh := max (cwnd / 2) threshMin, cwnd := 1, incr := k.mss } else k

def openCwnd (k : Kcp) : Kcp := if k.cwnd < 1 then { k with cwnd := 1, incr := k.mss } else k

/-- A flush behind the first `update`. -/
def flushAll : KcpM Unit := do
  let k ← get
  let segment ← flushAcks k.ackSegment k.acklist
  modify probeWndSize
  flushProbeCommands segment
  let k ← get
  let cwnd := min k.sndWnd k.rmtWnd
  let cwnd := if k.nocwnd then cwnd else min k.cwnd cwnd
  modify fun k => moveQueue segment.wnd cwnd k k.sndQueue
  let k ← get
  let resent : UInt32 := if 0 < k.fastresend then k.fastresend else 0xFFFFFFFF
  let rtomin : UInt32 := if k.nodelay then 0 else k.rxRto >>> 3
  let sent ← flushSegments segment.wnd resent rtomin [] false 0 k.sndBuf
  let k ← get
  when (k.buf ≠ []) do
    write k.buf
    modify ({ · with buf := [] })
  modify fun k => ((k.shrinkFast resent sent.2).shrinkLost cwnd sent.1).openCwnd

def flush : KcpM Unit := do
  let k ← get
  when (k.updated = false) (throw .needUpdate)
  flushAll

/-- An `update` at the time `current`. -/
def start (k : Kcp) (current : UInt32) : Kcp :=
  if k.updated then { k with current } else { k with current, updated := true, tsFlush := current }

/-- A flush that is far away is now. -/
def resync (k : Kcp) : Kcp :=
  let slap := timediff k.current k.tsFlush
  if 10000 ≤ slap ∨ slap < -10000 then { k with tsFlush := k.current } else k

/-- It is time for a flush. -/
def due (k : Kcp) : Bool := 0 ≤ timediff k.current k.tsFlush

def nextFlush (k : Kcp) : Kcp :=
  let tsFlush := k.tsFlush + k.interval
  { k with tsFlush := if 0 ≤ timediff k.current tsFlush then k.current + k.interval else tsFlush }

/-- The segment that closes a conversation. -/
def clsSegment (k : Kcp) : KcpSegment := { conv := k.conv, cmd := cmdCls }

/-- The peer has not closed for more than ten seconds. -/
def Overdue (k : Kcp) (clock : Nat) : Prop :=
  k.closeState = .wait ∧ 10 < (clock - k.closeLast) / 1000

instance : Decidable (Overdue k clock) := inferInstanceAs (Decidable (_ ∧ _))

def closeAcks : KcpM Unit := do
  let k ← get
  when (k.closeState = .wsnd) (ignore flushAck)

/-- With nothing left to send the conversation is closed. -/
def closeSent (clock : Nat) : KcpM Unit := do
  let k ← get
  when (k.closeState = .wsnd ∧ k.waitSnd = 0) do
    write k.clsSegment.encode
    modify fun k => { k with
      closeLast := clock, sndQueue := k.sndQueue ++ [k.clsSegment], closeState := .wait }

/-- A conversation that the peer has closed is closed. -/
def closeReceived : KcpM Unit := do
  let k ← get
  when (k.closeState = .wrcv) do
    write k.clsSegment.encode
    modify ({ · with closeState := .yes })

def closeOverdue (clock : Nat) : KcpM Unit := do
  let k ← get
  when (k.Overdue clock) (throw (.ioError .timedOut))

/-- The part of `update` behind the flush. -/
def updateClose (clock : Nat) : KcpM Unit := do
  closeAcks
  closeSent clock
  closeReceived
  closeOverdue clock

/-- The part of `update` with the flush. -/
def updateFlush (current : UInt32) : KcpM Unit := do
  modify fun k => (k.start current).resync
  let k ← get
  when k.due do
    modify nextFlush
    flush

def update (current : UInt32) (clock : Nat) : KcpM Unit := do
  let k ← get
  when k.closed (throw .connectionReset)
  updateFlush current
  updateClose clock

/-! ## What stays -/

/-- What is received, and how the conversation is closed. -/
structure Standing where
  conv : UInt32
  inputConv : Bool
  rcvNxt : UInt32
  rcvWnd : UInt16
  rcvQueue : List KcpSegment
  rcvBuf : List KcpSegment
  closeState : CloseState
  closeLast : Nat

def standing (k : Kcp) : Standing :=
  ⟨k.conv, k.inputConv, k.rcvNxt, k.rcvWnd, k.rcvQueue, k.rcvBuf, k.closeState, k.closeLast⟩

/-- What is to be sent and not yet on the way. -/
structure Sending where
  mss : UInt32
  stream : Bool
  sndQueue : List KcpSegment

def sending (k : Kcp) : Sending := ⟨k.mss, k.stream, k.sndQueue⟩

def steady (k : Kcp) : Standing × Sending := (k.standing, k.sending)

theorem makeRoom_keeps (need : Nat) : Keeps steady (makeRoom need) :=
  .bind .get fun _ => .when (.bind (.write _) fun _ => .modify fun _ => rfl)

theorem putSegment_keeps (seg : KcpSegment) : Keeps steady (putSegment seg) :=
  .modify fun _ => rfl

theorem flushAcks_keeps (acks : List (UInt32 × UInt32)) (segment : KcpSegment) :
    Keeps steady (flushAcks segment acks) := by
  induction acks generalizing segment with
  | nil => exact .bind (.modify fun _ => rfl) fun _ => .pure _
  | cons ack acks ih =>
    exact .bind (makeRoom_keeps _) fun _ => .bind (putSegment_keeps _) fun _ => ih _

theorem flushAck_keeps : Keeps steady flushAck :=
  .bind .get fun _ => .bind (.when (.throw _)) fun _ =>
    .bind (flushAcks_keeps _ _) fun _ => .pure _

theorem steady_probeWndSize (k : Kcp) : k.probeWndSize.steady = k.steady := by
  unfold probeWndSize steady standing sending
  split
  · rfl
  · split <;> rfl

theorem flushProbeCommands_keeps (segment : KcpSegment) :
    Keeps steady (flushProbeCommands segment) := by
  have hprobe : ∀ ask seg, Keeps steady (flushProbe ask seg) := fun ask seg =>
    .bind .get fun _ => .when (.bind (makeRoom_keeps _) fun _ => putSegment_keeps _)
  exact .bind (hprobe _ _) fun _ => .bind (hprobe _ _) fun _ => .modify fun _ => rfl

/-- What is received stays, and what is to be sent leaves the queue at its front. -/
structure Sends (k k' : Kcp) : Prop where
  standing : k'.standing = k.standing
  mss : k'.mss = k.mss
  stream : k'.stream = k.stream
  suffix : k'.sndQueue <:+ k.sndQueue

theorem Sends.of_steady {k k' : Kcp} (h : k'.steady = k.steady) : Sends k k' where
  standing := congrArg Prod.fst h
  mss := congrArg (·.2.mss) h
  stream := congrArg (·.2.stream) h
  suffix := (congrArg (·.2.sndQueue) h : k'.sndQueue = k.sndQueue) ▸ List.suffix_refl _

theorem Sends.trans {k₁ k₂ k₃ : Kcp} (h₁ : Sends k₁ k₂) (h₂ : Sends k₂ k₃) : Sends k₁ k₃ where
  standing := h₂.standing.trans h₁.standing
  mss := h₂.mss.trans h₁.mss
  stream := h₂.stream.trans h₁.stream
  suffix := h₂.suffix.trans h₁.suffix

theorem sends_moveQueue (wnd cwnd : UInt16) (queue : List KcpSegment) (k : Kcp) :
    Sends { k with sndQueue := queue } (moveQueue wnd cwnd k queue) := by
  induction queue generalizing k with
  | nil => exact .of_steady rfl
  | cons seg queue ih =>
    unfold moveQueue
    split
    · refine Sends.trans ?_ (ih _)
      exact ⟨rfl, rfl, rfl, List.suffix_cons seg queue⟩
    · exact .of_steady rfl

theorem sends_bind {m : KcpM α} {f : α → KcpM β} (hm : Keeps steady m)
    (hf : ∀ a, Moves Sends (f a)) : Moves Sends (m >>= f) :=
  .bind (fun _ _ _ => .trans) (.of_keeps (fun _ _ => .of_steady) hm) hf

theorem flushSegments_keeps (wnd : UInt16) (resent rtomin : UInt32) (rest : List KcpSegment)
    (done : List KcpSegment) (lost : Bool) (change : Nat) :
    Keeps steady (flushSegments wnd resent rtomin done lost change rest) := by
  induction rest generalizing done lost change with
  | nil => exact .pure _
  | cons seg rest ih =>
    refine .bind .get fun k => ?_
    split
    · exact ih _ _ _
    · refine .bind (.modify fun _ => rfl) fun _ => .bind (makeRoom_keeps _) fun _ =>
        .bind (putSegment_keeps _) fun _ => .bind (.modify fun k => ?_) fun _ => ?_
      · split <;> rfl
      · split <;> exact ih _ _ _

theorem steady_shrink (k : Kcp) (cwnd : UInt16) (resent : UInt32) (lost : Bool) (change : Nat) :
    ((k.shrinkFast resent change).shrinkLost cwnd lost).openCwnd.steady = k.steady := by
  have hfast : (k.shrinkFast resent change).steady = k.steady := by
    unfold shrinkFast
    split <;> rfl
  have hlost : ∀ k : Kcp, (k.shrinkLost cwnd lost).steady = k.steady := fun k => by
    unfold shrinkLost
    split <;> rfl
  have hopen : ∀ k : Kcp, k.openCwnd.steady = k.steady := fun k => by
    unfold openCwnd
    split <;> rfl
  rw [hopen, hlost, hfast]

theorem flush_sends : Moves Sends flush :=
  sends_bind .get fun _ => sends_bind (.when (.throw _)) fun _ =>
  sends_bind .get fun _ => sends_bind (flushAcks_keeps _ _) fun _ =>
  sends_bind (.modify steady_probeWndSize) fun _ =>
  sends_bind (flushProbeCommands_keeps _) fun _ => sends_bind .get fun _ =>
  .bind (fun _ _ _ => .trans) (.modify fun k => sends_moveQueue _ _ k.sndQueue k) fun _ =>
  .of_keeps (fun _ _ => .of_steady) <|
  .bind .get fun _ => .bind (flushSegments_keeps _ _ _ _ _ _ _) fun _ => .bind .get fun _ =>
  .bind (.when (.bind (.write _) fun _ => .modify fun _ => rfl)) fun _ =>
  .modify fun k => steady_shrink k _ _ _ _

theorem steady_start (k : Kcp) (current : UInt32) :
    (k.start current).resync.steady = k.steady := by
  have hstart : (k.start current).steady = k.steady := by
    unfold start
    split <;> rfl
  have hresync : ∀ k : Kcp, k.resync.steady = k.steady := fun k => by
    unfold resync
    simp only
    split <;> rfl
  rw [hresync, hstart]

theorem updateFlush_sends (current : UInt32) : Moves Sends (updateFlush current) :=
  sends_bind (.modify fun k => steady_start k current) fun _ => sends_bind .get fun _ =>
  .when (fun _ => .of_steady rfl) (sends_bind (.modify fun _ => rfl) fun _ => flush_sends)

theorem updateFlush_keeps (current : UInt32) : Keeps standing (updateFlush current) :=
  fun s => (updateFlush_sends current s).standing

/-- What is received, and whether the conversation is open. -/
def Standing.received (s : Standing) : Standing × Bool :=
  ({ s with closeState := .no, closeLast := 0 }, s.closeState = .no)

/-- A part of an update that writes when the conversation has been closed. -/
theorem keeps_received_closed {p : Kcp → Prop} [∀ k, Decidable (p k)] {data : Kcp → Bytes}
    {f : Kcp → Kcp} (hp : ∀ k, p k → (f k).standing.received = k.standing.received) :
    Keeps (·.standing.received) (do
      let k ← get
      when (p k) do
        write (data k)
        modify f) := by
  intro s
  rw [get_bind, when_apply]
  split
  · next h =>
    have hwrite : (write (data s.1) s).2.1 = s.1 := (Keeps.write (data s.1) : Keeps id _) s
    cases hrun : write (data s.1) s with
    | mk r s' =>
      rw [hrun] at hwrite
      simp only [Bind.bind, hrun]
      cases r with
      | error e => rw [hwrite]
      | ok a => exact (hp _ (hwrite ▸ h)).trans (by rw [hwrite])
  · rfl

theorem update_keeps (current : UInt32) (clock : Nat) :
    Keeps (·.standing.received) (update current clock) := by
  have hsent : Keeps (·.standing.received) (closeSent clock) :=
    keeps_received_closed (p := fun k => k.closeState = .wsnd ∧ k.waitSnd = 0) fun k h => by
      simp [Standing.received, standing, h.1]
  have hreceived : Keeps (·.standing.received) closeReceived :=
    keeps_received_closed (p := fun k => k.closeState = .wrcv) fun k h => by
      simp [Standing.received, standing, h]
  have hacks : Keeps (·.standing.received) closeAcks :=
    .bind .get fun _ => .when (.ignore (.map (·.1.received) flushAck_keeps))
  exact .bind .get fun _ => .bind (.when (.throw _)) fun _ =>
    .bind (.map _ (updateFlush_keeps current)) fun _ => .bind hacks fun _ => .bind hsent fun _ =>
    .bind hreceived fun _ => .bind .get fun _ => .when (.throw _)

/-- On a conversation that is open an update is its flush. -/
theorem updateClose_open {s : Kcp × Output} (h : s.1.closeState = .no) :
    updateClose clock s = (.ok (), s) := by
  have hacks : closeAcks s = (.ok (), s) := by
    rw [closeAcks, get_bind, when_apply, if_neg (by simp [h])]
  have hsent : closeSent clock s = (.ok (), s) := by
    rw [closeSent, get_bind, when_apply, if_neg (by simp [h])]
  have hreceived : closeReceived s = (.ok (), s) := by
    rw [closeReceived, get_bind, when_apply, if_neg (by simp [h])]
  rw [updateClose, bind_ok s _ hacks, bind_ok s _ hsent, bind_ok s _ hreceived, closeOverdue,
    get_bind, when_apply, if_neg (by simp [Overdue, h])]

theorem update_sends (current : UInt32) (clock : Nat) {s : Kcp × Output}
    (h : s.1.closeState = .no) : Sends s.1 (update current clock s).2.1 := by
  have hflush := updateFlush_sends current s
  have hopen : (updateFlush current s).2.1.closeState = .no :=
    (congrArg Standing.closeState hflush.standing).trans h
  rw [update, get_bind, when_bind_neg _ _ _ (by simp [closed, h])]
  simp only [Bind.bind]
  split
  · next s' hrun =>
    rw [hrun] at hflush hopen
    rw [updateClose_open hopen]
    exact hflush
  · next e s' hrun =>
    rw [hrun] at hflush
    exact hflush
/-! ## When an update fails -/

theorem makeRoom_returns (need : Nat) : Returns (makeRoom need) :=
  .bind .get fun _ => .when fun _ => .bind (.write _) fun _ => .modify _

theorem flushAcks_returns (acks : List (UInt32 × UInt32)) (segment : KcpSegment) :
    Returns (flushAcks segment acks) := by
  induction acks generalizing segment with
  | nil => exact .bind (.modify _) fun _ => .pure _
  | cons ack acks ih =>
    exact .bind (makeRoom_returns _) fun _ => .bind (.modify _) fun _ => ih _

theorem flushProbeCommands_returns (segment : KcpSegment) :
    Returns (flushProbeCommands segment) := by
  have hprobe : ∀ ask seg, Returns (flushProbe ask seg) := fun ask seg =>
    .bind .get fun _ => .when fun _ => .bind (makeRoom_returns _) fun _ => .modify _
  exact .bind (hprobe _ _) fun _ => .bind (hprobe _ _) fun _ => .modify _

theorem flushSegments_returns (wnd : UInt16) (resent rtomin : UInt32) (rest : List KcpSegment)
    (done : List KcpSegment) (lost : Bool) (change : Nat) :
    Returns (flushSegments wnd resent rtomin done lost change rest) := by
  induction rest generalizing done lost change with
  | nil => exact .pure _
  | cons seg rest ih =>
    refine .bind .get fun k => ?_
    split
    · exact ih _ _ _
    · refine .bind (.modify _) fun _ => .bind (makeRoom_returns _) fun _ =>
        .bind (.modify _) fun _ => .bind (.modify _) fun _ => ?_
      split <;> exact ih _ _ _

theorem flushAll_returns : Returns flushAll :=
  .bind .get fun _ => .bind (flushAcks_returns _ _) fun _ => .bind (.modify _) fun _ =>
  .bind (flushProbeCommands_returns _) fun _ => .bind .get fun _ => .bind (.modify _) fun _ =>
  .bind .get fun _ => .bind (flushSegments_returns _ _ _ _ _ _ _) fun _ => .bind .get fun _ =>
  .bind (.when fun _ => .bind (.write _) fun _ => .modify _) fun _ => .modify _

theorem updated_start (k : Kcp) (current : UInt32) :
    (k.start current).resync.nextFlush.updated = true := by
  have hresync : ∀ k : Kcp, k.resync.updated = k.updated := fun k => by
    unfold resync
    simp only
    split <;> rfl
  rw [nextFlush, hresync]
  unfold start
  split
  · next h => exact h
  · rfl

theorem updateFlush_returns (current : UInt32) : Returns (updateFlush current) := by
  intro s h
  have hflush : ∀ k : Kcp, k.updated = true → flush (k, s.2) = flushAll (k, s.2) := fun k hk => by
    rw [flush, get_bind, when_bind_neg _ _ _ (by simp [hk])]
  rw [updateFlush, modify_bind, get_bind, when_apply]
  split
  · rw [modify_bind, hflush _ (updated_start s.1 current)]
    exact flushAll_returns _ h
  · exact ⟨⟨(), rfl⟩, h⟩

/-- When no write fails the part returns, with a conversation that is overdue as before. -/
def Passes (clock : Nat) (m : KcpM Unit) : Prop := ∀ s : Kcp × Output, s.2.Good →
  ∃ s' : Kcp × Output, m s = (.ok (), s') ∧ s'.2.Good ∧ (s'.1.Overdue clock ↔ s.1.Overdue clock)

theorem overdue_of_closing {k k' : Kcp} (hstate : k'.closeState = k.closeState)
    (hlast : k'.closeLast = k.closeLast) : k'.Overdue clock ↔ k.Overdue clock := by
  rw [Overdue, Overdue, hstate, hlast]

theorem closeAcks_passes (clock : Nat) : Passes clock closeAcks := by
  intro s h
  rw [closeAcks, get_bind, when_apply]
  split
  · have hkeeps := flushAck_keeps s
    have hgood : (flushAck s).2.2.Good := by
      rw [flushAck, get_bind]
      by_cases hupdated : s.1.updated = false
      · rw [when_bind_pos _ _ _ hupdated]
        exact h
      · rw [when_bind_neg _ _ _ hupdated]
        exact (Returns.bind (flushAcks_returns _ _) (fun _ => .pure ()) s h).2
    exact ⟨_, rfl, hgood, overdue_of_closing (congrArg (·.1.closeState) hkeeps)
      (congrArg (·.1.closeLast) hkeeps)⟩
  · exact ⟨s, rfl, h, Iff.rfl⟩

theorem closeSent_passes (clock : Nat) : Passes clock (closeSent clock) := by
  intro s h
  rw [closeSent, get_bind, when_apply]
  split
  · next hsnd =>
    obtain ⟨o, ho, hwrite⟩ := write_good s.1.clsSegment.encode h
    refine ⟨_, bind_ok s _ hwrite, ho, iff_of_false ?_ ?_⟩
    · simp [Overdue]
    · simp [Overdue, hsnd.1]
  · exact ⟨s, rfl, h, Iff.rfl⟩

theorem closeReceived_passes (clock : Nat) : Passes clock closeReceived := by
  intro s h
  rw [closeReceived, get_bind, when_apply]
  split
  · next hrcv =>
    obtain ⟨o, ho, hwrite⟩ := write_good s.1.clsSegment.encode h
    refine ⟨_, bind_ok s _ hwrite, ho, iff_of_false ?_ ?_⟩
    · simp [Overdue]
    · simp [Overdue, hrcv]
  · exact ⟨s, rfl, h, Iff.rfl⟩

theorem updateClose_ok_iff {s : Kcp × Output} (h : s.2.Good) :
    (updateClose clock s).1 = .ok () ↔ ¬ s.1.Overdue clock := by
  obtain ⟨s₁, hacks, hgood₁, hover₁⟩ := closeAcks_passes clock s h
  obtain ⟨s₂, hsent, hgood₂, hover₂⟩ := closeSent_passes clock s₁ hgood₁
  obtain ⟨s₃, hreceived, hgood₃, hover₃⟩ := closeReceived_passes clock s₂ hgood₂
  rw [← hover₁, ← hover₂, ← hover₃, updateClose, bind_ok s _ hacks, bind_ok s₁ _ hsent,
    bind_ok s₂ _ hreceived, closeOverdue, get_bind, when_apply]
  split
  · next hover => exact iff_of_false (fun hok => by cases hok) (fun hnot => hnot hover)
  · next hover => exact iff_of_true rfl hover

/-- When no write fails, an update fails exactly on a conversation that is closed or overdue. -/
theorem update_ok_iff (current : UInt32) (clock : Nat) {s : Kcp × Output} (h : s.2.Good) :
    (update current clock s).1 = .ok () ↔ s.1.closed = false ∧ ¬ s.1.Overdue clock := by
  rw [update, get_bind]
  by_cases hclosed : s.1.closed = true
  · rw [when_bind_pos _ _ _ hclosed]
    exact iff_of_false (fun hok => by cases hok) (fun hnot => by simp [hclosed] at hnot)
  · obtain ⟨⟨a, ha⟩, hgood⟩ := updateFlush_returns current s h
    have hkeeps := updateFlush_keeps current s
    have hflush : updateFlush current s = (.ok a, (updateFlush current s).2) := Prod.ext ha rfl
    rw [when_bind_neg _ _ _ hclosed, bind_ok s _ hflush, updateClose_ok_iff hgood,
      overdue_of_closing (congrArg Standing.closeState hkeeps)
        (congrArg Standing.closeLast hkeeps)]
    simp [hclosed]

end Kcp
end Fuso.ThirdParty

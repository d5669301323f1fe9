import Fuso.Kcp.Segment

/-!
# The KCP control block

The `Kcp` of the vendored crate, with what it does without its output: messages are cut into
segments (`send`) and put together (`recv`), and segments that arrive are sorted in (`input`). All
arithmetic wraps around.
-/

namespace Fuso.ThirdParty

inductive CloseState where
  | no
  | yes
  | wsnd
  | wrcv
  | wait
  deriving DecidableEq

def askSend : UInt32 := 1
def askTell : UInt32 := 2
/-- `KCP_WND_RCV`. -/
def wndRcv : Nat := 128
def rtoMax : UInt32 := 60000
def threshMin : UInt16 := 2
def probeInit : UInt32 := 7000
def probeLimit : UInt32 := 120000

/-- Instants are in milliseconds. -/
structure Kcp where
  conv : UInt32
  mtu : Nat := 1400
  mss : UInt32 := 1376
  state : Int := 0
  sndUna : UInt32 := 0
  sndNxt : UInt32 := 0
  rcvNxt : UInt32 := 0
  ssthresh : UInt16 := 2
  rxRttval : UInt32 := 0
  rxSrtt : UInt32 := 0
  rxRto : UInt32 := 200
  rxMinrto : UInt32 := 100
  sndWnd : UInt16 := 32
  rcvWnd : UInt16 := 128
  rmtWnd : UInt16 := 128
  cwnd : UInt16 := 0
  probe : UInt32 := 0
  current : UInt32 := 0
  interval : UInt32 := 100
  tsFlush : UInt32 := 100
  xmit : UInt32 := 0
  nodelay : Bool := false
  updated : Bool := false
  tsProbe : UInt32 := 0
  probeWait : UInt32 := 0
  deadLink : UInt32 := 10
  incr : UInt32 := 0
  sndQueue : List KcpSegment := []
  rcvQueue : List KcpSegment := []
  sndBuf : List KcpSegment := []
  rcvBuf : List KcpSegment := []
  acklist : List (UInt32 × UInt32) := []
  buf : Bytes := []
  fastresend : UInt32 := 0
  nocwnd : Bool := false
  stream : Bool := false
  closeLast : Nat
  closeState : CloseState := .no
  inputConv : Bool := false

namespace Kcp

def new (conv : UInt32) (clock : Nat) : Kcp := { conv, closeLast := clock }

variable (k : Kcp)

def setWndsize (sndwnd rcvwnd : UInt16) : Kcp :=
  let k := if 0 < sndwnd then { k with sndWnd := sndwnd } else k
  if 0 < rcvwnd then { k with rcvWnd := max rcvwnd 128 } else k

def setNodelay (nodelay : Bool) (interval resend : Int) (nc : Bool) : Kcp :=
  let k := { k with nodelay, rxMinrto := if nodelay then 30 else 100 }
  let k := { k with interval :=
    if interval < 10 then 10 else if 5000 < interval then 5000 else .ofNat interval.toNat }
  let k := if 0 ≤ resend then { k with fastresend := .ofNat resend.toNat } else k
  { k with nocwnd := nc }

def setMaximumResendTimes (deadLink : UInt32) : Kcp := { k with deadLink }

/-! ## Receiving -/

/-- The number of bytes up to the end of the first message. -/
def messageLen : List KcpSegment → Nat
  | [] => 0
  | seg :: queue => if seg.frg = 0 then seg.data.length else seg.data.length + messageLen queue

/-- The first message, and the segments behind it. -/
def popMessage : List KcpSegment → Bytes × List KcpSegment
  | [] => ([], [])
  | seg :: queue =>
    if seg.frg = 0 then (seg.data, queue)
    else
      let (data, queue) := popMessage queue
      (seg.data ++ data, queue)

def peeksize : KcpResult Nat :=
  match k.rcvQueue with
  | [] => .error .recvQueueEmpty
  | seg :: _ =>
    if seg.frg = 0 then .ok seg.data.length
    else if k.rcvQueue.length < (seg.frg + 1).toNat then .error .expectingFragment
    else .ok (messageLen k.rcvQueue)

/-- The segments that are next move from `rcv_buf` to `rcv_queue`. -/
def moveSegments (rcvWnd : Nat) : UInt32 → List KcpSegment → List KcpSegment →
    UInt32 × List KcpSegment × List KcpSegment
  | rcvNxt, queue, [] => (rcvNxt, queue, [])
  | rcvNxt, queue, seg :: buf =>
    if seg.sn = rcvNxt ∧ queue.length < rcvWnd then
      moveSegments rcvWnd (rcvNxt + 1) (queue ++ [seg]) buf
    else (rcvNxt, queue, seg :: buf)

def moveBuf : Kcp :=
  let (rcvNxt, rcvQueue, rcvBuf) := moveSegments k.rcvWnd.toNat k.rcvNxt k.rcvQueue k.rcvBuf
  { k with rcvNxt, rcvQueue, rcvBuf }

/-- A message, into a buffer of the size `cap`. -/
def recv (cap : Nat) : Kcp × KcpResult Bytes :=
  if k.closeState ≠ .no then (k, .error .connectionReset)
  else if k.rcvQueue.isEmpty then (k, .error .recvQueueEmpty)
  else match k.peeksize with
  | .error e => (k, .error e)
  | .ok size =>
    if cap < size then (k, .error .userBufTooSmall)
    else
      let recover : Bool := k.rcvWnd.toNat ≤ k.rcvQueue.length
      let (data, rcvQueue) := popMessage k.rcvQueue
      let k := moveBuf { k with rcvQueue }
      if k.rcvQueue.length < k.rcvWnd.toNat ∧ recover then
        ({ k with probe := k.probe ||| askTell }, .ok data)
      else (k, .ok data)

/-! ## Sending -/

/-- The segments of a message, with the number of those behind each. -/
def fragments (mss : Nat) (stream : Bool) : Nat → Bytes → List KcpSegment
  | 0, _ => []
  | n + 1, buf =>
    { data := buf.take mss, frg := if stream then 0 else .ofNat n } ::
      fragments mss stream n (buf.drop mss)

/-- The number of segments of a message. -/
def segmentCount (mss : Nat) (buf : Bytes) : Nat :=
  if buf.length ≤ mss then 1 else (buf.length + mss - 1) / mss

/-- In stream mode the last segment is filled up first. -/
def extendLast (buf : Bytes) : Kcp × Bytes :=
  match k.sndQueue.getLast? with
  | none => (k, buf)
  | some old =>
    if old.data.length < k.mss.toNat then
      let extend := min buf.length (k.mss.toNat - old.data.length)
      let old := { old with data := old.data ++ buf.take extend, frg := 0 }
      ({ k with sndQueue := k.sndQueue.dropLast ++ [old] }, buf.drop extend)
    else (k, buf)

def send (buf : Bytes) : Kcp × KcpResult Nat :=
  if k.closeState ≠ .no then (k, .error .connectionReset)
  else
    let (k, rest) := if k.stream then k.extendLast buf else (k, buf)
    if k.stream ∧ !k.sndQueue.isEmpty ∧ rest = [] then (k, .ok buf.length)
    else
      let count := segmentCount k.mss.toNat rest
      if wndRcv ≤ count then (k, .error .userBufTooBig)
      else
        ({ k with sndQueue := k.sndQueue ++ fragments k.mss.toNat k.stream count rest },
          .ok buf.length)

def waitSnd : Nat := k.sndBuf.length + k.sndQueue.length

/-! ## Segments that arrive -/

def updateAck (rtt : UInt32) : Kcp :=
  let k :=
    if k.rxSrtt = 0 then { k with rxSrtt := rtt, rxRttval := rtt / 2 }
    else
      let delta := if k.rxSrtt < rtt then rtt - k.rxSrtt else k.rxSrtt - rtt
      let rxSrtt := (7 * k.rxSrtt + rtt) / 8
      let rxRttval := (3 * k.rxRttval + delta) / 4
      { k with rxRttval, rxSrtt := if rxSrtt < 1 then 1 else rxSrtt }
  let rto := k.rxSrtt + max k.interval (4 * k.rxRttval)
  { k with rxRto := min (max k.rxMinrto rto) rtoMax }

def shrinkBuf : Kcp :=
  { k with sndUna := match k.sndBuf with
    | seg :: _ => seg.sn
    | [] => k.sndNxt }

/-- The number is one of a segment that is on the way. -/
def onTheWay (sn : UInt32) : Bool := 0 ≤ timediff sn k.sndUna && timediff sn k.sndNxt < 0

def removeAcked (sn : UInt32) : List KcpSegment → List KcpSegment
  | [] => []
  | seg :: buf =>
    if sn = seg.sn then removeAcked sn buf
    else if sn < seg.sn then seg :: buf
    else seg :: removeAcked sn buf

def parseAck (sn : UInt32) : Kcp :=
  if k.onTheWay sn then { k with sndBuf := removeAcked sn k.sndBuf } else k

def parseUna (una : UInt32) : Kcp :=
  { k with sndBuf := k.sndBuf.dropWhile fun seg => 0 < timediff una seg.sn }

def countFastack (sn : UInt32) : List KcpSegment → List KcpSegment
  | [] => []
  | seg :: buf =>
    if timediff sn seg.sn < 0 then seg :: buf
    else if sn ≠ seg.sn then { seg with fastack := seg.fastack + 1 } :: countFastack sn buf
    else seg :: countFastack sn buf

def parseFastack (sn : UInt32) : Kcp :=
  if k.onTheWay sn then { k with sndBuf := countFastack sn k.sndBuf } else k

def ackPush (sn ts : UInt32) : Kcp := { k with acklist := k.acklist ++ [(sn, ts)] }

/-- The segment goes to its place in the buffer, which is given from its end on. One that is there
already stays. -/
def insertRev (new : KcpSegment) : List KcpSegment → List KcpSegment
  | [] => [new]
  | seg :: rest =>
    if seg.sn = new.sn then seg :: rest
    else if 0 < timediff new.sn seg.sn then new :: seg :: rest
    else seg :: insertRev new rest

def parseData (new : KcpSegment) : Kcp :=
  if 0 ≤ timediff new.sn (k.rcvNxt + k.rcvWnd.toUInt32) ∨ timediff new.sn k.rcvNxt < 0 then k
  else moveBuf { k with rcvBuf := (insertRev new k.rcvBuf.reverse).reverse }

def inputPush (seg : KcpSegment) : Kcp :=
  if timediff seg.sn (k.rcvNxt + k.rcvWnd.toUInt32) < 0 then
    let k := k.ackPush seg.sn seg.ts
    if 0 ≤ timediff seg.sn k.rcvNxt then k.parseData seg else k
  else k

def inputAck (seg : KcpSegment) : Kcp :=
  let rtt := timediff k.current seg.ts
  let k := if 0 ≤ rtt then k.updateAck (.ofNat rtt.toNat) else k
  (k.parseAck seg.sn).shrinkBuf

def inputCls : Kcp :=
  let k := if k.closeState = .wait then { k with closeState := .yes } else k
  if k.closeState = .no then { k with closeState := .wrcv } else k

/-- The greatest number that is acknowledged in a packet. -/
def maxAck (sn : UInt32) : Option UInt32 → UInt32
  | none => sn
  | some max => if 0 < timediff sn max then sn else max

def knownCmd (cmd : UInt8) : Bool :=
  cmd == cmdPush || cmd == cmdAck || cmd == cmdWask || cmd == cmdWins || cmd == cmdCls ||
    cmd == cmdClf

/-- A segment with a known command. -/
def inputSegment (seg : KcpSegment) (acked : Option UInt32) : Kcp × Option UInt32 :=
  let k := (({ k with rmtWnd := seg.wnd }).parseUna seg.una).shrinkBuf
  if seg.cmd = cmdAck then (k.inputAck seg, some (maxAck seg.sn acked))
  else if seg.cmd = cmdPush then (k.inputPush seg, acked)
  else if seg.cmd = cmdWask then ({ k with probe := k.probe ||| askTell }, acked)
  else if seg.cmd = cmdCls then (k.inputCls, acked)
  else if seg.cmd = cmdClf then ({ k with closeState := .yes }, acked)
  else (k, acked)

/-- The header at the front of `buf`, and the length it gives for the data. -/
def header (buf : Bytes) : KcpSegment × Nat :=
  ({ conv := .ofNat (fromLeBytes (buf.take 4))
     cmd := buf.getD 4 0
     frg := buf.getD 5 0
     wnd := .ofNat (fromLeBytes ((buf.drop 6).take 2))
     ts := .ofNat (fromLeBytes ((buf.drop 8).take 4))
     sn := .ofNat (fromLeBytes ((buf.drop 12).take 4))
     una := .ofNat (fromLeBytes ((buf.drop 16).take 4)) },
    fromLeBytes ((buf.drop 20).take 4))

/-- The loop of `input`: it ends with the bytes that are too few for a header. Every turn takes a
header out of `buf`, so its length is enough for `fuel`. -/
def inputLoop : Nat → Kcp → Option UInt32 → Bytes → Kcp × KcpResult (Option UInt32 × Bytes)
  | 0, k, acked, buf => (k, .ok (acked, buf))
  | fuel + 1, k, acked, buf =>
    if buf.length < overhead then (k, .ok (acked, buf))
    else
      let (seg, len) := header buf
      let rest := buf.drop overhead
      if seg.conv ≠ k.conv ∧ !k.inputConv then
        (k, .error (.convInconsistent k.conv seg.conv))
      else
        let k := if seg.conv ≠ k.conv then { k with conv := seg.conv, inputConv := false } else k
        if rest.length < len then (k, .error (.invalidSegmentDataSize len rest.length))
        else if !knownCmd seg.cmd then (k, .error (.unsupportedCmd seg.cmd))
        else
          let (k, acked) := k.inputSegment { seg with data := rest.take len } acked
          inputLoop fuel k acked (rest.drop len)

def growCwnd : Kcp :=
  if k.cwnd < k.ssthresh then { k with cwnd := k.cwnd + 1, incr := k.incr + k.mss }
  else
    let incr := if k.incr < k.mss then k.mss else k.incr
    let incr := incr + k.mss * k.mss / incr + k.mss / 16
    if (k.cwnd + 1).toUInt32 * k.mss ≤ incr then { k with cwnd := k.cwnd + 1, incr }
    else { k with incr }

def capCwnd : Kcp :=
  if k.rmtWnd < k.cwnd then { k with cwnd := k.rmtWnd, incr := k.rmtWnd.toUInt32 * k.mss } else k

/-- The congestion window grows, up to the window of the peer. -/
def grow : Kcp := k.growCwnd.capCwnd

/-- A packet arrives. The result is the number of bytes that were taken. -/
def input (buf : Bytes) : Kcp × KcpResult Nat :=
  if buf.length < overhead then (k, .error (.invalidSegmentSize buf.length))
  else match inputLoop buf.length k none buf with
  | (k', .error e) => (k', .error e)
  | (k', .ok (acked, rest)) =>
    let k' := match acked with
      | some sn => k'.parseFastack sn
      | none => k'
    (if k.sndUna < k'.sndUna ∧ k'.cwnd < k'.rmtWnd then k'.grow else k',
      .ok (buf.length - rest.length))

/-! ## Closing -/

def forceClose (clock : Nat) : Kcp := { k with closeState := .yes, closeLast := clock }

def close (clock : Nat) : Kcp × KcpResult Unit :=
  if k.closeState = .no then ({ k with closeState := .wsnd, closeLast := clock }, .ok ())
  else (k, .error .connectionReset)

def closed : Bool := k.closeState == .yes

def isDeadLink : Bool := k.state != 0

end Kcp
end Fuso.ThirdParty

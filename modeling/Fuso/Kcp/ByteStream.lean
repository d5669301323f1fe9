import Fuso.Kcp.Graceful

/-!
# A KCP session as a byte stream

The receive side is a queue of messages, and a stream reads bytes. `poll_read` takes one message at
a time, and what does not fit into its buffer waits in `kbuf` for the next call. `Reads` says what
was delivered, what waits there and what is queued; `read_lossless` that nothing is lost, repeated
or held back, whatever the sizes of the messages and of the buffers.
-/

namespace Fuso.ThirdParty

/-- A complete message: the number of a segment is how many are behind it. -/
structure Message where
  segs : List KcpSegment
  frgs : segs.map (·.frg.toNat) = (List.range segs.length).reverse
  nonempty : bytes segs ≠ []

namespace Message

def data (m : Message) : Bytes := bytes m.segs

end Message

namespace Kcp

theorem frg_of_countdown {s : KcpSegment} {segs : List KcpSegment}
    (h : (s :: segs).map (·.frg.toNat) = (List.range (s :: segs).length).reverse) :
    s.frg.toNat = segs.length ∧ segs.map (·.frg.toNat) = (List.range segs.length).reverse := by
  rw [List.length_cons, List.range_succ, List.reverse_concat, List.map_cons] at h
  exact List.cons.inj h

/-- A message at the front is taken whole. -/
theorem popMessage_append {segs queue : List KcpSegment} (hne : segs ≠ [])
    (h : segs.map (·.frg.toNat) = (List.range segs.length).reverse) :
    popMessage (segs ++ queue) = (bytes segs, queue) := by
  induction segs with
  | nil => exact absurd rfl hne
  | cons s segs ih =>
    obtain ⟨hfrg, hrest⟩ := frg_of_countdown h
    rw [List.cons_append, popMessage, bytes_cons]
    cases segs with
    | nil =>
      have hzero : s.frg = 0 := UInt8.toNat.inj hfrg
      rw [if_pos hzero]
      simp
    | cons s' segs =>
      have hpos : s.frg ≠ 0 := by
        rintro hzero
        rw [hzero] at hfrg
        cases hfrg
      rw [if_neg hpos, ih (List.cons_ne_nil _ _) hrest]

variable {k : Kcp} {m : Message} {queue : List KcpSegment}

theorem peeksize_message (h : k.rcvQueue = m.segs ++ queue) : k.peeksize = .ok m.data.length := by
  obtain ⟨segs, hfrgs, hnonempty⟩ := m
  cases segs with
  | nil => exact absurd rfl hnonempty
  | cons s segs =>
    obtain ⟨hfrg, -⟩ := frg_of_countdown hfrgs
    have hpop : popMessage (s :: (segs ++ queue)) = (bytes (s :: segs), queue) :=
      popMessage_append (List.cons_ne_nil _ _) hfrgs
    have hlen := length_popMessage (s :: (segs ++ queue))
    have hqueue : k.rcvQueue = s :: (segs ++ queue) := h
    rw [hpop] at hlen
    simp only [peeksize, hqueue]
    split
    · next hzero =>
      rw [hzero] at hfrg
      obtain rfl : segs = [] := List.length_eq_zero_iff.1 hfrg.symm
      simp [Message.data]
    · have hsucc : (s.frg + 1).toNat ≤ s.frg.toNat + 1 := by
        rw [UInt8.toNat_add]
        exact Nat.mod_le _ _
      have hthere : ¬ (s :: (segs ++ queue)).length < (s.frg + 1).toNat := by
        rw [List.length_cons, List.length_append]
        omega
      rw [if_neg hthere, Message.data, hlen]

/-- No segment waits to be moved to the queue. -/
def Settled (k : Kcp) : Prop := ∀ seg ∈ k.rcvBuf.head?, seg.sn ≠ k.rcvNxt

theorem Settled.moveBuf (h : Settled k) : k.moveBuf = k := by
  unfold Kcp.moveBuf
  cases hbuf : k.rcvBuf with
  | nil =>
    simp only [moveSegments]
    rw [← hbuf]
  | cons seg buf =>
    have hnot : ¬ (seg.sn = k.rcvNxt ∧ k.rcvQueue.length < k.rcvWnd.toNat) :=
      fun hnext => h seg (by rw [hbuf]; rfl) hnext.1
    simp only [moveSegments, if_neg hnot]
    rw [← hbuf]

theorem recv_message (h : k.rcvQueue = m.segs ++ queue) (hopen : k.closeState = .no)
    (hsettled : k.Settled) (hcap : m.data.length ≤ cap) :
    ∃ k', k.recv cap = (k', .ok m.data) ∧ k'.rcvQueue = queue ∧ k'.closeState = .no ∧
      k'.Settled := by
  have hne : m.segs ≠ [] := fun hnil => m.nonempty (by rw [hnil]; rfl)
  have hpop : popMessage k.rcvQueue = (m.data, queue) := by
    rw [h]
    exact popMessage_append hne m.frgs
  have hmove : moveBuf { k with rcvQueue := queue } = { k with rcvQueue := queue } :=
    Settled.moveBuf hsettled
  obtain ⟨k', hrecv, hstanding⟩ := recv_ok hopen (peeksize_message h) hcap
  rw [hpop, hmove] at hstanding
  rw [hpop] at hrecv
  have hbuf : k'.rcvBuf = k.rcvBuf := congrArg Standing.rcvBuf hstanding
  have hnxt : k'.rcvNxt = k.rcvNxt := congrArg Standing.rcvNxt hstanding
  refine ⟨k', hrecv, congrArg Standing.rcvQueue hstanding,
    (congrArg Standing.closeState hstanding).trans hopen, ?_⟩
  rw [Settled, hbuf, hnxt]
  exact hsettled

/-- A buffer that is too small is so for a message, which is there and is taken next. -/
theorem recv_userBufTooSmall {k' : Kcp} (h : k.recv cap = (k', .error .userBufTooSmall)) :
    ∃ size k'' data, k'.peeksize = .ok size ∧ cap < size ∧ k'.recv size = (k'', .ok data) ∧
      data.length = size := by
  have hopen : k.closeState = .no := by
    by_contra hclosed
    rw [recv_closed hclosed] at h
    cases h
  cases hpeek : k.peeksize with
  | error e => rcases recv_waits cap hopen hpeek with hrecv | hrecv <;> cases hrecv.symm.trans h
  | ok size =>
    rcases Nat.lt_or_ge cap size with hcap | hcap
    · cases (recv_too_small hopen hpeek hcap).symm.trans h
      obtain ⟨k'', hrecv, -⟩ := recv_ok hopen hpeek (Nat.le_refl size)
      exact ⟨size, k'', _, hpeek, hcap, hrecv, (peeksize_ok hpeek).2⟩
    · obtain ⟨k'', hrecv, -⟩ := recv_ok hopen hpeek hcap
      cases hrecv.symm.trans h

end Kcp
end Fuso.ThirdParty

namespace Fuso.Kcp
open ThirdParty

/-- A session, the messages that arrived for it, and the bytes that were read from it. -/
structure ByteStream where
  core : KcpCore
  arrived : List Message
  delivered : Bytes

namespace ByteStream

/-- A message arrives, or the stream is read into a buffer of the size `cap`. -/
inductive Event where
  | arrive (m : Message)
  | read (cx : Waker) (cap : Nat) (hcap : 1 ≤ cap)

def step : Event → ByteStream → ByteStream
  | .arrive m, s => { s with
    core.kcp.rcvQueue := s.core.kcp.rcvQueue ++ m.segs
    arrived := s.arrived ++ [m] }
  | .read cx cap _, s =>
    let (core, buf, _) := s.core.pollRead cx (.new cap)
    { s with core, delivered := s.delivered ++ buf.filled }

/-- The bytes of the messages. -/
def dataOf (messages : List Message) : Bytes := messages.flatMap (·.data)

/-- An open session that nothing has arrived for. -/
structure Fresh (c : KcpCore) : Prop where
  opened : c.kcp.closeState = .no
  settled : c.kcp.Settled
  queue : c.kcp.rcvQueue = []
  kbuf : c.kbuf.contents = []

/-- Of the messages that arrived some were taken and the others are queued. What was delivered and
what waits in `kbuf` are the bytes of those that were taken. -/
structure Reads (s : ByteStream) (taken queued : List Message) : Prop where
  arrived : s.arrived = taken ++ queued
  queue : s.core.kcp.rcvQueue = queued.flatMap (·.segs)
  bytes : s.delivered ++ s.core.kbuf.contents = dataOf taken
  opened : s.core.kcp.closeState = .no
  settled : s.core.kcp.Settled

variable {s : ByteStream} {taken queued : List Message}

theorem Reads.arrive (h : Reads s taken queued) (m : Message) :
    Reads (step (.arrive m) s) taken (queued ++ [m]) where
  arrived := by simp [step, h.arrived]
  queue := by simp [step, h.queue]
  bytes := h.bytes
  opened := h.opened
  settled := h.settled

/-! ## What a read does -/

/-- A message that fits. -/
theorem pollRead_whole {c : KcpCore} (cx : Waker) (h : c.kbuf.contents = [])
    (hrecv : c.kcp.recv cap = (k', .ok data)) :
    c.pollRead cx (.new cap) =
      ({ c with kcp := k' }, (ReadBuf.new cap).put data, .ready (.ok data.length)) := by
  have hempty := c.kbuf.isEmpty_iff.2 h
  simp only [KcpCore.pollRead, hempty, Bool.not_true, Bool.false_eq_true, if_false,
    ReadBuf.remaining_new, hrecv]

/-- A message that does not. -/
theorem pollRead_part {c : KcpCore} (cx : Waker) (h : c.kbuf.contents = [])
    (hsmall : c.kcp.recv cap = (c.kcp, .error .userBufTooSmall))
    (hpeek : c.kcp.peeksize = .ok size) (hrecv : c.kcp.recv size = (k', .ok data)) :
    c.pollRead cx (.new cap) =
      ({ c with kcp := k', kbuf := c.kbuf.pushBack (data.drop cap) },
        (ReadBuf.new cap).put (data.take cap), .ready (.ok cap)) := by
  have hempty := c.kbuf.isEmpty_iff.2 h
  simp only [KcpCore.pollRead, hempty, Bool.not_true, Bool.false_eq_true, if_false,
    ReadBuf.remaining_new, hsmall, KcpCore.readPart, hpeek, hrecv]

/-- A read that is pending has found nothing, and one that is ready returns how many bytes it has
read, at least one. -/
inductive Answers (s : ByteStream) (buf : ReadBuf) : Poll (KcpResult Nat) → Prop where
  | pending (h : s.delivered = dataOf s.arrived) (hbuf : buf.filled = []) : Answers s buf .pending
  | ready (h : 1 ≤ buf.filled.length) : Answers s buf (.ready (.ok buf.filled.length))

theorem step_read {c' : KcpCore} (hread : s.core.pollRead cx (.new cap) = (c', buf, r))
    (hcap : 1 ≤ cap) : step (.read cx cap hcap) s =
      { s with core := c', delivered := s.delivered ++ buf.filled } := by
  simp only [step, hread]

theorem dataOf_concat (messages : List Message) (m : Message) :
    dataOf (messages ++ [m]) = dataOf messages ++ m.data := by
  simp [dataOf]

/-- What waits in `kbuf` is delivered. -/
theorem Reads.read_buffered (h : Reads s taken queued) (cx : Waker) (hcap : 1 ≤ cap)
    (hkbuf : s.core.kbuf.contents ≠ []) :
    Reads (step (.read cx cap hcap) s) taken queued ∧
      Answers s (s.core.pollRead cx (.new cap)).2.1 (s.core.pollRead cx (.new cap)).2.2 := by
  have hread := Transfer.pollRead_buffered cx cap hkbuf
  have hfilled : ((ReadBuf.new cap).put (s.core.kbuf.contents.take cap)).filled =
      s.core.kbuf.contents.take cap := ReadBuf.filled_put (List.length_take_le _ _)
  have hpos := List.length_pos_iff.2 hkbuf
  refine ⟨?_, ?_⟩
  · rw [step_read hread hcap]
    refine ⟨h.arrived, h.queue, ?_, h.opened, h.settled⟩
    simp only [hfilled, Buffer.contents_readToBuffer]
    rw [List.append_assoc]
    exact (congrArg (s.delivered ++ ·) (List.take_append_drop cap _)).trans h.bytes
  · have hready : Answers s ((ReadBuf.new cap).put (s.core.kbuf.contents.take cap))
        (.ready (.ok ((ReadBuf.new cap).put (s.core.kbuf.contents.take cap)).filled.length)) := by
      apply Answers.ready
      rw [hfilled, List.length_take]
      omega
    rw [hread]
    rwa [hfilled] at hready

/-- Without a message a read waits. -/
theorem Reads.read_nothing (h : Reads s taken []) (cx : Waker) (hcap : 1 ≤ cap)
    (hkbuf : s.core.kbuf.contents = []) :
    Reads (step (.read cx cap hcap) s) taken [] ∧
      Answers s (s.core.pollRead cx (.new cap)).2.1 (s.core.pollRead cx (.new cap)).2.2 := by
  have hpeek : s.core.kcp.peeksize = .error .recvQueueEmpty := by
    simp only [Kcp.peeksize, h.queue, List.flatMap_nil]
  have hread := Transfer.pollRead_waits cx cap hkbuf h.opened hpeek
  have hbytes := h.bytes
  refine ⟨?_, ?_⟩
  · rw [step_read hread hcap]
    refine ⟨h.arrived, h.queue, ?_, h.opened, h.settled⟩
    simpa using hbytes
  · rw [hread]
    rw [hkbuf, List.append_nil] at hbytes
    exact .pending (by rw [hbytes, h.arrived, List.append_nil]) rfl

/-- The first message is taken. What does not fit goes to `kbuf`. -/
theorem Reads.read_message (h : Reads s taken (m :: queued)) (cx : Waker) (hcap : 1 ≤ cap)
    (hkbuf : s.core.kbuf.contents = []) :
    Reads (step (.read cx cap hcap) s) (taken ++ [m]) queued ∧
      Answers s (s.core.pollRead cx (.new cap)).2.1 (s.core.pollRead cx (.new cap)).2.2 := by
  have hqueue : s.core.kcp.rcvQueue = m.segs ++ queued.flatMap (·.segs) := h.queue
  have hpeek := Kcp.peeksize_message hqueue
  have harrived : s.arrived = taken ++ [m] ++ queued := by simp [h.arrived]
  have hbytes := h.bytes
  rw [hkbuf, List.append_nil] at hbytes
  have hpos : 1 ≤ m.data.length := List.length_pos_iff.2 m.nonempty
  rcases Nat.lt_or_ge cap m.data.length with hsmall | hfits
  · obtain ⟨k', hrecv, hqueue', hopen', hsettled'⟩ :=
      Kcp.recv_message hqueue h.opened h.settled (Nat.le_refl m.data.length)
    have hread := pollRead_part cx hkbuf (Kcp.recv_too_small h.opened hpeek hsmall) hpeek hrecv
    have hfilled : ((ReadBuf.new cap).put (m.data.take cap)).filled = m.data.take cap :=
      ReadBuf.filled_put (List.length_take_le _ _)
    have hlen : (m.data.take cap).length = cap := by
      rw [List.length_take]
      omega
    refine ⟨?_, ?_⟩
    · rw [step_read hread hcap]
      refine ⟨harrived, hqueue', ?_, hopen', hsettled'⟩
      simp only [hfilled, Buffer.contents_pushBack, hkbuf, List.nil_append, List.append_assoc,
        List.take_append_drop]
      rw [hbytes, dataOf_concat]
    · have hready : Answers s ((ReadBuf.new cap).put (m.data.take cap))
          (.ready (.ok ((ReadBuf.new cap).put (m.data.take cap)).filled.length)) := by
        apply Answers.ready
        rw [hfilled, hlen]
        exact hcap
      rw [hread]
      rwa [hfilled, hlen] at hready
  · obtain ⟨k', hrecv, hqueue', hopen', hsettled'⟩ :=
      Kcp.recv_message hqueue h.opened h.settled hfits
    have hread := pollRead_whole cx hkbuf hrecv
    have hfilled : ((ReadBuf.new cap).put m.data).filled = m.data := ReadBuf.filled_put hfits
    refine ⟨?_, ?_⟩
    · rw [step_read hread hcap]
      refine ⟨harrived, hqueue', ?_, hopen', hsettled'⟩
      simp only [hfilled, hkbuf, List.append_nil]
      rw [hbytes, dataOf_concat]
    · have hready : Answers s ((ReadBuf.new cap).put m.data)
          (.ready (.ok ((ReadBuf.new cap).put m.data).filled.length)) := by
        apply Answers.ready
        rw [hfilled]
        exact hpos
      rw [hread]
      rwa [hfilled] at hready

theorem Reads.read (h : Reads s taken queued) (cx : Waker) (hcap : 1 ≤ cap) :
    (∃ taken' queued', Reads (step (.read cx cap hcap) s) taken' queued') ∧
      Answers s (s.core.pollRead cx (.new cap)).2.1 (s.core.pollRead cx (.new cap)).2.2 := by
  by_cases hkbuf : s.core.kbuf.contents = []
  · cases queued with
    | nil =>
      obtain ⟨hreads, hanswers⟩ := h.read_nothing cx hcap hkbuf
      exact ⟨⟨_, _, hreads⟩, hanswers⟩
    | cons m queued =>
      obtain ⟨hreads, hanswers⟩ := h.read_message cx hcap hkbuf
      exact ⟨⟨_, _, hreads⟩, hanswers⟩
  · obtain ⟨hreads, hanswers⟩ := h.read_buffered cx hcap hkbuf
    exact ⟨⟨_, _, hreads⟩, hanswers⟩

/-! ## Runs -/

theorem Fresh.reads {c : KcpCore} (h : Fresh c) : Reads ⟨c, [], []⟩ [] [] where
  arrived := rfl
  queue := h.queue
  bytes := h.kbuf
  opened := h.opened
  settled := h.settled

/-- However messages arrive and the stream is read, what was delivered is a prefix of the bytes of
the messages that arrived, each of which was taken once or is queued. A read waits only when all
bytes were delivered and returns how many it has read else, and what it unwraps is there. -/
theorem read_lossless {c : KcpCore} (h : Fresh c) (events : List Event) :
    let s := after step ⟨c, [], []⟩ events
    s.delivered <+: dataOf s.arrived ∧
      (∃ taken queued, s.arrived = taken ++ queued ∧
        s.core.kcp.rcvQueue = queued.flatMap (·.segs) ∧
        s.delivered ++ s.core.kbuf.contents = dataOf taken) ∧
      ∀ cx cap, 1 ≤ cap →
        Answers s (s.core.pollRead cx (.new cap)).2.1 (s.core.pollRead cx (.new cap)).2.2 ∧
        ∀ k', s.core.kcp.recv cap = (k', .error .userBufTooSmall) →
          ∃ size k'' data, k'.peeksize = .ok size ∧ cap < size ∧
            k'.recv size = (k'', .ok data) ∧ data.length = size := by
  have hstep : ∀ s e, (∃ taken queued, Reads s taken queued) →
      ∃ taken queued, Reads (step e s) taken queued := by
    rintro s e ⟨taken, queued, hreads⟩
    cases e with
    | arrive m => exact ⟨_, _, hreads.arrive m⟩
    | read cx cap hcap => exact (hreads.read cx hcap).1
  have hrun : ∃ taken queued, Reads (after step ⟨c, [], []⟩ events) taken queued :=
    after_invariant hstep ⟨_, _, h.reads⟩
  obtain ⟨taken, queued, hreads⟩ := hrun
  refine ⟨?_, ⟨taken, queued, hreads.arrived, hreads.queue, hreads.bytes⟩, ?_⟩
  · rw [hreads.arrived, dataOf, List.flatMap_append, ← dataOf, ← hreads.bytes, List.append_assoc]
    exact List.prefix_append _ _
  · intro cx cap hcap
    exact ⟨(hreads.read cx hcap).2, fun k' hsmall => Kcp.recv_userBufTooSmall hsmall⟩

theorem fresh_new (conv : UInt32) (clock : Nat) : Fresh (KcpCore.new conv clock) where
  opened := rfl
  settled := fun seg hseg => by cases hseg
  queue := rfl
  kbuf := rfl

/-- A message of five bytes in two segments. -/
def twoSegments : Message :=
  ⟨[{ frg := 1, data := [1, 2, 3] }, { data := [4, 5] }], by decide, by decide⟩

/-- It is read in two parts. -/
theorem read_lossless_parts :
    let s := after step ⟨.new 7 0, [], []⟩
      [.arrive twoSegments, .read 1 3 (by decide), .read 1 3 (by decide)]
    s.delivered <+: dataOf s.arrived ∧ s.delivered = [1, 2, 3, 4, 5] :=
  ⟨(read_lossless (fresh_new 7 0)
    [.arrive twoSegments, .read 1 3 (by decide), .read 1 3 (by decide)]).1, by decide⟩

end ByteStream
end Fuso.Kcp

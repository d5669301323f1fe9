import Fuso.Kcp.Arrival
import Mathlib.Data.List.Perm.Subperm

/-!
# The receive window

The segments of an endpoint are numbered from 0 on. A segment carries its number modulo `2 ^ 32`,
and the receiver takes those of the window that begins with the next one.
-/

namespace Fuso.ThirdParty

/-- The distance from the number `nxt` on to the one that is carried as `sn`. -/
def offset (nxt : Nat) (sn : UInt32) : Nat := (sn - .ofNat nxt).toNat

theorem offset_add (h : m ≤ offset nxt sn) : offset (nxt + m) sn = offset nxt sn - m := by
  unfold offset at *
  simp only [UInt32.toNat_sub, UInt32.toNat_ofNat'] at *
  omega

theorem timediff_eq (later earlier : UInt32) :
    timediff later earlier = ((later.toNat : Int) - earlier.toNat).bmod (2 ^ 32) := by
  have := earlier.toNat_lt
  rw [timediff, BitVec.toInt_eq_toNat_bmod, UInt32.toNat_toBitVec, UInt32.toNat_sub,
    Int.bmod_def, Int.bmod_def]
  omega

theorem timediff_offset (ha : offset nxt a < 1024) (hb : offset nxt b < 1024) :
    timediff a b = (offset nxt a : Int) - offset nxt b := by
  rw [timediff_eq]
  unfold offset at *
  simp only [UInt32.toNat_sub, UInt32.toNat_ofNat', Int.bmod_def] at *
  omega

theorem in_window_iff : timediff sn (.ofNat nxt + 1024) < 0 ∧ 0 ≤ timediff sn (.ofNat nxt) ↔
    offset nxt sn < 1024 := by
  rw [timediff_eq, timediff_eq]
  unfold offset
  have := sn.toNat_lt
  simp only [UInt32.toNat_sub, UInt32.toNat_add, UInt32.toNat_ofNat', UInt32.reduceToNat,
    Int.bmod_def]
  omega

theorem offset_inj (h : offset nxt a = offset nxt b) : a = b := by
  have := a.toNat_lt
  have := b.toNat_lt
  unfold offset at h
  rw [← UInt32.toNat_inj]
  simp only [UInt32.toNat_sub, UInt32.toNat_ofNat'] at h
  omega

/-- The bytes that segments carry. -/
def bytes (queue : List KcpSegment) : Bytes := queue.flatMap (·.data)

@[simp] theorem bytes_nil : bytes [] = [] := rfl

@[simp] theorem bytes_cons : bytes (s :: queue) = s.data ++ bytes queue := List.flatMap_cons

@[simp] theorem bytes_append : bytes (queue ++ queue') = bytes queue ++ bytes queue' :=
  List.flatMap_append

section
variable {segs buf : List KcpSegment} {nxt : Nat}

/-- The segment is in the window from `nxt` on, and has the data of the one with its number. -/
def Genuine (segs : List KcpSegment) (nxt : Nat) (s : KcpSegment) : Prop :=
  offset nxt s.sn < 1024 ∧ segs[nxt + offset nxt s.sn]?.map (·.data) = some s.data

/-- The segments of a receive buffer, in order. -/
structure Buffered (segs : List KcpSegment) (nxt : Nat) (buf : List KcpSegment) : Prop where
  genuine : ∀ s ∈ buf, Genuine segs nxt s
  sorted : buf.Pairwise fun s s' => offset nxt s.sn < offset nxt s'.sn

theorem Buffered.length_le (h : Buffered segs nxt buf) : buf.length ≤ 1024 := by
  have hnodup : (buf.map (offset nxt ·.sn)).Nodup :=
    (List.pairwise_map.2 h.sorted).imp Nat.ne_of_lt
  have hsub : buf.map (offset nxt ·.sn) ⊆ List.range 1024 := fun i hi => by
    obtain ⟨s, hs, rfl⟩ := List.mem_map.1 hi
    exact List.mem_range.2 (h.genuine s hs).1
  simpa using (List.subperm_of_subset hnodup hsub).length_le

/-- The window moves on behind the next segment. -/
theorem Buffered.tail (h : Buffered segs nxt (s :: buf)) (hs : s.sn = .ofNat nxt) :
    nxt < segs.length ∧ bytes (segs.take (nxt + 1)) = bytes (segs.take nxt) ++ s.data ∧
      Buffered segs (nxt + 1) buf := by
  have hoff : offset nxt s.sn = 0 := by
    rw [hs]
    unfold offset
    simp
  obtain ⟨seg, hseg, hdata⟩ : ∃ seg, segs[nxt]? = some seg ∧ seg.data = s.data := by
    simpa [Genuine, hoff] using (h.genuine s List.mem_cons_self).2
  obtain ⟨hlt, rfl⟩ := List.getElem?_eq_some_iff.1 hseg
  refine ⟨hlt, ?_, fun s' hs' => ?_, ?_⟩
  · rw [List.take_succ_eq_append_getElem hlt, bytes_append, ← hdata]
    simp
  · obtain ⟨hlt, hsome⟩ := h.genuine s' (List.mem_cons_of_mem _ hs')
    have hpos : offset nxt s.sn < offset nxt s'.sn := List.rel_of_pairwise_cons h.sorted hs'
    have hone : 1 ≤ offset nxt s'.sn := by omega
    rw [Genuine, offset_add hone, show nxt + 1 + (offset nxt s'.sn - 1) = nxt + offset nxt s'.sn by
      omega]
    exact ⟨by omega, hsome⟩
  · refine h.sorted.of_cons.imp_of_mem fun {a b} ha hb hab => ?_
    have hpos : offset nxt s.sn < offset nxt a.sn := List.rel_of_pairwise_cons h.sorted ha
    rw [offset_add (by omega), offset_add (by omega)]
    omega

theorem moveSegments_spec (wnd : Nat) {done : Bytes} {queue : List KcpSegment}
    (h : Buffered segs nxt buf) (hle : nxt ≤ segs.length)
    (hqueue : done ++ bytes queue = bytes (segs.take nxt)) :
    ∃ m queue' buf',
      Kcp.moveSegments wnd (.ofNat nxt) queue buf = (.ofNat (nxt + m), queue', buf') ∧
      m ≤ buf.length ∧ nxt + m ≤ segs.length ∧
      done ++ bytes queue' = bytes (segs.take (nxt + m)) ∧ Buffered segs (nxt + m) buf' ∧
      bytes queue' ++ bytes buf' = bytes queue ++ bytes buf := by
  induction buf generalizing nxt queue with
  | nil => exact ⟨0, queue, [], rfl, Nat.le_refl 0, hle, hqueue, h, rfl⟩
  | cons s buf ih =>
    unfold Kcp.moveSegments
    split
    · next hs =>
      obtain ⟨hlt, htake, htail⟩ := h.tail hs.1
      have hqueue' : done ++ bytes (queue ++ [s]) = bytes (segs.take (nxt + 1)) := by
        rw [htake, ← hqueue]
        simp
      obtain ⟨m, queue', buf', hmove, hm, hle', hdone, hbuf, hbytes⟩ := ih htail hlt hqueue'
      refine ⟨m + 1, queue', buf', ?_, by simpa using hm, by omega, ?_, ?_, ?_⟩
      · rw [Nat.add_comm m, ← Nat.add_assoc, ← hmove, UInt32.ofNat_add]
        rfl
      · rwa [Nat.add_comm m, ← Nat.add_assoc]
      · rwa [Nat.add_comm m, ← Nat.add_assoc]
      · rw [hbytes]
        simp
    · exact ⟨0, queue, s :: buf, rfl, Nat.zero_le _, hle, hqueue, h, rfl⟩

theorem insertRev_sorted {new : KcpSegment} (hnew : offset nxt new.sn < 1024)
    (hbuf : ∀ s ∈ buf, offset nxt s.sn < 1024)
    (h : buf.Pairwise fun s s' => offset nxt s'.sn < offset nxt s.sn) :
    (Kcp.insertRev new buf).Pairwise (fun s s' => offset nxt s'.sn < offset nxt s.sn) ∧
      ∀ s ∈ Kcp.insertRev new buf, s = new ∨ s ∈ buf := by
  induction buf with
  | nil => simp [Kcp.insertRev]
  | cons s buf ih =>
    obtain ⟨hsorted, hmem⟩ := ih (fun s hs => hbuf s (List.mem_cons_of_mem _ hs)) h.of_cons
    have hs := hbuf s List.mem_cons_self
    have hall : ∀ s' ∈ buf, offset nxt s'.sn < offset nxt s.sn := fun s' hs' =>
      List.rel_of_pairwise_cons h hs'
    unfold Kcp.insertRev
    split
    · exact ⟨h, fun s' hs' => .inr hs'⟩
    · next hne =>
      have hneq : offset nxt new.sn ≠ offset nxt s.sn := fun heq => hne (offset_inj heq).symm
      rw [timediff_offset hnew hs]
      split
      · next hlt =>
        refine ⟨List.pairwise_cons.2 ⟨fun s' hs' => ?_, h⟩, fun s' hs' => by simpa using hs'⟩
        rcases List.mem_cons.1 hs' with rfl | hs'
        · omega
        · have := hall s' hs'
          omega
      · next hle =>
        refine ⟨List.pairwise_cons.2 ⟨fun s' hs' => ?_, hsorted⟩, fun s' hs' => ?_⟩
        · rcases hmem s' hs' with rfl | hs'
          · omega
          · exact hall s' hs'
        · rcases List.mem_cons.1 hs' with rfl | hs'
          · exact .inr List.mem_cons_self
          · exact (hmem s' hs').imp_right (List.mem_cons_of_mem _)

theorem Buffered.insert {new : KcpSegment} (h : Buffered segs nxt buf)
    (hnew : Genuine segs nxt new) :
    Buffered segs nxt (Kcp.insertRev new buf.reverse).reverse := by
  obtain ⟨hsorted, hmem⟩ := insertRev_sorted hnew.1
    (fun s hs => (h.genuine s (List.mem_reverse.1 hs)).1) (List.pairwise_reverse.2 h.sorted)
  refine ⟨fun s hs => ?_, List.pairwise_reverse.2 hsorted⟩
  rcases hmem s (List.mem_reverse.1 hs) with rfl | hs
  · exact hnew
  · exact h.genuine s (List.mem_reverse.1 hs)

end

namespace Kcp
variable {segs : List KcpSegment} {nxt : Nat} {done : Bytes} {k k' : Kcp}

/-- The bytes that were received and not read. -/
def pending (k : Kcp) : Bytes := bytes k.rcvQueue ++ bytes k.rcvBuf

theorem pending_congr (hk : k'.standing.received.1 = k.standing.received.1) :
    k'.pending = k.pending := by
  have hqueue : k'.rcvQueue = k.rcvQueue := congrArg Standing.rcvQueue hk
  have hbuf : k'.rcvBuf = k.rcvBuf := congrArg Standing.rcvBuf hk
  rw [pending, pending, hqueue, hbuf]

/-- The receiver is in front of the segment `nxt` and has handed out the bytes `done`. -/
structure Holds (segs : List KcpSegment) (nxt : Nat) (done : Bytes) (k : Kcp) : Prop where
  rcvNxt_eq : k.rcvNxt = .ofNat nxt
  rcvWnd_eq : k.rcvWnd = 1024
  nxt_le : nxt ≤ segs.length
  queue : done ++ bytes k.rcvQueue = bytes (segs.take nxt)
  buffered : Buffered segs nxt k.rcvBuf

theorem Holds.congr (h : Holds segs nxt done k)
    (hk : k'.standing.received.1 = k.standing.received.1) : Holds segs nxt done k' := by
  have hqueue : k'.rcvQueue = k.rcvQueue := congrArg Standing.rcvQueue hk
  have hbuf : k'.rcvBuf = k.rcvBuf := congrArg Standing.rcvBuf hk
  exact {
    rcvNxt_eq := (congrArg Standing.rcvNxt hk).trans h.rcvNxt_eq
    rcvWnd_eq := (congrArg Standing.rcvWnd hk).trans h.rcvWnd_eq
    nxt_le := h.nxt_le
    queue := hqueue ▸ h.queue
    buffered := hbuf ▸ h.buffered }

theorem Holds.moveBuf (h : Holds segs nxt done k) :
    ∃ m ≤ 1024, Holds segs (nxt + m) done k.moveBuf ∧ k.moveBuf.pending = k.pending := by
  obtain ⟨m, queue, buf, hmove, hm, hle, hdone, hbuf, hbytes⟩ :=
    moveSegments_spec k.rcvWnd.toNat h.buffered h.nxt_le h.queue
  rw [← h.rcvNxt_eq] at hmove
  have hk : k.moveBuf =
      { k with rcvNxt := .ofNat (nxt + m), rcvQueue := queue, rcvBuf := buf } := by
    unfold Kcp.moveBuf
    rw [hmove]
  rw [hk]
  exact ⟨m, hm.trans h.buffered.length_le, ⟨rfl, h.rcvWnd_eq, hle, hdone, hbuf⟩, hbytes⟩

/-- A segment that arrives is taken when it is in the window. -/
theorem Holds.inputPush (h : Holds segs nxt done k) {seg : KcpSegment}
    (hseg : offset nxt seg.sn < 1024 → Genuine segs nxt seg) :
    ∃ m ≤ 1024, Holds segs (nxt + m) done (k.inputPush seg) := by
  have hwnd : k.rcvNxt + k.rcvWnd.toUInt32 = .ofNat nxt + 1024 := by
    rw [h.rcvNxt_eq, h.rcvWnd_eq]
    rfl
  have hsame : Holds segs nxt done (k.ackPush seg.sn seg.ts) := h.congr rfl
  unfold Kcp.inputPush
  split
  · next hlt =>
    simp only
    split
    · next hge =>
      have hgenuine := hseg (in_window_iff.1 ⟨hwnd ▸ hlt, h.rcvNxt_eq ▸ hge⟩)
      have hinside : ¬ (0 ≤ timediff seg.sn ((k.ackPush seg.sn seg.ts).rcvNxt +
          (k.ackPush seg.sn seg.ts).rcvWnd.toUInt32) ∨
          timediff seg.sn (k.ackPush seg.sn seg.ts).rcvNxt < 0) := by
        rw [not_or, not_le, not_lt]
        exact ⟨hlt, hge⟩
      rw [parseData, if_neg hinside]
      obtain ⟨m, hm, hmove, -⟩ := Holds.moveBuf (k := { k.ackPush seg.sn seg.ts with
        rcvBuf := (insertRev seg (k.ackPush seg.sn seg.ts).rcvBuf.reverse).reverse })
        { hsame with buffered := h.buffered.insert hgenuine }
      exact ⟨m, hm, hmove⟩
    · exact ⟨0, Nat.zero_le _, hsame⟩
  · exact ⟨0, Nat.zero_le _, h⟩

/-! ## Reading -/

theorem bytes_popMessage (queue : List KcpSegment) :
    (popMessage queue).1 ++ bytes (popMessage queue).2 = bytes queue := by
  induction queue with
  | nil => rfl
  | cons s queue ih =>
    unfold popMessage
    split
    · exact bytes_cons.symm
    · rw [bytes_cons, ← ih, List.append_assoc]

theorem length_popMessage (queue : List KcpSegment) :
    (popMessage queue).1.length = messageLen queue := by
  induction queue with
  | nil => rfl
  | cons s queue ih =>
    unfold popMessage messageLen
    split
    · rfl
    · rw [List.length_append, ih]

theorem peeksize_ok (h : k.peeksize = .ok size) :
    k.rcvQueue.isEmpty = false ∧ (popMessage k.rcvQueue).1.length = size := by
  rw [length_popMessage]
  unfold peeksize at h
  split at h
  · cases h
  · next s queue hqueue =>
    rw [hqueue]
    refine ⟨rfl, ?_⟩
    split at h
    · next hfrg =>
      cases h
      exact if_pos hfrg
    · split at h
      · cases h
      · cases h
        rw [hqueue]

/-- The first message is taken when it fits. -/
theorem recv_ok (hopen : k.closeState = .no) (hpeek : k.peeksize = .ok size) (hcap : size ≤ cap) :
    ∃ k' : Kcp, k.recv cap = (k', .ok (popMessage k.rcvQueue).1) ∧
      k'.standing = ({ k with rcvQueue := (popMessage k.rcvQueue).2 } : Kcp).moveBuf.standing := by
  unfold Kcp.recv
  simp only [hopen, ne_eq, not_true_eq_false, if_false, (peeksize_ok hpeek).1, Bool.false_eq_true,
    hpeek, if_neg (Nat.not_lt.2 hcap)]
  split
  · exact ⟨_, rfl, rfl⟩
  · exact ⟨_, rfl, rfl⟩

/-- A message that fits is read. -/
theorem Holds.recv (h : Holds segs nxt done k) (hopen : k.closeState = .no)
    (hpeek : k.peeksize = .ok size) (hcap : size ≤ cap) :
    ∃ k' data, k.recv cap = (k', .ok data) ∧ data.length = size ∧
      data ++ k'.pending = k.pending ∧ k'.closeState = .no ∧ k'.conv = k.conv ∧
      ∃ m ≤ 1024, Holds segs (nxt + m) (done ++ data) k' := by
  have hlen := (peeksize_ok hpeek).2
  have hbytes := bytes_popMessage k.rcvQueue
  have hpop : Holds segs nxt (done ++ (popMessage k.rcvQueue).1)
      { k with rcvQueue := (popMessage k.rcvQueue).2 } :=
    { h with queue := by rw [List.append_assoc, hbytes, h.queue] }
  obtain ⟨m, hm, hmove, hpending⟩ := hpop.moveBuf
  obtain ⟨k', hrecv, hstanding⟩ := recv_ok hopen hpeek hcap
  refine ⟨k', _, hrecv, hlen, ?_, ?_, ?_, m, hm, hmove.congr (congrArg (·.received.1) hstanding)⟩
  · rw [pending_congr (congrArg (·.received.1) hstanding), hpending, pending, pending,
      ← List.append_assoc, hbytes]
  · exact (congrArg Standing.closeState hstanding).trans hopen
  · exact congrArg Standing.conv hstanding

theorem recv_closed (h : k.closeState ≠ .no) : k.recv cap = (k, .error .connectionReset) := if_pos h

/-- Without a whole message a read waits. -/
theorem recv_waits (cap : Nat) (hopen : k.closeState = .no) (hpeek : k.peeksize = .error e) :
    k.recv cap = (k, .error .recvQueueEmpty) ∨ k.recv cap = (k, .error .expectingFragment) := by
  unfold recv
  simp only [hopen, ne_eq, not_true_eq_false, if_false, hpeek]
  split
  · exact .inl rfl
  · next hne =>
    right
    unfold peeksize at hpeek
    split at hpeek
    · next hqueue =>
      rw [hqueue] at hne
      exact absurd rfl hne
    · split at hpeek
      · cases hpeek
      · split at hpeek
        · cases hpeek
          rfl
        · cases hpeek

theorem recv_too_small (hopen : k.closeState = .no) (hpeek : k.peeksize = .ok size)
    (hcap : cap < size) : k.recv cap = (k, .error .userBufTooSmall) := by
  unfold recv
  simp only [hopen, ne_eq, not_true_eq_false, if_false, (peeksize_ok hpeek).1, Bool.false_eq_true,
    hpeek, if_pos hcap]

end Kcp
end Fuso.ThirdParty

import Fuso.Async.Exact
import Fuso.Async.Torn
import Fuso.Compress.Truncated

/-!
# `Lz4Compress` as a stream

`Lz4Stream` is `Lz4Compress` with the library it calls, so that it can be read and written like any
other stream. Over a `Duplex` its reads leave the half alone that is written and its writes the half
that is read, and it is a source of what the blocks hold that have arrived (`Lz4Stream.source`).
-/

namespace Fuso
open Turn Lz4

structure Lz4Stream (lib : Lz4 E D) (S : Type) where
  lz4 : Lz4Compress S E D

namespace Lz4Stream
variable {E D : Type} {lib : Lz4 E D} {S : Type} [AsyncRead S] [AsyncWrite S]

def new (lib : Lz4 E D) (stream : S) : Lz4Stream lib S := ⟨.new lib stream⟩

/-- The turns of a `poll_read` are those of `Lz4Compress.pollInto`. -/
def pollRead (this : Lz4Stream lib S) (buf : ReadBuf) :
    Lz4Stream lib S × ReadBuf × Poll (Result Nat) :=
  match poll (fun m : Lz4Compress S E D => m.readTurn lib buf) 2048 this.lz4 with
  | .again m | .pending m => (⟨m⟩, buf, .pending)
  | .ready m (buf, .ret r) => (⟨m⟩, buf, .ready r)
  | .ready m (buf, .panic) | .ready m (buf, .undefined) => (⟨m⟩, buf, .ready (.error .panic))

/-- Every turn of a `poll_write` but the last compresses a block of the buffer, or writes a byte of
the frame of one, which has no more than 1048. -/
def pollWrite (this : Lz4Stream lib S) (buf : Bytes) : Lz4Stream lib S × Poll (Result Nat) :=
  match poll (fun m : Lz4Compress S E D => m.writeTurn lib buf) (1050 * (buf.length + 1)) this.lz4 with
  | .again m | .pending m => (⟨m⟩, .pending)
  | .ready m (.ret r) => (⟨m⟩, .ready r)
  | .ready m .panic | .ready m .undefined => (⟨m⟩, .ready (.error .panic))

def pollClose (this : Lz4Stream lib S) : Lz4Stream lib S × Poll (Result Unit) :=
  let (lz4Stream, poll) := AsyncWrite.pollClose this.lz4.lz4Stream
  (⟨{ this.lz4 with lz4Stream }⟩, poll)

instance : AsyncRead (Lz4Stream lib S) := ⟨pollRead⟩
instance : AsyncWrite (Lz4Stream lib S) := ⟨pollWrite, pollClose⟩

end Lz4Stream

/-! ## The two halves -/

namespace Lz4Compress
variable {E D : Type} {lib : Lz4 E D}

/-- The half that is written of `m`, and the half that is read of `r`. -/
def withReads (m r : Lz4Compress Duplex E D) : Lz4Compress Duplex E D := { r with
  lz4Stream := { m.lz4Stream with
    incoming := r.lz4Stream.incoming, reads := r.lz4Stream.reads }
  lz4Ebuf := m.lz4Ebuf, lz4EringBuf := m.lz4EringBuf, lz4EringOffset := m.lz4EringOffset
  lz4Woffset := m.lz4Woffset, lz4CompressedOffset := m.lz4CompressedOffset
  lz4CompressMaxBytes := m.lz4CompressMaxBytes, lz4EncodeIns := m.lz4EncodeIns }

variable {m m' : Lz4Compress Duplex E D}

/-- A turn of a `poll_read` leaves the half alone that is written. -/
theorem readTurn_state (m : Lz4Compress Duplex E D) (buf : ReadBuf) :
    (m.readTurn lib buf).state = m.withReads (m.readTurn lib buf).state := by
  simp only [readTurn]
  split
  · rfl
  split
  · rfl
  split
  · rfl
  split
  · simp only [sizeTurn]
    split <;> rfl
  split
  · simp only [decodeTurn]
    split
    · rfl
    · split <;> rfl
  · simp only [fillTurn]
    split
    · rfl
    split
    · next h => rw [Duplex.of_pollRead h]; rfl
    · next h => rw [Duplex.of_pollRead h]; rfl
    · next h =>
      rw [Duplex.of_pollRead h]
      split <;> rfl

/-- A turn of a `poll_write` leaves the half alone that is read. -/
theorem writeTurn_state (m : Lz4Compress Duplex E D) (buf : Bytes) :
    (m.writeTurn lib buf).state = { (m.writeTurn lib buf).state.withReads m with
      lz4CompressMaxBytes := m.lz4CompressMaxBytes } := by
  simp only [writeTurn]
  split
  · rfl
  split
  · simp only [flushTurn]
    split
    · rfl
    split
    · next h => rw [Duplex.of_pollWrite h]; rfl
    · next h => rw [Duplex.of_pollWrite h]; rfl
    · next h =>
      rw [Duplex.of_pollWrite h]
      split
      · rfl
      split
      · rfl
      split <;> rfl
  · simp only [encodeTurn]
    split
    · rfl
    split <;> rfl

end Lz4Compress

namespace Lz4Stream
variable {E D : Type} {lib : Lz4 E D} {this : Lz4Stream lib Duplex}

theorem state_pollRead (this : Lz4Stream lib Duplex) (buf : ReadBuf) :
    (AsyncRead.pollRead this buf).1.lz4 =
      this.lz4.withReads (AsyncRead.pollRead this buf).1.lz4 := by
  have h := poll_state (fun m : Lz4Compress Duplex E D => m.readTurn lib buf)
    (R := fun m m' => m' = m.withReads m') (fun _ => rfl)
    (fun m u m' hu hm' => by rw [hm', hu]; rfl) (fun m => m.readTurn_state buf) 2048 this.lz4
  simp only [AsyncRead.pollRead, pollRead]
  split <;> next hp => rw [hp] at h; exact h

theorem state_pollWrite (this : Lz4Stream lib Duplex) (buf : Bytes) :
    (AsyncWrite.pollWrite this buf).1.lz4 =
      { (AsyncWrite.pollWrite this buf).1.lz4.withReads this.lz4 with
        lz4CompressMaxBytes := this.lz4.lz4CompressMaxBytes } := by
  have h := poll_state (fun m : Lz4Compress Duplex E D => m.writeTurn lib buf)
    (R := fun m m' => m' = { m'.withReads m with lz4CompressMaxBytes := m.lz4CompressMaxBytes })
    (fun _ => rfl) (fun m u m' hu hm' => by rw [hm', hu]; rfl) (fun m => m.writeTurn_state buf)
    (1050 * (buf.length + 1)) this.lz4
  simp only [AsyncWrite.pollWrite, pollWrite]
  split <;> next hp => rw [hp] at h; exact h

end Lz4Stream

/-! ## Reading -/

namespace Lz4Compress
variable {E D : Type} {lib : Lz4 E D}

/-- What a turn puts into a buffer that is fresh it puts behind what is there. -/
theorem readTurn_fresh (m : Lz4Compress Duplex E D) (buf : ReadBuf) :
    m.readTurn lib buf = (m.readTurn lib (.new buf.remaining)).map id buf.behind := by
  have hput : ∀ data : Bytes, data.length ≤ buf.remaining →
      buf.put ((ReadBuf.new buf.remaining).put data).filled = buf.put data := fun data h =>
    congrArg buf.put (ReadBuf.filled_put (b := .new buf.remaining) h)
  have hnil : ∀ e : Exit Nat, buf.behind (.new buf.remaining, e) = (buf, e) :=
    buf.behind_new buf.remaining
  simp only [readTurn, ReadBuf.remaining_new]
  split
  · simp only [map, ReadBuf.behind, Buffer.readToBuffer_fst, hput _ (List.length_take_le _ _)]
    rfl
  split
  · rw [map, hnil]
    rfl
  split
  · rfl
  split
  · simp only [sizeTurn]
    split
    · rw [map, hnil]
      rfl
    · rfl
  split
  · simp only [decodeTurn, ReadBuf.remaining_new]
    generalize m.decompress lib _ _ = call
    obtain ⟨ins, block⟩ := call
    dsimp only
    by_cases hblock : block = []
    · simp only [if_pos hblock]
      rw [map, hnil]
      rfl
    · by_cases hlt : buf.remaining < block.length
      · simp only [hblock, hlt, if_true, if_false]
        simp only [map, ReadBuf.behind, hput _ (List.length_take_le _ _)]
        rfl
      · simp only [hblock, hlt, if_false]
        simp only [map, ReadBuf.behind, hput _ (Nat.le_of_not_lt hlt)]
        rfl
  · simp only [fillTurn]
    split
    · rw [map, hnil]
      rfl
    generalize AsyncRead.pollRead m.lz4Stream _ = answer
    obtain ⟨d, data, _ | ⟨_ | n⟩⟩ := answer
    · rfl
    · dsimp only
      rw [map, hnil]
      rfl
    · dsimp only
      by_cases hn : n = 0
      · simp only [if_pos hn]
        rw [map, hnil]
        rfl
      · simp only [if_neg hn]
        rfl

/-- What is in the buffer when a turn is ready: no more than fits, and as much as the turn reports.
-/
theorem readTurn_ready {m m' : Lz4Compress Duplex E D} {data : ReadBuf} {cap : Nat} {e : Exit Nat}
    (h : m.readTurn lib (.new cap) = .ready m' (data, e)) :
    data.filled.length ≤ cap ∧ ∀ n, e = .ret (.ok n) → n = data.filled.length := by
  have hput : ∀ bytes : Bytes, bytes.length ≤ cap →
      ((ReadBuf.new cap).put bytes).filled.length = bytes.length := fun bytes h =>
    congrArg List.length (ReadBuf.filled_put (b := .new cap) h)
  -- a turn that is ready without a number leaves the buffer empty
  have hnone : ∀ {e : Exit Nat}, (∀ n, e = .ret (.ok n) → n = 0) →
      (ReadBuf.new cap).filled.length ≤ cap ∧
        ∀ n, e = .ret (.ok n) → n = (ReadBuf.new cap).filled.length :=
    fun h => ⟨Nat.zero_le _, h⟩
  have hsome : ∀ {bytes : Bytes} {k : Nat}, bytes.length ≤ cap → k = bytes.length →
      ((ReadBuf.new cap).put bytes).filled.length ≤ cap ∧ ∀ n, (.ret (.ok k) : Exit Nat) =
        .ret (.ok n) → n = ((ReadBuf.new cap).put bytes).filled.length := by
    rintro bytes k hle rfl
    rw [hput bytes hle]
    exact ⟨hle, fun n h => by cases h; rfl⟩
  simp only [readTurn, ReadBuf.remaining_new] at h
  split at h
  · cases h
    rw [Buffer.readToBuffer_fst]
    exact hsome (List.length_take_le _ _) rfl
  split at h
  · cases h
    exact hnone fun n h => by cases h
  split at h
  · cases h
  split at h
  · simp only [sizeTurn] at h
    split at h <;> cases h
    exact hnone fun n h => by cases h
  split at h
  · simp only [decodeTurn, ReadBuf.remaining_new] at h
    generalize m.decompress lib _ _ = call at h
    obtain ⟨ins, block⟩ := call
    by_cases hblock : block = []
    · simp only [hblock, if_true] at h
      cases h
      exact hnone fun n h => by cases h
    · by_cases hlt : cap < block.length
      · simp only [hblock, hlt, if_true, if_false] at h
        cases h
        exact hsome (List.length_take_le _ _) (by rw [List.length_take]; omega)
      · simp only [hblock, hlt, if_false] at h
        cases h
        exact hsome (Nat.le_of_not_lt hlt) rfl
  · simp only [fillTurn] at h
    split at h
    · cases h
      exact hnone fun n h => by cases h
    split at h
    · cases h
    · cases h
      exact hnone fun n h => by cases h
    · split at h
      · cases h
        exact hnone fun n h => by cases h; rfl
      · cases h

/-- A turn with a buffer is the turn with a fresh one of what is left. -/
theorem settle_readTurn (m : Lz4Compress Duplex E D) (buf : ReadBuf) :
    m.readTurn lib buf = (m.readTurn lib (.new buf.remaining)).settle id buf.behind := by
  refine (m.readTurn_fresh buf).trans ?_
  cases m.readTurn lib (.new buf.remaining) <;> rfl

theorem turnInto_eq (cap : Nat) (m : Lz4Compress Duplex E D) :
    turnInto lib cap m = (m.readTurn lib (.new cap)).settle id delivered := by
  rw [turnInto]
  cases m.readTurn lib (.new cap) <;> rfl

end Lz4Compress

namespace Lz4Stream
variable {E D : Type} {lib : Lz4 E D} {this : Lz4Stream lib Duplex} {b : Bytes} {cap : Nat}

/-- A poll with a buffer is the poll with a fresh one of what is left. -/
theorem poll_readTurn (this : Lz4Stream lib Duplex) (buf : ReadBuf) :
    poll (fun m : Lz4Compress Duplex E D => m.readTurn lib buf) 2048 this.lz4 =
      (poll (fun m : Lz4Compress Duplex E D => m.readTurn lib (.new buf.remaining)) 2048
        this.lz4).settle id buf.behind :=
  poll_settle (I := fun _ => True) (fun _ _ _ _ => trivial) (fun m _ => m.settle_readTurn buf)
    trivial 2048

theorem fresh : Fresh (Lz4Stream lib Duplex) := by
  refine ⟨fun this buf r' data h => ?_, fun this buf r' data n h => ?_,
    fun this buf r' data e h => ?_⟩
  all_goals
    have hpoll := poll_readTurn this buf
    simp only [AsyncRead.pollRead, pollRead, hpoll] at h ⊢
    generalize poll (fun m : Lz4Compress Duplex E D => m.readTurn lib (.new buf.remaining)) 2048
      this.lz4 = turn at h ⊢
    obtain ⟨m⟩ | ⟨m⟩ | ⟨m, ⟨data', ⟨r⟩ | _ | _⟩⟩ := turn
    all_goals cases h
    all_goals first | rfl | exact Exists.intro _ rfl

/-- What is read comes from the front of what is left. -/
theorem pollRead_rest (hrest : (Lz4Compress.unframer lib).Rest this.lz4 b) (hcap : 0 < cap) :
    ∃ (this' : Lz4Stream lib Duplex) (buf : ReadBuf),
      (AsyncRead.pollRead this (.new cap) = (this', buf, .pending) ∧
        (Lz4Compress.unframer lib).Spends this.lz4.lz4Stream b [] this'.lz4 ∧
        (this.lz4.lz4Stream.Live → b ≠ [] →
          this'.lz4.lz4Stream.reads.length < this.lz4.lz4Stream.reads.length)) ∨
      (AsyncRead.pollRead this (.new cap) = (this', buf, .ready (.ok buf.filled.length)) ∧
        buf.filled.length ≤ cap ∧
        (buf.filled ≠ [] ∧ (Lz4Compress.unframer lib).Spends this.lz4.lz4Stream b buf.filled
          this'.lz4 ∨ buf.filled = [] ∧ b = [])) := by
  have hrank : (Lz4Compress.unframer lib).rank this.lz4 < 2048 := by
    rcases hrest with ⟨cache, got, frames, ms, h, -⟩ | ⟨cache, got, frames, ms, f, m, more, h, -⟩
    · exact h.phase.rank_lt
    · exact h.phase.rank_lt
  have hinto : poll (Lz4Compress.turnInto lib cap) 2048 this.lz4 =
      (poll (fun m : Lz4Compress Duplex E D => m.readTurn lib (.new cap)) 2048 this.lz4).settle id
        Lz4Compress.delivered :=
    poll_settle (I := fun _ => True) (fun _ _ _ _ => trivial)
      (fun m _ => Lz4Compress.turnInto_eq cap m) trivial 2048
  have hready : ∀ m' data e, poll (fun m : Lz4Compress Duplex E D => m.readTurn lib (.new cap)) 2048
      this.lz4 = .ready m' (data, e) → data.filled.length ≤ cap ∧
        ∀ n, e = .ret (.ok n) → n = data.filled.length := by
    intro m' data e h
    obtain ⟨u, hu⟩ := exists_of_poll h
    exact Lz4Compress.readTurn_ready hu
  simp only [AsyncRead.pollRead, pollRead]
  have hpoll := (Lz4Compress.truncatable lib).poll_rest hrest hcap hrank
  rw [hinto] at hpoll
  generalize poll (fun m : Lz4Compress Duplex E D => m.readTurn lib (.new cap)) 2048
    this.lz4 = turn at hpoll hready ⊢
  rcases hpoll with ⟨m', hs, hspends, huses⟩ | ⟨m', bytes, hs, hbytes⟩
  · obtain ⟨m⟩ | ⟨m⟩ | ⟨m, r⟩ := turn
    all_goals cases hs
    exact ⟨⟨m⟩, .new cap, .inl ⟨rfl, hspends, huses⟩⟩
  · obtain ⟨m⟩ | ⟨m⟩ | ⟨m, ⟨data, ⟨⟨e⟩ | n⟩ | _ | _⟩⟩ := turn
    all_goals cases hs
    obtain ⟨hle, hn⟩ := hready m data _ rfl
    obtain rfl := hn n rfl
    rw [List.take_length] at hbytes
    exact ⟨⟨m⟩, data, .inr ⟨rfl, hle, hbytes⟩⟩

/-- What is left of a compressed stream, of which not all need have arrived. -/
def source (lib : Lz4 E D) : Source (Lz4Stream lib Duplex) where
  Left this b := (Lz4Compress.unframer lib).Rest this.lz4 b
  live this := this.lz4.lz4Stream.Live
  answers this := this.lz4.lz4Stream.reads.length
  read := by
    intro this b cap hrest hcap
    obtain ⟨this', buf, ⟨hpoll, hspends, huses⟩ | ⟨hpoll, hle, ⟨hne, hspends⟩ | ⟨hnil, rfl⟩⟩⟩ :=
      pollRead_rest hrest hcap
    · obtain ⟨rest, rfl, hleft⟩ := hspends.left
      exact ⟨this', buf, .inl ⟨hpoll, hleft, fun hl => ⟨(hspends.live hl).1, huses hl⟩⟩⟩
    · obtain ⟨rest, rfl, hleft⟩ := hspends.left
      exact ⟨this', buf, .inr (.inl ⟨hpoll, hne, hle, rest, rfl, hleft, hspends.live⟩)⟩
    · rw [hnil] at hpoll
      exact ⟨this', buf, .inr (.inr ⟨rfl, .inl hpoll⟩)⟩

end Lz4Stream

end Fuso

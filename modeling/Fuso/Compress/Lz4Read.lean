import Mathlib.Data.List.Forall2
import Fuso.Async.Unframe
import Fuso.Compress.Lz4Codec
import Fuso.Encryption.Decrypt

/-!
# The reads of a compressed stream

`poll_read` of a compressed stream takes a stream of frames apart (`Lz4Compress.unframer`), so it
delivers the blocks one behind the other, wherever the stream is cut and whatever the sizes of the
buffers (`Lz4Compress.reader`).
-/

namespace Fuso.Lz4Compress
open Turn Lz4

variable {E D : Type}

def delivered : ReadBuf × Exit Nat → Exit Bytes
  | (buf, .ret (.ok n)) => .ret (.ok (buf.filled.take n))
  | (_, .ret (.error e)) => .ret (.error e)
  | (_, .panic) => .panic
  | (_, .undefined) => .undefined

/-- A turn of a `poll_read` with a fresh buffer of the size `cap`. -/
def turnInto (lib : Lz4 E D) (cap : Nat) (m : Lz4Compress Duplex E D) :
    Turn (Lz4Compress Duplex E D) (Exit Bytes) :=
  (m.readTurn lib (.new cap)).map id delivered

/-- A `poll_read`, by what it delivers. Every turn but three reads a byte, of the four of a size or
of a block. -/
def pollInto (lib : Lz4 E D) (m : Lz4Compress Duplex E D) (cap : Nat) :
    Lz4Compress Duplex E D × Poll (Exit Bytes) :=
  match poll (turnInto lib cap) 2048 m with
  | .again m | .pending m => (m, .pending)
  | .ready m r => (m, .ready r)

/-- The bytes of the frame being read that have arrived. -/
def got (m : Lz4Compress Duplex E D) : Bytes :=
  match m.lz4Dbuf with
  | none => []
  | some dbuf =>
    (if m.lz4Dinit then toLeBytes m.lz4Dneed else []) ++ dbuf.take m.lz4Doffset

/-- Where the reader is in a frame. -/
def Phase (m : Lz4Compress Duplex E D) : Prop :=
  match m.lz4Dbuf with
  | none => m.lz4Dinit = false ∧ m.lz4Doffset = 0
  | some dbuf =>
    m.lz4Doffset ≤ m.lz4Dneed ∧
      if m.lz4Dinit then 0 < m.lz4Dneed ∧ m.lz4Dneed ≤ 1044 ∧ dbuf.length = 1044
      else m.lz4Dneed = 4 ∧ dbuf.length = 4

/-- A bound for the turns of a poll. -/
def rank (m : Lz4Compress Duplex E D) : Nat :=
  match m.lz4Dbuf with
  | none => 1051
  | some _ => if m.lz4Dinit then m.lz4Dneed - m.lz4Doffset else 1050 - m.lz4Doffset

section
variable (lib : Lz4 E D)

/-- The frames to come hold the blocks that the decoder gives back. -/
def Next (d : D) (ring : Bytes) (offset : Nat) (frames blocks : List Bytes) : Prop :=
  ∃ pairs, Decodes lib d ring offset pairs ∧ frames = pairs.map frame ∧ blocks = pairs.map Prod.snd

/-- What is known between two turns. -/
structure Holds (m : Lz4Compress Duplex E D) (cache got : Bytes) (frames blocks : List Bytes) :
    Prop where
  cache : m.lz4Rbuf.contents = cache
  got : m.got = got
  phase : m.Phase
  next : ∃ d, m.lz4DecodeIns = some d ∧ Next lib d m.lz4DringBuf m.lz4DringOffset frames blocks
  max : m.lz4CompressMaxBytes = 1024

end

variable {lib : Lz4 E D} {m : Lz4Compress Duplex E D} {cache got more : Bytes}
  {frames blocks : List Bytes} {cap : Nat}

theorem nextDringOffset_eq (h : m.lz4CompressMaxBytes = 1024) (len : Nat) :
    m.nextDringOffset len = dringNext m.lz4DringOffset len := by
  rw [nextDringOffset, h]
  rfl

/-- The frames of a stream, and nothing behind them. -/
theorem stream_frames (h : Next lib d ring offset frames blocks) :
    messageFormat.Stream frames frames.flatten := by
  obtain ⟨pairs, hdecodes, rfl, -⟩ := h
  refine ⟨fun f hf => ?_, [], Format.open_nil (by decide), by simp⟩
  obtain ⟨pair, hpair, rfl⟩ := List.mem_map.1 hf
  have := hdecodes.size pair hpair
  exact frame_message (by omega)

/-- A frame that is not complete is none. -/
theorem Holds.eq_nil (h : Holds lib m cache got frames blocks)
    (hdbuf : m.lz4Dbuf = some dbuf) (hlt : m.lz4Doffset < m.lz4Dneed)
    (hall : got = frames.flatten) : frames = [] := by
  obtain ⟨d, -, hnext⟩ := h.next
  refine (stream_frames hnext).eq_nil (hall ▸ Format.open_of_short fun hle => ?_)
  have hgot := h.got
  have hphase := h.phase
  simp only [Lz4Compress.got, hdbuf] at hgot
  simp only [Phase, hdbuf] at hphase
  subst hgot
  cases hd : m.lz4Dinit with
  | false =>
    simp only [hd, Bool.false_eq_true, if_false, List.nil_append, messageFormat, List.length_take]
      at hle hphase
    omega
  | true =>
    simp only [hd, if_true] at hphase ⊢
    rw [body_message (by omega)]
    simp only [messageFormat, List.length_append, length_toLeBytes, List.length_take]
    omega

theorem Phase.le_length (h : m.Phase) (hdbuf : m.lz4Dbuf = some dbuf) :
    m.lz4Dneed ≤ dbuf.length := by
  simp only [Phase, hdbuf] at h
  cases hd : m.lz4Dinit with
  | false =>
    simp only [hd, Bool.false_eq_true, if_false] at h
    omega
  | true =>
    simp only [hd, if_true] at h
    omega

theorem Phase.rank_lt (h : m.Phase) : m.rank < 2048 := by
  unfold rank
  cases hdbuf : m.lz4Dbuf with
  | none => simp
  | some dbuf =>
    simp only [Phase, hdbuf] at h
    cases hd : m.lz4Dinit with
    | false =>
      simp only [Bool.false_eq_true, if_false]
      omega
    | true =>
      simp only [hd, if_true] at h ⊢
      omega

theorem Phase.rank_arrive (h : m.Phase) (hdbuf : m.lz4Dbuf = some dbuf) (hpos : 0 < n)
    (hfit : m.lz4Doffset + n ≤ m.lz4Dneed) : rank { m with
      lz4Stream := d', lz4Doffset := m.lz4Doffset + n, lz4Dbuf := some dbuf' } < m.rank := by
  simp only [Phase, hdbuf] at h
  simp only [rank, hdbuf]
  cases hd : m.lz4Dinit with
  | false =>
    simp only [hd, Bool.false_eq_true, if_false] at h ⊢
    omega
  | true =>
    simp only [if_true]
    omega

/-- Bytes that arrive go behind those that are there. -/
theorem Holds.arrive (h : Holds lib m cache got frames blocks)
    (hdbuf : m.lz4Dbuf = some dbuf) (data : Bytes)
    (hfit : m.lz4Doffset + data.length ≤ m.lz4Dneed) (d' : Duplex) :
    Holds lib { m with
      lz4Stream := d', lz4Doffset := m.lz4Doffset + data.length
      lz4Dbuf := some (overwrite dbuf m.lz4Doffset data) } cache (got ++ data) frames blocks := by
  have hfit' : m.lz4Doffset + data.length ≤ dbuf.length :=
    Nat.le_trans hfit (h.phase.le_length hdbuf)
  have hgot := h.got
  have hphase := h.phase
  simp only [Lz4Compress.got, hdbuf] at hgot
  simp only [Phase, hdbuf] at hphase
  refine ⟨h.cache, ?_, ?_, h.next, h.max⟩
  · simp only [Lz4Compress.got, take_overwrite dbuf data hfit', ← List.append_assoc, hgot]
  · simp only [Phase, length_overwrite dbuf data hfit']
    exact ⟨hfit, hphase.2⟩

/-- When the stream ends between two frames the reader is where it began. -/
theorem Holds.finish (h : Holds lib m cache [] frames blocks) (d' : Duplex) :
    Holds lib { m with
      lz4Stream := d', lz4Dbuf := none, lz4Dneed := 0, lz4Doffset := 0 } cache [] [] [] := by
  have hd : m.lz4Dinit = false := by
    have hgot := h.got
    have hphase := h.phase
    cases hdbuf : m.lz4Dbuf with
    | none =>
      simp only [Phase, hdbuf] at hphase
      exact hphase.1
    | some dbuf =>
      cases hd : m.lz4Dinit with
      | false => rfl
      | true => simp [Lz4Compress.got, hdbuf, hd, toLeBytes] at hgot
  obtain ⟨d, hins, -⟩ := h.next
  exact ⟨h.cache, rfl, ⟨hd, rfl⟩, ⟨d, hins, [], .nil, rfl, rfl⟩, h.max⟩

/-- The turn that reads. -/
theorem Holds.fill (h : Holds lib m [] got frames blocks)
    (hdbuf : m.lz4Dbuf = some dbuf) (hlt : m.lz4Doffset < m.lz4Dneed) :
    Unframing lz4Stream rank (Holds lib) cap m [] got frames blocks (turnInto lib cap m) := by
  obtain ⟨d, hins, hnext⟩ := h.next
  have hempty : m.lz4Rbuf.isEmpty = true := m.lz4Rbuf.isEmpty_iff.2 h.cache
  have hne := Nat.ne_of_lt hlt
  have hfits := h.phase.le_length hdbuf
  have hturn : m.readTurn lib (.new cap) = m.fillTurn dbuf (.new cap) := by
    simp only [readTurn, hempty, hins, hdbuf, hne, false_and, Bool.not_true, Bool.false_eq_true,
      if_false]
  have hguard : ¬ (m.lz4Dneed < m.lz4Doffset ∨ dbuf.length < m.lz4Dneed) := by omega
  obtain ⟨d', buf, ⟨hread, hnil, hwaits⟩ | ⟨hread, hle, hgives⟩⟩ :=
    m.lz4Stream.pollRead_room (m.lz4Dneed - m.lz4Doffset) (by omega)
  · let m' : Lz4Compress Duplex E D := { m with lz4Stream := d', lz4Dbuf := some dbuf }
    have hover : overwrite dbuf m.lz4Doffset [] = dbuf := by simp [overwrite]
    have hinto : turnInto lib cap m = .pending m' := by
      simp only [turnInto, hturn, fillTurn, if_neg hguard, hread, hnil, hover]
      rfl
    have hholds : Holds lib m' [] got frames blocks := by
      have := h.arrive hdbuf [] (Nat.le_of_lt hlt) d'
      rwa [hover, List.append_nil] at this
    rw [hinto]
    exact .waits hwaits (h.eq_nil hdbuf hlt) hholds
  by_cases h0 : buf.filled = []
  · let m' : Lz4Compress Duplex E D := { m with
      lz4Stream := d', lz4Dbuf := none, lz4Dneed := 0, lz4Doffset := 0 }
    have hinto : turnInto lib cap m = .ready m' (.ret (.ok [])) := by
      simp only [turnInto, hturn, fillTurn, if_neg hguard, hread, h0, List.length_nil, if_true]
      rfl
    rw [hinto]
    refine .ended (h0 ▸ hgives) (h.eq_nil hdbuf hlt) fun hnone => ?_
    subst hnone
    exact h.finish d'
  · have hlen : buf.filled.length ≠ 0 := by simpa using h0
    have hfit : m.lz4Doffset + buf.filled.length ≤ m.lz4Dneed := by omega
    let m' : Lz4Compress Duplex E D := { m with
      lz4Stream := d', lz4Doffset := m.lz4Doffset + buf.filled.length
      lz4Dbuf := some (overwrite dbuf m.lz4Doffset buf.filled) }
    have hinto : turnInto lib cap m = .again m' := by
      simp only [turnInto, hturn, fillTurn, if_neg hguard, hread, if_neg hlen]
      rfl
    rw [hinto]
    exact .filled hgives h0 (h.arrive hdbuf buf.filled hfit d')
      (h.phase.rank_arrive hdbuf (Nat.pos_of_ne_zero hlen) hfit)

/-- Four bytes of a frame are the size of the next block. -/
theorem Holds.next_size (h : Holds lib m [] got frames blocks)
    (hwire : got ++ (m.lz4Stream.incoming ++ more) = frames.flatten) (hdbuf : m.lz4Dbuf = some dbuf)
    (hfull : m.lz4Doffset = m.lz4Dneed) (hd : m.lz4Dinit = false) :
    ∃ d pair pairs, m.lz4DecodeIns = some d ∧
      Decodes lib d m.lz4DringBuf m.lz4DringOffset (pair :: pairs) ∧
      frames = (pair :: pairs).map frame ∧ blocks = (pair :: pairs).map Prod.snd ∧
      m.lz4Dneed = 4 ∧ dbuf = got ∧ dbuf = toLeBytes pair.1.length := by
  obtain ⟨d, hins, pairs, hdecodes, rfl, rfl⟩ := h.next
  have hphase := h.phase
  simp only [Phase, hdbuf, hd, Bool.false_eq_true, if_false] at hphase
  obtain ⟨-, hneed, hlen⟩ := hphase
  have hgot : dbuf = got := by
    rw [← h.got]
    simp only [Lz4Compress.got, hdbuf, hd, hfull, hneed, Bool.false_eq_true, if_false,
      List.take_of_length_le (Nat.le_of_eq hlen)]
    rfl
  rw [← hgot] at hwire
  cases pairs with
  | nil =>
    have hnil := congrArg List.length hwire
    simp only [List.length_append, hlen, List.map_nil, List.flatten_nil, List.length_nil] at hnil
    omega
  | cons pair pairs =>
    refine ⟨d, pair, pairs, hins, hdecodes, rfl, rfl, hneed, hgot, ?_⟩
    rw [List.map_cons, List.flatten_cons, frame, List.append_assoc] at hwire
    exact (List.append_inj hwire hlen).1

/-- The turn that takes the size of a block out of its four bytes. -/
theorem Holds.size (h : Holds lib m [] got frames blocks)
    (hwire : got ++ (m.lz4Stream.incoming ++ more) = frames.flatten) (hdbuf : m.lz4Dbuf = some dbuf)
    (hfull : m.lz4Doffset = m.lz4Dneed) (hd : m.lz4Dinit = false) :
    Unframing lz4Stream rank (Holds lib) cap m [] got frames blocks (turnInto lib cap m) := by
  obtain ⟨d, pair, pairs, hins, hdecodes, rfl, rfl, hneed, hgot, hsize⟩ :=
    h.next_size hwire hdbuf hfull hd
  have hempty : m.lz4Rbuf.isEmpty = true := m.lz4Rbuf.isEmpty_iff.2 h.cache
  obtain ⟨hpos, hbound⟩ := hdecodes.size pair List.mem_cons_self
  have hneed' : fromLeBytes (dbuf.take 4) = pair.1.length := by
    rw [hsize, List.take_of_length_le (Nat.le_of_eq length_toLeBytes)]
    exact fromLeBytes_toLeBytes (by omega)
  let m' : Lz4Compress Duplex E D := { m with
    lz4Dneed := pair.1.length, lz4Doffset := 0, lz4Dinit := true
    lz4Dbuf := some (.replicate 1044 0) }
  have hturn : m.readTurn lib (.new cap) = m.sizeTurn dbuf (.new cap) := by
    simp only [readTurn, hempty, hins, hdbuf, hfull, hd, Bool.not_true, Bool.not_false,
      Bool.false_eq_true, and_self, if_true, if_false]
  have hmax : compressBound m.lz4CompressMaxBytes = 1044 := by
    rw [h.max]
    rfl
  have hgood : ¬ (pair.1.length = 0 ∨ 1044 < pair.1.length) := by omega
  have hinto : turnInto lib cap m = .again m' := by
    simp only [turnInto, hturn, sizeTurn, hmax, hneed', if_neg hgood]
    rfl
  rw [hinto]
  refine .silent rfl ⟨h.cache, ?_, ⟨Nat.zero_le _, ?_⟩, ⟨d, hins, pair :: pairs, hdecodes, rfl,
    rfl⟩, h.max⟩ ?_
  · rw [← hgot, hsize]
    simp [Lz4Compress.got, m']
  · rw [if_pos rfl]
    exact ⟨hpos, hbound, List.length_replicate⟩
  · simp only [rank, m', hdbuf, hd, if_true, Bool.false_eq_true, if_false]
    omega

/-- The frame that is complete is the next one, and the decoder gives its block back. -/
theorem Holds.next_block (h : Holds lib m [] got frames blocks)
    (hwire : got ++ (m.lz4Stream.incoming ++ more) = frames.flatten) (hdbuf : m.lz4Dbuf = some dbuf)
    (hfull : m.lz4Doffset = m.lz4Dneed) (hd : m.lz4Dinit = true) :
    ∃ d d' block frames' blocks', m.lz4DecodeIns = some d ∧
      m.decompress lib d dbuf = (d', block) ∧ frames = got :: frames' ∧ blocks = block :: blocks' ∧
      0 < block.length ∧ Next lib d' (overwrite m.lz4DringBuf m.lz4DringOffset block)
        (m.nextDringOffset block.length) frames' blocks' := by
  obtain ⟨d, hins, pairs, hdecodes, rfl, rfl⟩ := h.next
  have hphase := h.phase
  simp only [Phase, hdbuf, hd, if_true] at hphase
  obtain ⟨-, hpos, hbound, hlen⟩ := hphase
  have hgot : toLeBytes m.lz4Dneed ++ dbuf.take m.lz4Dneed = got := by
    rw [← h.got]
    simp only [Lz4Compress.got, hdbuf, hd, hfull, if_true]
  have hsrc : (dbuf.take m.lz4Dneed).length = m.lz4Dneed := by
    rw [List.length_take]
    omega
  have hframe : messageFormat.Frame got := by
    have := frame_message (c := dbuf.take m.lz4Dneed) (by omega)
    rwa [hsrc, hgot] at this
  have hstream := stream_frames ⟨pairs, hdecodes, rfl, rfl⟩
  rw [← hwire] at hstream
  obtain ⟨frames', hframes, -⟩ := hstream.next hframe
  obtain ⟨pair, pairs, rfl, hpair, rfl⟩ := List.map_eq_cons_iff.1 hframes
  obtain ⟨src, block⟩ := pair
  obtain rfl : src = dbuf.take m.lz4Dneed :=
    (List.append_inj (hpair.trans hgot.symm) rfl).2
  cases hdecodes with
  | cons _ hblock hcall hdecodes =>
    rw [← h.max] at hcall
    rw [← nextDringOffset_eq h.max] at hdecodes
    exact ⟨d, _, block, _, _, hins, hcall, hframes, rfl, hblock.1, pairs, hdecodes, rfl, rfl⟩

/-- The state behind a block, of which `more` had no room in the buffer of the caller. -/
theorem Holds.decoded {block more : Bytes} {rbuf : Buffer UInt8}
    (h : Holds lib m [] got frames blocks)
    (hnext : Next lib d' (overwrite m.lz4DringBuf m.lz4DringOffset block)
      (m.nextDringOffset block.length) frames' blocks') (hrbuf : rbuf.contents = more) :
    Holds lib { m with
      lz4Rbuf := rbuf, lz4Dbuf := none, lz4DecodeIns := some d'
      lz4DringBuf := overwrite m.lz4DringBuf m.lz4DringOffset block
      lz4Dinit := false, lz4Dneed := 0, lz4Doffset := 0
      lz4DringOffset := m.nextDringOffset block.length } more [] frames' blocks' :=
  ⟨hrbuf, rfl, ⟨rfl, rfl⟩, ⟨d', rfl, hnext⟩, h.max⟩

/-- The turn that decompresses a block. -/
theorem Holds.decode (h : Holds lib m [] got frames blocks)
    (hwire : got ++ (m.lz4Stream.incoming ++ more) = frames.flatten) (hdbuf : m.lz4Dbuf = some dbuf)
    (hfull : m.lz4Doffset = m.lz4Dneed) (hd : m.lz4Dinit = true) :
    Unframing lz4Stream rank (Holds lib) cap m [] got frames blocks (turnInto lib cap m) := by
  obtain ⟨d, d', block, frames', blocks', hins, hcall, rfl, rfl, hpos, hnext⟩ :=
    h.next_block hwire hdbuf hfull hd
  have hempty : m.lz4Rbuf.isEmpty = true := m.lz4Rbuf.isEmpty_iff.2 h.cache
  have hne : block ≠ [] := List.length_pos_iff.1 hpos
  have hturn : m.readTurn lib (.new cap) = m.decodeTurn lib d dbuf (.new cap) := by
    simp only [readTurn, hempty, hins, hdbuf, hfull, hd, Bool.not_true, Bool.false_eq_true,
      and_false, and_self, if_true, if_false]
  let m' : Lz4Compress Duplex E D := { m with
    lz4Dbuf := none, lz4DecodeIns := some d'
    lz4DringBuf := overwrite m.lz4DringBuf m.lz4DringOffset block
    lz4Dinit := false, lz4Dneed := 0, lz4Doffset := 0
    lz4DringOffset := m.nextDringOffset block.length }
  by_cases hlt : cap < block.length
  · have hfill : ((ReadBuf.new cap).put (block.take cap)).filled = block.take cap :=
      ReadBuf.filled_put (List.length_take_le _ _)
    have htaken : (block.take cap).take cap = block.take cap := by rw [List.take_take, Nat.min_self]
    let m'' : Lz4Compress Duplex E D := { m' with lz4Rbuf := m.lz4Rbuf.pushAll (block.drop cap) }
    have hinto : turnInto lib cap m = .ready m'' (.ret (.ok (block.take cap))) := by
      simp only [turnInto, hturn, decodeTurn, hcall, if_neg hne, ReadBuf.remaining_new, if_pos hlt,
        map, delivered, hfill, htaken]
      rfl
    have hover : (m.lz4Rbuf.pushAll (block.drop cap)).contents = block.drop cap := by simp [h.cache]
    rw [hinto]
    exact .opened hne rfl (h.decoded hnext hover)
  · have hle : block.length ≤ cap := Nat.le_of_not_lt hlt
    have hfill : ((ReadBuf.new cap).put block).filled = block := ReadBuf.filled_put hle
    have hinto : turnInto lib cap m = .ready m' (.ret (.ok (block.take cap))) := by
      simp only [turnInto, hturn, decodeTurn, hcall, if_neg hne, ReadBuf.remaining_new, if_neg hlt,
        map, delivered, hfill, List.take_length, List.take_of_length_le hle]
      rfl
    have hover : m.lz4Rbuf.contents = block.drop cap := by
      rw [List.drop_eq_nil_of_le hle, h.cache]
    rw [hinto]
    exact .opened hne rfl (h.decoded hnext hover)

theorem Holds.turn (h : Holds lib m cache got frames blocks)
    (hwire : got ++ (m.lz4Stream.incoming ++ more) = frames.flatten) (cap : Nat) :
    Unframing lz4Stream rank (Holds lib) cap m cache got frames blocks
      (turnInto lib cap m) := by
  obtain ⟨d, hins, hnext⟩ := h.next
  by_cases hcache : cache = []
  · subst hcache
    cases hdbuf : m.lz4Dbuf with
    | none =>
      have hempty : m.lz4Rbuf.isEmpty = true := m.lz4Rbuf.isEmpty_iff.2 h.cache
      let m' : Lz4Compress Duplex E D := { m with lz4Dneed := 4, lz4Dbuf := some (.replicate 4 0) }
      have hturn : turnInto lib cap m = .again m' := by
        simp only [turnInto, readTurn, hempty, hins, hdbuf, Bool.not_true, Bool.false_eq_true,
          if_false, m']
        rfl
      have hphase := h.phase
      simp only [Phase, hdbuf] at hphase
      obtain ⟨hd, hoff⟩ := hphase
      have hgot := h.got
      simp only [Lz4Compress.got, hdbuf] at hgot
      rw [hturn]
      refine .silent rfl ⟨h.cache, ?_, ?_, h.next, h.max⟩ ?_
      · simp [Lz4Compress.got, m', hd, hoff, hgot]
      · simp [Phase, m', hd, hoff]
      · simp [rank, m', hdbuf, hd, hoff]
    | some dbuf =>
      have hphase := h.phase
      simp only [Phase, hdbuf] at hphase
      rcases Nat.eq_or_lt_of_le hphase.1 with hfull | hlt
      · cases hd : m.lz4Dinit with
        | false => exact h.size hwire hdbuf hfull hd
        | true => exact h.decode hwire hdbuf hfull hd
      · exact h.fill hdbuf hlt
  · have hempty : m.lz4Rbuf.isEmpty = false := by
      rw [← Bool.not_eq_true, m.lz4Rbuf.isEmpty_iff, h.cache]
      exact hcache
    have hfill : ((ReadBuf.new cap).put (cache.take cap)).filled = cache.take cap :=
      ReadBuf.filled_put (List.length_take_le _ _)
    let m' : Lz4Compress Duplex E D := { m with lz4Rbuf := (m.lz4Rbuf.readToBuffer cap).2 }
    have hturn : turnInto lib cap m = .ready m' (.ret (.ok (cache.take cap))) := by
      simp only [turnInto, readTurn, hempty, Bool.not_false, if_true, ReadBuf.remaining_new,
        Buffer.readToBuffer_fst, h.cache, map, delivered, hfill, List.take_length]
      rfl
    rw [hturn]
    exact .cached hcache rfl ⟨by simp [m', h.cache], h.got, h.phase, h.next, h.max⟩

/-- A `poll_read` takes frames apart. -/
def unframer (lib : Lz4 E D) : Unframer (turnInto lib) where
  stream := lz4Stream
  rank := rank
  Holds := Holds lib
  length_eq h := by
    obtain ⟨d, -, pairs, -, rfl, rfl⟩ := h.next
    simp only [List.length_map]
  turn {m} _ got frames _ h hwire cap := by
    have hwire' : got ++ (m.lz4Stream.incoming ++ []) = frames.flatten := by rwa [List.append_nil]
    exact h.turn hwire' cap

/-- The reads of a compressed stream. -/
def reader (lib : Lz4 E D) : Supply (pollInto lib) where
  Left m b := (unframer lib).Left m b
  live m := m.lz4Stream.Live
  answers m := m.lz4Stream.reads.length
  read := by
    intro m b cap hleft
    have hrank : (unframer lib).rank m < 2048 := by
      obtain ⟨cache, got, frames, ms, h, -⟩ := hleft
      exact h.phase.rank_lt
    rcases Unframer.poll_cases hleft hrank cap with
      ⟨m', hs, ⟨⟨rest, rfl, hleft'⟩, hlive⟩, huses⟩ |
      ⟨m', data, hs, ⟨⟨rest, rfl, hleft'⟩, hlive⟩, hne⟩
    · refine ⟨m', .inl ⟨by simp only [pollInto, hs], hleft', fun hl => ⟨(hlive hl).1, huses hl⟩⟩⟩
    · exact ⟨m', .inr ⟨data, rest, by simp only [pollInto, hs], rfl, hne, hleft', hlive⟩⟩

/-- The decoder of a new reader gives these blocks back. -/
def DecodesNew (lib : Lz4 E D) (pairs : List (Bytes × Bytes)) : Prop :=
  ∃ d, lib.createStreamDecode = some d ∧ Decodes lib d (.replicate ringCapacity 0) 0 pairs

theorem DecodesNew.holds (h : DecodesNew lib pairs) (d : Duplex) :
    Holds lib (new lib d) [] [] (pairs.map frame) (pairs.map Prod.snd) := by
  obtain ⟨ins, hins, hdecodes⟩ := h
  exact ⟨rfl, rfl, ⟨rfl, rfl⟩, ⟨ins, hins, pairs, hdecodes, rfl, rfl⟩, rfl⟩

theorem DecodesNew.of_append (h : DecodesNew lib (pairs ++ pairs')) : DecodesNew lib pairs := by
  obtain ⟨d, hd, hdecodes⟩ := h
  exact ⟨d, hd, hdecodes.of_append⟩

theorem decodesNew (hlib : BlockCodec lib e₀ d₀) (hcomp : Compresses lib e₀ pairs e) :
    DecodesNew lib pairs := by
  have hcomp' : Compresses lib e₀ ([] ++ pairs) e := hcomp
  exact ⟨d₀, hlib.createStreamDecode,
    hlib.decodes hcomp' .nil List.length_replicate (Nat.zero_lt_succ _)⟩

theorem decodesNew_row (hlib : RowCodec lib e₀ d₀) (hcomp : CompressesRow lib e₀ pairs e)
    (hle : (pairs.map Prod.snd).flatten.length ≤ 2028) : DecodesNew lib pairs := by
  have hcomp' : CompressesRow lib e₀ ([] ++ pairs) e := hcomp
  refine ⟨d₀, hlib.createStreamDecode, hlib.decodes hcomp' .nil List.length_replicate rfl ?_⟩
  rwa [Nat.zero_add]

/-- A fresh reader at a stream of frames. -/
theorem left_new (h : DecodesNew lib pairs) (reads : List Answer) :
    (reader lib).Left (new lib ⟨(pairs.map frame).flatten, reads, [], [], []⟩)
      (pairs.map Prod.snd).flatten :=
  ⟨[], [], pairs.map frame, pairs.map Prod.snd, h.holds _, rfl, rfl⟩

end Fuso.Lz4Compress

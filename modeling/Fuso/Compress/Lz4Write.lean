import Fuso.Async.Writer
import Fuso.Compress.Lz4Codec

/-!
# The writes of a compressed stream

A buffer that is written, polled until it is ready, is cut into blocks, and the frames of these are
on the stream one behind the other, however the stream takes them (`Idle.drives`).
-/

namespace Fuso.Lz4Compress
open Turn Lz4

variable {E D : Type} {lib : Lz4 E D} {e₀ : E} {d₀ : D}

/-- What is compressed and not yet on the stream. -/
def unsent (m : Lz4Compress Duplex E D) : Bytes :=
  match m.lz4Ebuf with
  | some ebuf => ebuf.drop m.lz4Woffset
  | none => []

/-- The blocks of `total` are compressed, and their frames are on the stream or on the way. -/
structure Blocks (lib : Lz4 E D) (e₀ : E) (total : Bytes) (m : Lz4Compress Duplex E D)
    (pairs : List (Bytes × Bytes)) (e : E) : Prop where
  ins : m.lz4EncodeIns = some e
  compresses : Compresses lib e₀ pairs e
  row : total.length < 2048 → CompressesRow lib e₀ pairs e
  total : (pairs.map Prod.snd).flatten = total
  sent : m.lz4Stream.sent ++ m.unsent = (pairs.map frame).flatten

/-- The encoder in use. The ring begins anew when there are 2048 bytes in it, and until then they
are in a row. -/
structure Encoding (lib : Lz4 E D) (e₀ : E) (total : Bytes) (m : Lz4Compress Duplex E D) :
    Prop where
  blocks : ∃ pairs e, Blocks lib e₀ total m pairs e
  max : m.lz4CompressMaxBytes = 1024
  ring : m.lz4EringBuf.length = ringCapacity
  offset : m.lz4EringOffset < 2048
  row : total.length < 2048 →
    m.lz4EringOffset = total.length ∧ m.lz4EringBuf.take m.lz4EringOffset = total

/-- Between two writes. -/
structure Idle (lib : Lz4 E D) (e₀ : E) (total : Bytes) (m : Lz4Compress Duplex E D) : Prop where
  encoding : Encoding lib e₀ total m
  ebuf : m.lz4Ebuf = none
  woffset : m.lz4Woffset = 0
  compressed : m.lz4CompressedOffset = 0

/-- The number of blocks of `n` bytes. -/
def blockCount (n : Nat) : Nat := (n + 1023) / 1024

/-- In the middle of a write of `buf`, behind `done`. While `L` holds there is room for the rest of
the buffer and for `rest` bytes more. -/
structure Writing (lib : Lz4 E D) (e₀ : E) (done buf : Bytes) (rest : Nat) (L : Prop)
    (m : Lz4Compress Duplex E D) : Prop where
  encoding : Encoding lib e₀ (done ++ buf.take m.lz4CompressedOffset) m
  le : m.lz4CompressedOffset ≤ buf.length
  of_some : ∀ ebuf, m.lz4Ebuf = some ebuf → m.lz4Woffset < ebuf.length
  of_none : m.lz4Ebuf = none → m.lz4Woffset = 0 ∧ m.lz4CompressedOffset < buf.length
  room : L → m.lz4Stream.Roomy
    (m.unsent.length + (1048 * blockCount (buf.length - m.lz4CompressedOffset) + rest))

/-- How many turns are left at most. -/
def turns (buf : Bytes) (m : Lz4Compress Duplex E D) : Nat :=
  2 * (buf.length - m.lz4CompressedOffset) + 2 * m.lz4Stream.writes.length +
    if m.lz4Ebuf = none then 1 else 0

variable {m : Lz4Compress Duplex E D} {done buf : Bytes} {rest : Nat} {L : Prop}

theorem compressLen_eq (h : m.lz4CompressMaxBytes = 1024) (buf : Bytes) :
    m.compressLen buf = min (buf.length - m.lz4CompressedOffset) 1024 := by
  simp only [compressLen, h]
  split <;> omega

/-- The next block of `buf`. -/
def nextBlock (m : Lz4Compress Duplex E D) (buf : Bytes) : Bytes :=
  (buf.drop m.lz4CompressedOffset).take (m.compressLen buf)

theorem length_nextBlock (hmax : m.lz4CompressMaxBytes = 1024) :
    (m.nextBlock buf).length = m.compressLen buf := by
  rw [nextBlock, List.length_take, List.length_drop, compressLen_eq hmax buf]
  omega

/-- The next block lies in the ring behind those before it. -/
theorem take_eringWith (hmax : m.lz4CompressMaxBytes = 1024)
    (hfit : m.lz4EringOffset + m.compressLen buf ≤ m.lz4EringBuf.length) :
    (m.eringWith buf).take (m.lz4EringOffset + m.compressLen buf) =
      m.lz4EringBuf.take m.lz4EringOffset ++ m.nextBlock buf := by
  have hlen : (m.nextBlock buf).length = m.compressLen buf := length_nextBlock hmax
  have htake := take_overwrite m.lz4EringBuf (m.nextBlock buf) (hlen.symm ▸ hfit)
  rwa [hlen] at htake

/-- The ring holds the next block. -/
theorem block_eq (hmax : m.lz4CompressMaxBytes = 1024)
    (hfit : m.lz4EringOffset + m.compressLen buf ≤ m.lz4EringBuf.length) :
    ((m.eringWith buf).drop m.lz4EringOffset).take (m.compressLen buf) = m.nextBlock buf := by
  rw [List.take_drop, take_eringWith hmax hfit]
  exact List.drop_left' (by rw [List.length_take]; omega)

/-- What is before the next block stays. -/
theorem take_before (hmax : m.lz4CompressMaxBytes = 1024)
    (hfit : m.lz4EringOffset + m.compressLen buf ≤ m.lz4EringBuf.length) :
    (m.eringWith buf).take m.lz4EringOffset = m.lz4EringBuf.take m.lz4EringOffset := by
  have htake := congrArg (List.take m.lz4EringOffset) (take_eringWith hmax hfit)
  rw [List.take_take, Nat.min_eq_left (Nat.le_add_right _ _)] at htake
  rw [htake]
  exact List.take_left' (by rw [List.length_take]; omega)

namespace Encoding

/-- There is room in the ring for the next block. -/
theorem fits (h : Encoding lib e₀ total m) (buf : Bytes) :
    m.lz4EringOffset + m.compressLen buf ≤ m.lz4EringBuf.length := by
  have hring : m.lz4EringBuf.length = 3072 := h.ring
  have hoff := h.offset
  have hlen := compressLen_eq h.max buf
  omega

theorem length_eringWith (h : Encoding lib e₀ total m) (buf : Bytes) :
    (m.eringWith buf).length = ringCapacity := by
  have hfit := h.fits buf
  rw [← length_nextBlock h.max] at hfit
  exact (length_overwrite _ _ hfit).trans h.ring

/-- The call of the library for the next block. -/
theorem calls (h : Encoding lib e₀ total m) (hb : Blocks lib e₀ total m pairs e)
    (hlt : m.lz4CompressedOffset < buf.length) (hcall : m.compress lib e buf = (e', compressed)) :
    Compresses lib e₀ (pairs ++ [(compressed, m.nextBlock buf)]) e' ∧
      (total.length < 2048 →
        CompressesRow lib e₀ (pairs ++ [(compressed, m.nextBlock buf)]) e') := by
  have hfit := h.fits buf
  have hlen := compressLen_eq h.max buf
  have hcall' : lib.compressFastContinue e (m.eringWith buf) m.lz4EringOffset (m.compressLen buf)
      1044 = (e', compressed) := by
    rw [← hcall, Lz4Compress.compress, h.max]
    rfl
  have hfit' : m.lz4EringOffset + m.compressLen buf ≤ (m.eringWith buf).length := by
    rw [h.length_eringWith, ← h.ring]
    exact hfit
  rw [← block_eq h.max hfit]
  refine ⟨.snoc hb.compresses (by omega) (by omega) hfit' (Nat.le_refl 1044) hcall',
    fun htotal => ?_⟩
  refine .snoc (hb.row htotal) (by omega) (by omega) hfit' (Nat.le_refl 1044) ?_ hcall'
  rw [take_before h.max hfit, (h.row htotal).2, hb.total]

theorem nextEringOffset_lt (h : Encoding lib e₀ total m) (len : Nat) :
    m.nextEringOffset len < 2048 := by
  simp only [nextEringOffset, h.max, ringCapacity]
  split <;> omega

/-- Until the ring begins anew the next block is in a row with the others. -/
theorem row_next (h : Encoding lib e₀ total m) (hlt : (total ++ m.nextBlock buf).length < 2048) :
    m.nextEringOffset (m.compressLen buf) = (total ++ m.nextBlock buf).length ∧
      (m.eringWith buf).take (m.nextEringOffset (m.compressLen buf)) =
        total ++ m.nextBlock buf := by
  rw [List.length_append, length_nextBlock h.max] at hlt ⊢
  obtain ⟨hoff, htake⟩ := h.row (by omega)
  have hnext : m.nextEringOffset (m.compressLen buf) = m.lz4EringOffset + m.compressLen buf := by
    rw [nextEringOffset, h.max, if_neg (by rw [ringCapacity]; omega)]
  rw [hnext]
  exact ⟨by rw [hoff], by rw [take_eringWith h.max (h.fits buf), htake]⟩

/-- The next block is compressed. -/
theorem compress (h : Encoding lib e₀ (done ++ buf.take m.lz4CompressedOffset) m)
    (hlib : Coder lib e₀ d₀) (hnone : m.lz4Ebuf = none) (hw : m.lz4Woffset = 0)
    (hlt : m.lz4CompressedOffset < buf.length) :
    ∃ e e' compressed data, m.lz4EncodeIns = some e ∧ m.compress lib e buf = (e', compressed) ∧
      (1 ≤ compressed.length ∧ compressed.length ≤ 1044) ∧
      Encoding lib e₀ (done ++ buf.take (m.lz4CompressedOffset + m.compressLen buf)) { m with
        lz4EringBuf := m.eringWith buf, lz4EncodeIns := some e'
        lz4CompressedOffset := m.lz4CompressedOffset + m.compressLen buf
        lz4EringOffset := m.nextEringOffset (m.compressLen buf)
        lz4Ebuf := some (frame (compressed, data)) } := by
  obtain ⟨pairs, e, hblocks⟩ := h.blocks
  obtain ⟨⟨e', compressed⟩, hcall⟩ : ∃ r, m.compress lib e buf = r := ⟨_, rfl⟩
  obtain ⟨hcomp, hrow⟩ := h.calls hblocks hlt hcall
  refine ⟨e, e', compressed, m.nextBlock buf, hblocks.ins, hcall,
    hlib.size _ _ hcomp (compressed, m.nextBlock buf) (by simp), ?_⟩
  -- the bytes of the buffer up to the end of the block
  have hmore : done ++ buf.take (m.lz4CompressedOffset + m.compressLen buf) =
      done ++ buf.take m.lz4CompressedOffset ++ m.nextBlock buf := by
    rw [List.take_add, ← List.append_assoc]
    rfl
  rw [hmore]
  refine ⟨⟨pairs ++ [(compressed, m.nextBlock buf)], e', rfl, hcomp, fun hlt => ?_, ?_, ?_⟩, h.max,
    h.length_eringWith buf, h.nextEringOffset_lt _, h.row_next⟩
  · rw [List.length_append] at hlt
    exact hrow (by omega)
  · rw [List.map_append, List.flatten_append, hblocks.total]
    simp only [List.map_cons, List.map_nil, List.flatten_singleton]
  · have hsent := hblocks.sent
    have hunsent : m.unsent = [] := by rw [unsent, hnone]
    rw [hunsent, List.append_nil] at hsent
    rw [List.map_append, List.flatten_append, ← hsent]
    simp only [unsent, hw, List.drop_zero, List.map_cons, List.map_nil, List.flatten_singleton]

end Encoding

theorem writeTurn_encode (hins : m.lz4EncodeIns = some e) (hnone : m.lz4Ebuf = none)
    (hlt : m.lz4CompressedOffset < buf.length) (hcall : m.compress lib e buf = (e', compressed))
    (hpos : 1 ≤ compressed.length) : m.writeTurn lib buf = .again { m with
      lz4EringBuf := m.eringWith buf, lz4EncodeIns := some e'
      lz4CompressedOffset := m.lz4CompressedOffset + m.compressLen buf
      lz4EringOffset := m.nextEringOffset (m.compressLen buf)
      lz4Ebuf := some (toLeBytes compressed.length ++ compressed) } := by
  simp only [writeTurn, hins, hnone, encodeTurn, hcall, List.length_pos_iff.1 hpos]
  rw [if_neg (by omega)]
  rfl

/-- The turn that compresses a block. -/
theorem Writing.encode (h : Writing lib e₀ done buf rest L m) (hlib : Coder lib e₀ d₀)
    (hnone : m.lz4Ebuf = none) : ∃ m', m.writeTurn lib buf = .again m' ∧
      Writing lib e₀ done buf rest L m' ∧ turns buf m' < turns buf m := by
  obtain ⟨hw, hlt⟩ := h.of_none hnone
  obtain ⟨e, e', compressed, data, hins, hcall, ⟨hpos, hbound⟩, hencoding⟩ :=
    h.encoding.compress hlib hnone hw hlt
  have hlen := compressLen_eq h.encoding.max buf
  have hframe : (frame (compressed, data)).length = 4 + compressed.length := by
    simp only [frame, List.length_append, length_toLeBytes]
  let m' : Lz4Compress Duplex E D := { m with
    lz4EringBuf := m.eringWith buf, lz4EncodeIns := some e'
    lz4CompressedOffset := m.lz4CompressedOffset + m.compressLen buf
    lz4EringOffset := m.nextEringOffset (m.compressLen buf)
    lz4Ebuf := some (frame (compressed, data)) }
  refine ⟨m', writeTurn_encode hins hnone hlt hcall hpos,
    ⟨hencoding, ?_, fun ebuf hebuf => ?_, by simp [m'], fun hL => ?_⟩, ?_⟩
  · simp only [m']
    omega
  · obtain rfl : frame (compressed, data) = ebuf := Option.some.inj hebuf
    simp only [m', hw, hframe]
    omega
  · have hroom := h.room hL
    have hunsent : m.unsent = [] := by rw [unsent, hnone]
    have hunsent' : m'.unsent = frame (compressed, data) := by
      simp only [unsent, m', hw, List.drop_zero]
    rw [hunsent, List.length_nil] at hroom
    rw [hunsent', hframe]
    simp only [Duplex.Roomy, blockCount, m'] at hroom ⊢
    omega
  · simp only [turns, m', hnone, if_true, reduceCtorEq, if_false]
    omega

/-- The encoding goes on when bytes that were unsent are on the stream. -/
theorem Encoding.of_sent {m' : Lz4Compress Duplex E D} (h : Encoding lib e₀ total m)
    (hins : m'.lz4EncodeIns = m.lz4EncodeIns)
    (hmax : m'.lz4CompressMaxBytes = m.lz4CompressMaxBytes)
    (hring : m'.lz4EringBuf = m.lz4EringBuf) (hoff : m'.lz4EringOffset = m.lz4EringOffset)
    (hsent : m'.lz4Stream.sent ++ m'.unsent = m.lz4Stream.sent ++ m.unsent) :
    Encoding lib e₀ total m' := by
  obtain ⟨pairs, e, hblocks⟩ := h.blocks
  refine ⟨⟨pairs, e, hins.trans hblocks.ins, hblocks.compresses, hblocks.row, hblocks.total,
    hsent.trans hblocks.sent⟩, hmax.trans h.max, hring ▸ h.ring, hoff ▸ h.offset, ?_⟩
  rw [hring, hoff]
  exact h.row

/-- The stream `d'` has taken `k` bytes of what is unsent. -/
structure Flushed (m : Lz4Compress Duplex E D) (ebuf : Bytes) (k : Nat) (d' : Duplex) : Prop where
  pos : 0 < k
  le : m.lz4Woffset + k ≤ ebuf.length
  sent : d'.sent ++ ebuf.drop (m.lz4Woffset + k) = m.lz4Stream.sent ++ m.unsent
  room : ∀ n, m.lz4Stream.Roomy (m.unsent.length + n) →
    d'.Roomy (ebuf.length - (m.lz4Woffset + k) + n)
  uses : d'.writes.length < m.lz4Stream.writes.length

theorem flushed_of_takes {ebuf : Bytes} {d' : Duplex} (hsome : m.lz4Ebuf = some ebuf)
    (hpos : 0 < k) (hle : k ≤ (ebuf.drop m.lz4Woffset).length)
    (htakes : m.lz4Stream.Takes ((ebuf.drop m.lz4Woffset).take k) d')
    (huses : d'.writes.length < m.lz4Stream.writes.length) : Flushed m ebuf k d' := by
  have hunsent : m.unsent = ebuf.drop m.lz4Woffset := by rw [unsent, hsome]
  rw [List.length_drop] at hle
  refine ⟨hpos, by omega, ?_, fun n hn => htakes.room _ ?_, huses⟩
  · rw [htakes.sent, List.append_assoc, ← List.drop_drop, List.take_append_drop, hunsent]
  · have hlen : ((ebuf.drop m.lz4Woffset).take k).length + (ebuf.length - (m.lz4Woffset + k)) =
        m.unsent.length := by
      rw [hunsent, List.length_take, List.length_drop]
      omega
    rw [← Nat.add_assoc, hlen]
    exact hn

/-- The stream takes a part of the frame. -/
theorem Writing.flush_part {ebuf : Bytes} {d' : Duplex} (h : Writing lib e₀ done buf rest L m)
    (hsome : m.lz4Ebuf = some ebuf) (hf : Flushed m ebuf k d')
    (hpart : m.lz4Woffset + k ≠ ebuf.length) : Writing lib e₀ done buf rest L
      { m with lz4Stream := d', lz4Woffset := m.lz4Woffset + k } := by
  have hunsent : unsent { m with lz4Stream := d', lz4Woffset := m.lz4Woffset + k } =
      ebuf.drop (m.lz4Woffset + k) := by
    simp only [unsent, hsome]
  refine ⟨h.encoding.of_sent rfl rfl rfl rfl ?_, h.le, fun ebuf' hebuf => ?_, fun hnone => ?_,
    fun hL => ?_⟩
  · rw [hunsent]
    exact hf.sent
  · obtain rfl : ebuf = ebuf' := Option.some.inj (hsome.symm.trans hebuf)
    exact Nat.lt_of_le_of_ne hf.le hpart
  · rw [hsome] at hnone
    cases hnone
  · rw [hunsent, List.length_drop]
    exact hf.room _ (h.room hL)

/-- The stream takes the rest of a frame, which is not the last one. -/
theorem Writing.flush_frame {ebuf : Bytes} {d' : Duplex} (h : Writing lib e₀ done buf rest L m)
    (hf : Flushed m ebuf k d') (hend : m.lz4Woffset + k = ebuf.length)
    (hmore : m.lz4CompressedOffset ≠ buf.length) : Writing lib e₀ done buf rest L
      { m with lz4Stream := d', lz4Ebuf := none, lz4Woffset := 0 } := by
  have hsent := hf.sent
  rw [hend, List.drop_length] at hsent
  refine ⟨h.encoding.of_sent rfl rfl rfl rfl hsent, h.le, fun ebuf' hebuf => (by cases hebuf),
    fun _ => ⟨rfl, Nat.lt_of_le_of_ne h.le hmore⟩, fun hL => ?_⟩
  have hroom := hf.room _ (h.room hL)
  rw [hend, Nat.sub_self] at hroom
  exact hroom

/-- The stream takes the rest of the last frame. -/
theorem Writing.flush_last {ebuf : Bytes} {d' : Duplex} (h : Writing lib e₀ done buf rest L m)
    (hf : Flushed m ebuf k d') (hend : m.lz4Woffset + k = ebuf.length)
    (hall : m.lz4CompressedOffset = buf.length) :
    Idle lib e₀ (done ++ buf) { m with
      lz4Stream := d', lz4Ebuf := none, lz4Woffset := 0, lz4CompressedOffset := 0 } ∧
    (L → d'.Roomy rest) := by
  have hsent := hf.sent
  rw [hend, List.drop_length] at hsent
  have hencoding := h.encoding
  rw [hall, List.take_length] at hencoding
  refine ⟨⟨hencoding.of_sent rfl rfl rfl rfl hsent, rfl, rfl, rfl⟩, fun hL => ?_⟩
  have hroom := hf.room _ (h.room hL)
  unfold Duplex.Roomy at *
  omega

/-- The stream takes nothing. -/
theorem Writing.flush_waits {d' : Duplex} (h : Writing lib e₀ done buf rest L m)
    (htakes : m.lz4Stream.Takes [] d') :
    Writing lib e₀ done buf rest L { m with lz4Stream := d' } := by
  have hsent : d'.sent = m.lz4Stream.sent := by rw [htakes.sent, List.append_nil]
  refine ⟨h.encoding.of_sent rfl rfl rfl rfl ?_, h.le, h.of_some, h.of_none, fun hL => ?_⟩
  · rw [show ({ m with lz4Stream := d' } : Lz4Compress Duplex E D).lz4Stream.sent =
      m.lz4Stream.sent from hsent]
    rfl
  · exact htakes.room _ (by rw [List.length_nil, Nat.zero_add]; exact h.room hL)

/-- The turn that writes. -/
theorem Writing.flush (h : Writing lib e₀ done buf rest L m) (hsome : m.lz4Ebuf = some ebuf) :
    (∃ m', Goes (·.writeTurn lib buf) m m' ∧ Writing lib e₀ done buf rest L m' ∧
      (L → turns buf m' < turns buf m)) ∨
    ∃ m', m.writeTurn lib buf = .ready m' (.ret (.ok buf.length)) ∧
      Idle lib e₀ (done ++ buf) m' ∧ (L → m'.lz4Stream.Roomy rest) := by
  obtain ⟨pairs, e, hblocks⟩ := h.encoding.blocks
  have hins := hblocks.ins
  have hlt := h.of_some ebuf hsome
  have hturn : m.writeTurn lib buf = m.flushTurn ebuf buf := by
    simp only [writeTurn, hins, hsome]
  have hguard : ¬ ebuf.length < m.lz4Woffset := by omega
  obtain ⟨d', ⟨hwrite, htakes, huses⟩ | ⟨k, hk, hkle, hwrite, htakes, huses⟩⟩ :=
    m.lz4Stream.pollWrite_takes (ebuf.drop m.lz4Woffset) (by simpa using hlt)
  · have hflush : m.flushTurn ebuf buf = .pending { m with lz4Stream := d' } := by
      simp only [flushTurn, if_neg hguard, hwrite]
    refine .inl ⟨_, .inr (hturn.trans hflush), h.flush_waits htakes, fun hL => ?_⟩
    have hless := huses (by
      have := h.room hL
      rw [unsent, hsome, List.length_drop] at this
      unfold Duplex.Roomy at *
      omega)
    simp only [turns]
    omega
  · have hf := flushed_of_takes hsome hk hkle htakes huses
    by_cases hend : m.lz4Woffset + k = ebuf.length
    · by_cases hall : m.lz4CompressedOffset = buf.length
      · have hflush : m.flushTurn ebuf buf = .ready { m with
            lz4Stream := d', lz4Ebuf := none, lz4Woffset := 0, lz4CompressedOffset := 0 }
            (.ret (.ok buf.length)) := by
          simp only [flushTurn, if_neg hguard, hwrite, Nat.ne_of_gt hk, hend, hall, if_false,
            and_self, if_true]
        obtain ⟨hidle, hroom⟩ := h.flush_last hf hend hall
        exact .inr ⟨_, hturn.trans hflush, hidle, hroom⟩
      · have hflush : m.flushTurn ebuf buf =
            .again { m with lz4Stream := d', lz4Ebuf := none, lz4Woffset := 0 } := by
          simp only [flushTurn, if_neg hguard, hwrite, Nat.ne_of_gt hk, hend, hall, if_false,
            and_false, if_true]
        refine .inl ⟨_, .inl (hturn.trans hflush), h.flush_frame hf hend hall, fun _ => ?_⟩
        simp only [turns, hsome, if_true, reduceCtorEq, if_false]
        omega
    · have hflush : m.flushTurn ebuf buf =
          .again { m with lz4Stream := d', lz4Woffset := m.lz4Woffset + k } := by
        simp only [flushTurn, if_neg hguard, hwrite, Nat.ne_of_gt hk, hend, if_false, false_and]
      refine .inl ⟨_, .inl (hturn.trans hflush), h.flush_part hsome hf hend, fun _ => ?_⟩
      simp only [turns, hsome, reduceCtorEq, if_false]
      omega

/-- A turn of a write. -/
theorem Writing.turn (h : Writing lib e₀ done buf rest L m) (hlib : Coder lib e₀ d₀) :
    (∃ m', Goes (·.writeTurn lib buf) m m' ∧ Writing lib e₀ done buf rest L m' ∧
      (L → turns buf m' < turns buf m)) ∨
    ∃ m', m.writeTurn lib buf = .ready m' (.ret (.ok buf.length)) ∧
      Idle lib e₀ (done ++ buf) m' ∧ (L → m'.lz4Stream.Roomy rest) := by
  cases hebuf : m.lz4Ebuf with
  | none =>
    obtain ⟨m', hturn, hm', hlt⟩ := h.encode hlib hebuf
    exact .inl ⟨m', .inl hturn, hm', fun _ => hlt⟩
  | some ebuf => exact h.flush hebuf

/-- Nothing is written yet. -/
theorem idle_new (hlib : Coder lib e₀ d₀) {d : Duplex} (hs : d.sent = []) :
    Idle lib e₀ [] (new lib d) where
  encoding := by
    refine ⟨⟨[], e₀, hlib.createStream, .nil, fun _ => .nil, rfl, ?_⟩, rfl, List.length_replicate,
      Nat.zero_lt_succ _, fun _ => ⟨rfl, rfl⟩⟩
    simp only [new, unsent, hs, List.append_nil, List.map_nil, List.flatten_nil]
  ebuf := rfl
  woffset := rfl
  compressed := rfl

theorem Idle.writing (h : Idle lib e₀ done m) (hne : buf ≠ [])
    (hroom : L → m.lz4Stream.Roomy (1048 * blockCount buf.length + rest)) :
    Writing lib e₀ done buf rest L m where
  encoding := by
    rw [h.compressed, List.take_zero, List.append_nil]
    exact h.encoding
  le := by rw [h.compressed]; exact Nat.zero_le _
  of_some ebuf hebuf := by rw [h.ebuf] at hebuf; cases hebuf
  of_none _ := ⟨h.woffset, by rw [h.compressed]; exact List.length_pos_iff.2 hne⟩
  room hL := by
    rw [unsent, h.ebuf, h.compressed, Nat.sub_zero, List.length_nil, Nat.zero_add]
    exact hroom hL

/-- A buffer that is written is ready with its length, and its frames are on the stream. -/
theorem Idle.drives (h : Idle lib e₀ done m) (hlib : Coder lib e₀ d₀) (hne : buf ≠ [])
    (hroom : L → m.lz4Stream.Roomy (1048 * blockCount buf.length + rest))
    (H : Drives (·.writeTurn lib buf) m m' r) :
    r = .ret (.ok buf.length) ∧ Idle lib e₀ (done ++ buf) m' ∧ (L → m'.lz4Stream.Roomy rest) := by
  refine H.post (I := Writing lib e₀ done buf rest L) (Q := fun m' r => r = .ret (.ok buf.length) ∧
    Idle lib e₀ (done ++ buf) m' ∧ (L → m'.lz4Stream.Roomy rest)) (fun m h => ?_)
    (h.writing hne hroom)
  rcases h.turn hlib with ⟨m', hgoes, hm', -⟩ | ⟨m', hturn, hidle, hroom'⟩
  · exact .inl ⟨m', hgoes, hm'⟩
  · exact .inr ⟨m', _, hturn, rfl, hidle, hroom'⟩

/-- With room for its blocks the write is ready. -/
theorem Idle.exists_drives (h : Idle lib e₀ done m) (hlib : Coder lib e₀ d₀) (hne : buf ≠ [])
    (hroom : m.lz4Stream.Roomy (1048 * blockCount buf.length + rest)) :
    ∃ m' r, Drives (·.writeTurn lib buf) m m' r := by
  refine Turn.exists_drives (I := Writing lib e₀ done buf rest True) (turns buf) (fun m h => ?_)
    (h.writing hne fun _ => hroom)
  rcases h.turn hlib with ⟨m', hgoes, hm', hlt⟩ | ⟨m', hturn, -⟩
  · exact .inl ⟨m', hgoes, hm', hlt trivial⟩
  · exact .inr ⟨m', _, hturn⟩

end Fuso.Lz4Compress

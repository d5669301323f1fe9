import Mathlib.Data.List.Infix
import Fuso.Compress.Lz4
import Fuso.Theory.Ring

/-!
# The rings of the encoder and the decoder

The two ends of a stream count the offset of the next block on their own, the encoder with the size
of a block and the decoder with the bound of a compressed one. `encoder_offset` and `decoder_offset`
say where they are behind any run, and `offsets_agree_iff` when they agree.
-/

namespace Fuso.Lz4Compress
open Turn

variable {S E D : Type} (lib : Lz4 E D)

/-- The sizes of the blocks that the next turn of a `poll_write` compresses. -/
def encoded (buf : Bytes) (m : Lz4Compress S E D) : List Nat :=
  match m.lz4EncodeIns, m.lz4Ebuf with
  | some ins, none =>
    if buf.length < m.lz4CompressedOffset ∨ (m.compress lib ins buf).2 = [] then []
    else [m.compressLen buf]
  | _, _ => []

/-- The sizes of the blocks that the next turn of a `poll_read` decompresses. -/
def decoded (m : Lz4Compress S E D) : List Nat :=
  match m.lz4DecodeIns, m.lz4Dbuf with
  | some ins, some dbuf =>
    if m.lz4Rbuf.isEmpty ∧ m.lz4Doffset = m.lz4Dneed ∧ m.lz4Dinit ∧
        (m.decompress lib ins dbuf).2 ≠ [] then
      [(m.decompress lib ins dbuf).2.length]
    else []
  | _, _ => []

/-- One end of a stream, and the sizes of the blocks that went through it. -/
structure Traced (S E D : Type) where
  blocks : List Nat
  lz4 : Lz4Compress S E D

/-- A turn of a `poll_write` of `buf`. -/
def Traced.write [AsyncWrite S] (buf : Bytes) (e : Traced S E D) : Traced S E D where
  blocks := e.blocks ++ e.lz4.encoded lib buf
  lz4 := (e.lz4.writeTurn lib buf).state

/-- A turn of a `poll_read` into `buf`. -/
def Traced.read [AsyncRead S] (buf : ReadBuf) (d : Traced S E D) : Traced S E D where
  blocks := d.blocks ++ d.lz4.decoded lib
  lz4 := (d.lz4.readTurn lib buf).state

/-- The encoder behind turns of `poll_write`. -/
def encoder [AsyncWrite S] (lz4Stream : S) (bufs : List Bytes) : Traced S E D :=
  after (Traced.write lib) ⟨[], new lib lz4Stream⟩ bufs

/-- The decoder behind turns of `poll_read`. -/
def decoder [AsyncRead S] (lz4Stream : S) (bufs : List ReadBuf) : Traced S E D :=
  after (Traced.read lib) ⟨[], new lib lz4Stream⟩ bufs

variable {lib} {m : Lz4Compress S E D}

/-! ## The encoder -/

section
variable [AsyncWrite S]

theorem flushTurn_offset (ebuf buf : Bytes) :
    (m.flushTurn ebuf buf).state.lz4EringOffset = m.lz4EringOffset ∧
      (m.flushTurn ebuf buf).state.lz4CompressMaxBytes = m.lz4CompressMaxBytes := by
  unfold flushTurn
  split
  · exact ⟨rfl, rfl⟩
  · split
    · exact ⟨rfl, rfl⟩
    · exact ⟨rfl, rfl⟩
    · dsimp only
      split_ifs <;> exact ⟨rfl, rfl⟩

/-- A turn of a `poll_write` moves the offset of the encoder by the block it compresses. -/
theorem writeTurn_offset (lib : Lz4 E D) (buf : Bytes) (hmax : m.lz4CompressMaxBytes = 1024) :
    (m.writeTurn lib buf).state.lz4EringOffset =
        after (Ring.advance 2048) m.lz4EringOffset (m.encoded lib buf) ∧
      (m.writeTurn lib buf).state.lz4CompressMaxBytes = 1024 := by
  unfold writeTurn encoded
  cases m.lz4EncodeIns with
  | none => exact ⟨rfl, hmax⟩
  | some ins =>
    cases m.lz4Ebuf with
    | some ebuf => exact (flushTurn_offset ebuf buf).imp_right (·.trans hmax)
    | none =>
      simp only [encodeTurn]
      by_cases hpanic : buf.length < m.lz4CompressedOffset
      · rw [if_pos hpanic, if_pos (.inl hpanic)]
        exact ⟨rfl, hmax⟩
      · rw [if_neg hpanic]
        by_cases hfail : (m.compress lib ins buf).2 = []
        · rw [if_pos hfail, if_pos (.inr hfail)]
          exact ⟨rfl, hmax⟩
        · rw [if_neg hfail, if_neg (not_or.2 ⟨hpanic, hfail⟩)]
          refine ⟨?_, hmax⟩
          simp only [state, nextEringOffset, hmax, ringCapacity, after_cons, after_nil,
            Ring.advance]

/-- The offset of the encoder is that of a ring with the limit 2048. -/
theorem encoder_offset (lz4Stream : S) (bufs : List Bytes) :
    (encoder lib lz4Stream bufs).lz4.lz4EringOffset =
      Ring.offset 2048 (encoder lib lz4Stream bufs).blocks := by
  refine (after_invariant (I := fun e : Traced S E D => e.lz4.lz4EringOffset =
    Ring.offset 2048 e.blocks ∧ e.lz4.lz4CompressMaxBytes = 1024) ?_ ⟨rfl, rfl⟩).1
  rintro e buf ⟨hoff, hmax⟩
  obtain ⟨hstep, hmax'⟩ := writeTurn_offset lib buf hmax
  refine ⟨?_, hmax'⟩
  rw [Traced.write, hstep, hoff, Ring.offset, Ring.offset, after_append]

end

/-! ## The decoder -/

theorem sizeTurn_offset (dbuf : Bytes) (buf : ReadBuf) :
    (m.sizeTurn dbuf buf).state.lz4DringOffset = m.lz4DringOffset ∧
      (m.sizeTurn dbuf buf).state.lz4CompressMaxBytes = m.lz4CompressMaxBytes := by
  simp only [sizeTurn]
  split <;> exact ⟨rfl, rfl⟩

theorem decodeTurn_offset (ins : D) (dbuf : Bytes) (buf : ReadBuf)
    (hmax : m.lz4CompressMaxBytes = 1024) :
    (m.decodeTurn lib ins dbuf buf).state.lz4DringOffset =
        after (Ring.advance 2028) m.lz4DringOffset
          (if (m.decompress lib ins dbuf).2 ≠ [] then [(m.decompress lib ins dbuf).2.length]
          else []) ∧
      (m.decodeTurn lib ins dbuf buf).state.lz4CompressMaxBytes = 1024 := by
  simp only [decodeTurn]
  by_cases hfail : (m.decompress lib ins dbuf).2 = []
  · rw [if_pos hfail, if_neg (not_not.2 hfail)]
    exact ⟨rfl, hmax⟩
  · have hnext : m.nextDringOffset (m.decompress lib ins dbuf).2.length =
        Ring.advance 2028 (m.decompress lib ins dbuf).2.length m.lz4DringOffset := by
      simp only [nextDringOffset, hmax]
      rfl
    rw [if_neg hfail, if_pos hfail, after_cons, after_nil, ← hnext]
    split <;> exact ⟨rfl, hmax⟩

section
variable [AsyncRead S]

theorem fillTurn_offset (dbuf : Bytes) (buf : ReadBuf) :
    (m.fillTurn dbuf buf).state.lz4DringOffset = m.lz4DringOffset ∧
      (m.fillTurn dbuf buf).state.lz4CompressMaxBytes = m.lz4CompressMaxBytes := by
  unfold fillTurn
  split
  · exact ⟨rfl, rfl⟩
  · split
    · exact ⟨rfl, rfl⟩
    · exact ⟨rfl, rfl⟩
    · split <;> exact ⟨rfl, rfl⟩

/-- A turn of a `poll_read` moves the offset of the decoder by the block it decompresses. -/
theorem readTurn_offset (lib : Lz4 E D) (buf : ReadBuf) (hmax : m.lz4CompressMaxBytes = 1024) :
    (m.readTurn lib buf).state.lz4DringOffset =
        after (Ring.advance 2028) m.lz4DringOffset (m.decoded lib) ∧
      (m.readTurn lib buf).state.lz4CompressMaxBytes = 1024 := by
  unfold readTurn decoded
  by_cases hr : m.lz4Rbuf.isEmpty
  · simp only [hr, Bool.not_true, Bool.false_eq_true, if_false, true_and]
    cases m.lz4DecodeIns with
    | none => exact ⟨rfl, hmax⟩
    | some ins =>
      cases m.lz4Dbuf with
      | none => exact ⟨rfl, hmax⟩
      | some dbuf =>
        dsimp only
        by_cases hfull : m.lz4Doffset = m.lz4Dneed
        · cases hinit : m.lz4Dinit with
          | false => simpa [hfull, hmax] using sizeTurn_offset (m := m) dbuf buf
          | true => simpa [hfull] using decodeTurn_offset ins dbuf buf hmax
        · simpa [hfull, hmax] using fillTurn_offset (m := m) dbuf buf
  · simp only [hr, Bool.not_false, if_true, Bool.false_eq_true, false_and, if_false]
    refine ⟨?_, hmax⟩
    split <;> rfl

/-- The offset of the decoder is that of a ring with the limit 2028. -/
theorem decoder_offset (lz4Stream : S) (bufs : List ReadBuf) :
    (decoder lib lz4Stream bufs).lz4.lz4DringOffset =
      Ring.offset 2028 (decoder lib lz4Stream bufs).blocks := by
  refine (after_invariant (I := fun d : Traced S E D => d.lz4.lz4DringOffset =
    Ring.offset 2028 d.blocks ∧ d.lz4.lz4CompressMaxBytes = 1024) ?_ ⟨rfl, rfl⟩).1
  rintro d buf ⟨hoff, hmax⟩
  obtain ⟨hstep, hmax'⟩ := readTurn_offset lib buf hmax
  refine ⟨?_, hmax'⟩
  rw [Traced.read, hstep, hoff, Ring.offset, Ring.offset, after_append]

end

/-! ## Both ends -/

theorem length_encoded (buf : Bytes) : (m.encoded lib buf).length ≤ 1 := by
  unfold encoded
  split
  · split <;> simp
  · simp

theorem length_decoded : (m.decoded lib).length ≤ 1 := by
  unfold decoded
  split
  · split <;> simp
  · simp

/-- The offsets of the two ends agree behind every number of blocks exactly when the blocks since a
wrap of the encoder never add up to the gap between the two limits. -/
theorem offsets_agree_iff [AsyncWrite S] [AsyncRead T] {writer : S} {reader : T}
    {writes : List Bytes} {reads : List ReadBuf}
    (hblocks : (encoder lib writer writes).blocks = (decoder lib reader reads).blocks) :
    (∀ ws rs, ws <+: writes → rs <+: reads →
      (encoder lib writer ws).blocks = (decoder lib reader rs).blocks →
      (encoder lib writer ws).lz4.lz4EringOffset = (decoder lib reader rs).lz4.lz4DringOffset) ↔
    Ring.NoGap 2028 2048 (encoder lib writer writes).blocks := by
  rw [← Ring.offset_eq_iff (by decide) (by decide)]
  constructor
  · intro h pre hpre
    obtain ⟨ws, hws, hwblocks⟩ := exists_prefix Traced.blocks
      (fun e buf => ⟨_, length_encoded buf, rfl⟩) List.nil_prefix hpre
    obtain ⟨rs, hrs, hrblocks⟩ := exists_prefix Traced.blocks
      (fun d buf => ⟨_, length_decoded, rfl⟩) List.nil_prefix (hblocks ▸ hpre)
    have hoff := h ws rs hws hrs (hwblocks.trans hrblocks.symm)
    rwa [encoder_offset, decoder_offset, encoder, decoder, hwblocks, hrblocks] at hoff
  · intro h ws rs hws hrs hsame
    rw [encoder_offset, decoder_offset, ← hsame]
    exact h _ (trace_isPrefix (fun e buf => List.prefix_append _ _) hws)

/-- A library for blocks of zeros, which are compressed to their length. -/
def zeros : Lz4 Unit Unit where
  createStream := some ()
  createStreamDecode := some ()
  compressFastContinue _ _ _ srcSize _ := ((), (toLeBytes srcSize).take 2)
  decompressSafeContinue _ src _ _ _ := ((), .replicate (fromLeBytes src) 0)

/-- A stream that is ready at once and holds two blocks. -/
def holdingBlocks (size₁ size₂ : Nat) : Duplex where
  incoming := toLeBytes 2 ++ (toLeBytes size₁).take 2 ++ toLeBytes 2 ++ (toLeBytes size₂).take 2
  reads := .replicate 4 (.upTo 9)
  writes := .replicate 2 (.upTo 9)
  closes := []
  sent := []

/-- The turns that write two blocks of zeros. -/
def writing (size₁ size₂ : Nat) : List Bytes :=
  .replicate 2 (.replicate size₁ 0) ++ .replicate 2 (.replicate size₂ 0)

/-- The turns that read two blocks. -/
def reading : List ReadBuf := .replicate 10 (.new 2048)

theorem offsets_agree_iff_writing :
    (encoder zeros (holdingBlocks 1024 1000) (writing 1024 1000)).lz4.lz4EringOffset =
      (decoder zeros (holdingBlocks 1024 1000) reading).lz4.lz4DringOffset := by
  have hwritten : (encoder zeros (holdingBlocks 1024 1000) (writing 1024 1000)).blocks =
      [1024, 1000] := by decide +kernel
  have hread : (decoder zeros (holdingBlocks 1024 1000) reading).blocks = [1024, 1000] := by
    decide +kernel
  have hgap : Ring.NoGap 2028 2048 [1024, 1000] :=
    (Ring.offset_eq_iff (by decide) (by decide)).1 fun pre hpre => by
      revert pre
      simp only [← List.mem_inits]
      decide
  exact (offsets_agree_iff (hwritten.trans hread.symm)).2 (hwritten ▸ hgap) _ _ List.prefix_rfl
    List.prefix_rfl (hwritten.trans hread.symm)

/-- Behind blocks of 1024 and 1004 bytes the encoder is at 2028 and the decoder at 0. -/
theorem not_offsets_agree : ¬∀ (E D : Type) (lib : Lz4 E D) (writer reader : Duplex)
    (writes : List Bytes) (reads : List ReadBuf),
    (encoder lib writer writes).blocks = (decoder lib reader reads).blocks →
    (∀ size ∈ (encoder lib writer writes).blocks, 1 ≤ size ∧ size ≤ 1024) →
    (encoder lib writer writes).lz4.lz4EringOffset =
      (decoder lib reader reads).lz4.lz4DringOffset := by
  intro h
  have hwritten : (encoder zeros (holdingBlocks 1024 1004) (writing 1024 1004)).blocks =
      [1024, 1004] := by decide +kernel
  have hread : (decoder zeros (holdingBlocks 1024 1004) reading).blocks = [1024, 1004] := by
    decide +kernel
  have hoff := h _ _ zeros _ _ _ _ (hwritten.trans hread.symm) (by rw [hwritten]; decide)
  rw [encoder_offset, decoder_offset, hwritten, hread] at hoff
  exact absurd hoff (by decide)

end Fuso.Lz4Compress

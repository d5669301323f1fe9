import Fuso.Compress.Lz4
import Fuso.Theory.Run

/-!
# The rings stay in bounds

The copies into the rings of `Lz4Compress` are raw ones, and only the offsets keep them inside.
`Rings` is what every turn of a `poll_write` and a `poll_read` keeps, whatever is written and
whatever arrives: an offset that is not reset leaves room for the greatest block. `rings_in_bounds`
says so of every copy of a run.
-/

namespace Fuso

/-- The library writes no more than it is given room for. -/
def Lz4.Bounded {E D : Type} (lib : Lz4 E D) : Prop :=
  ∀ stream src ring offset cap,
    (lib.decompressSafeContinue stream src ring offset cap).2.length ≤ cap

namespace Lz4Compress
variable {S E D : Type}

/-- A turn of a `poll_write` or a `poll_read`. -/
inductive RingEvent where
  | write (buf : Bytes)
  | read (buf : ReadBuf)

def ringStep [AsyncRead S] [AsyncWrite S] (lib : Lz4 E D) :
    RingEvent → Lz4Compress S E D → Lz4Compress S E D
  | .write buf, m => (m.writeTurn lib buf).state
  | .read buf, m => (m.readTurn lib buf).state

/-- The copies of the next turn are in the rings: the next part of any buffer that is written, all
that the library may write of a block, and the block itself. -/
structure InBounds (lib : Lz4 E D) (m : Lz4Compress S E D) : Prop where
  encode : ∀ buf, m.lz4EringOffset + m.compressLen buf ≤ 3072
  decode : m.lz4DringOffset + m.lz4CompressMaxBytes ≤ 3072
  slice : ∀ ins dbuf, m.lz4DringOffset + (m.decompress lib ins dbuf).2.length ≤ 3072
  max_bytes : m.lz4CompressMaxBytes = 1024
  ering_length : m.lz4EringBuf.length = 3072
  dring_length : m.lz4DringBuf.length = 3072

/-- Between two turns. -/
structure Rings (m : Lz4Compress S E D) : Prop where
  max_bytes : m.lz4CompressMaxBytes = 1024
  ering_length : m.lz4EringBuf.length = ringCapacity
  dring_length : m.lz4DringBuf.length = ringCapacity
  ering_offset : m.lz4EringOffset < 2048
  dring_offset : m.lz4DringOffset < 2028

variable {lib : Lz4 E D} {m m' : Lz4Compress S E D}

theorem rings_new (lib : Lz4 E D) (lz4Stream : S) : Rings (new lib lz4Stream) where
  max_bytes := rfl
  ering_length := List.length_replicate
  dring_length := List.length_replicate
  ering_offset := Nat.zero_lt_succ _
  dring_offset := Nat.zero_lt_succ _

/-- What `Rings` is about. -/
def ringView (m : Lz4Compress S E D) : Nat × Bytes × Bytes × Nat × Nat :=
  (m.lz4CompressMaxBytes, m.lz4EringBuf, m.lz4DringBuf, m.lz4EringOffset, m.lz4DringOffset)

theorem Rings.of_view (h : Rings m) (hview : m'.ringView = m.ringView) : Rings m' := by
  simp only [ringView, Prod.mk.injEq] at hview
  obtain ⟨hmax, hering, hdring, heoffset, hdoffset⟩ := hview
  exact ⟨hmax ▸ h.max_bytes, hering ▸ h.ering_length, hdring ▸ h.dring_length,
    heoffset ▸ h.ering_offset, hdoffset ▸ h.dring_offset⟩

theorem Rings.compressLen_le (h : Rings m) (buf : Bytes) : m.compressLen buf ≤ 1024 := by
  have hmax := h.max_bytes
  simp only [compressLen]
  split <;> omega

theorem Rings.decompress_le (h : Rings m) (hlib : lib.Bounded) (ins : D) (dbuf : Bytes) :
    (m.decompress lib ins dbuf).2.length ≤ 1024 :=
  Nat.le_trans (hlib ..) (Nat.le_of_eq h.max_bytes)

theorem Rings.inBounds (h : Rings m) (hlib : lib.Bounded) : InBounds lib m where
  encode buf := by
    have hlen := h.compressLen_le buf
    have hoffset := h.ering_offset
    omega
  decode := by
    have hoffset := h.dring_offset
    have hmax := h.max_bytes
    omega
  slice ins dbuf := by
    have hlen := h.decompress_le hlib ins dbuf
    have hoffset := h.dring_offset
    omega
  max_bytes := h.max_bytes
  ering_length := h.ering_length
  dring_length := h.dring_length

/-! ## A turn of a write -/

/-- Without a reset the offset of the encoder stays below its limit. -/
theorem Rings.nextEringOffset_lt (h : Rings m) (len : Nat) : m.nextEringOffset len < 2048 := by
  have hmax := h.max_bytes
  simp only [nextEringOffset, hmax, ringCapacity]
  split <;> omega

theorem Rings.eringWith_length (h : Rings m) (buf : Bytes) :
    (m.eringWith buf).length = ringCapacity := by
  have hlen := h.compressLen_le buf
  have hoffset := h.ering_offset
  have hring := h.ering_length
  rw [eringWith, length_overwrite, hring]
  rw [List.length_take, hring, ringCapacity]
  omega

theorem Rings.encode (h : Rings m) (ins : E) (buf : Bytes) :
    Rings (m.encodeTurn lib ins buf).state := by
  have hring := h.eringWith_length buf
  simp only [encodeTurn]
  split
  · exact h
  · split
    · exact ⟨h.max_bytes, hring, h.dring_length, h.ering_offset, h.dring_offset⟩
    · exact ⟨h.max_bytes, hring, h.dring_length, h.nextEringOffset_lt _, h.dring_offset⟩

theorem flushTurn_view [AsyncWrite S] (m : Lz4Compress S E D) (ebuf buf : Bytes) :
    (m.flushTurn ebuf buf).state.ringView = m.ringView := by
  unfold flushTurn
  split
  · rfl
  · split
    · rfl
    · rfl
    · dsimp only
      split_ifs <;> rfl

theorem Rings.write [AsyncWrite S] (h : Rings m) (buf : Bytes) :
    Rings (m.writeTurn lib buf).state := by
  unfold writeTurn
  split
  · exact h
  · split
    · exact h.of_view (flushTurn_view m _ buf)
    · exact h.encode _ buf

/-! ## A turn of a read -/

/-- Nor does the one of the decoder, whose limit is lower. -/
theorem Rings.nextDringOffset_lt (h : Rings m) (len : Nat) : m.nextDringOffset len < 2028 := by
  have hmax := h.max_bytes
  have hbound : compressBound 1024 = 1044 := rfl
  simp only [nextDringOffset, hmax, hbound, ringCapacity]
  split <;> omega

theorem Rings.decode (h : Rings m) (hlib : lib.Bounded) (ins : D) (dbuf : Bytes) (buf : ReadBuf) :
    Rings (m.decodeTurn lib ins dbuf buf).state := by
  have hring : (overwrite m.lz4DringBuf m.lz4DringOffset (m.decompress lib ins dbuf).2).length =
      ringCapacity := by
    have hlen := h.decompress_le hlib ins dbuf
    have hoffset := h.dring_offset
    rw [length_overwrite, h.dring_length]
    rw [h.dring_length, ringCapacity]
    omega
  have hnext := h.nextDringOffset_lt (m.decompress lib ins dbuf).2.length
  simp only [decodeTurn]
  split
  · exact ⟨h.max_bytes, h.ering_length, hring, h.ering_offset, h.dring_offset⟩
  · split <;> exact ⟨h.max_bytes, h.ering_length, hring, h.ering_offset, hnext⟩

theorem sizeTurn_view (m : Lz4Compress S E D) (dbuf : Bytes) (buf : ReadBuf) :
    (m.sizeTurn dbuf buf).state.ringView = m.ringView := by
  simp only [sizeTurn]
  split <;> rfl

theorem fillTurn_view [AsyncRead S] (m : Lz4Compress S E D) (dbuf : Bytes) (buf : ReadBuf) :
    (m.fillTurn dbuf buf).state.ringView = m.ringView := by
  unfold fillTurn
  split
  · rfl
  · split
    · rfl
    · rfl
    · split <;> rfl

theorem Rings.read [AsyncRead S] (h : Rings m) (hlib : lib.Bounded) (buf : ReadBuf) :
    Rings (m.readTurn lib buf).state := by
  unfold readTurn
  split
  · exact h.of_view rfl
  · split
    · exact h
    · split
      · exact h.of_view rfl
      · split
        · exact h.of_view (sizeTurn_view m _ buf)
        · split
          · exact h.decode hlib _ _ buf
          · exact h.of_view (fillTurn_view m _ buf)

/-! ## Runs -/

/-- Whatever is written and whatever arrives, every copy is in the rings, which keep their
length. -/
theorem rings_in_bounds [AsyncRead S] [AsyncWrite S] (hlib : lib.Bounded) (lz4Stream : S)
    (events : List RingEvent) :
    InBounds lib (after (ringStep lib) (new lib lz4Stream) events) := by
  have hstep : ∀ (m : Lz4Compress S E D) e, Rings m → Rings (ringStep lib e m) := by
    intro m e h
    cases e with
    | write buf => exact h.write buf
    | read buf => exact h.read hlib buf
  have hrings : Rings (after (ringStep lib) (new lib lz4Stream) events) :=
    after_invariant hstep (rings_new lib lz4Stream)
  exact hrings.inBounds hlib

/-- A library that stores blocks as they are, as far as there is room. -/
def storing : Lz4 Unit Unit where
  createStream := some ()
  createStreamDecode := some ()
  compressFastContinue _ ring offset srcSize _ := ((), (ring.drop offset).take srcSize)
  decompressSafeContinue _ src _ _ cap := ((), src.take cap)

/-- A stream that takes what it is given once. -/
def sink : Duplex := ⟨[], [], [.upTo 4096], [], []⟩

/-- Two blocks are compressed, and the first one is sent between them. -/
theorem rings_in_bounds_storing :
    InBounds storing (after (ringStep storing) (new storing sink)
      [.write (.replicate 2000 0), .write (.replicate 2000 0), .write (.replicate 2000 0)]) :=
  rings_in_bounds (fun _ src _ _ cap => List.length_take_le cap src) _ _

end Lz4Compress
end Fuso

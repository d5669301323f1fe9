import Fuso.Async.Endian
import Fuso.Guard.Buffer
import Fuso.Theory.Turn

/-!
# `Lz4Compress`

A stream whose bytes go through LZ4 block by block. Every block is compressed out of a ring and
decompressed into one, and both ends count their own offset. `writeTurn` is one turn of the loop of
`poll_encode_write`, `readTurn` one turn of the loop of `poll_decode_read`; a `poll_write` and a
`poll_read` begin with the checks that these make on every turn. The library itself is a parameter
(`Lz4`).
-/

namespace Fuso

/-- The functions of the library. The blocks before the current one are still in the ring and count.
An empty block stands for a result that is not positive. -/
structure Lz4 (E D : Type) where
  createStream : Option E
  createStreamDecode : Option D
  /-- Compresses `srcSize` bytes of `ring` from `offset` on. -/
  compressFastContinue (stream : E) (ring : Bytes) (offset srcSize dstCapacity : Nat) : E × Bytes
  /-- Decompresses `src`, to go to `offset` of `ring`. -/
  decompressSafeContinue (stream : D) (src : Bytes) (ring : Bytes) (offset dstCapacity : Nat) :
    D × Bytes

/-- `LZ4_COMPRESSBOUND`. -/
def compressBound (size : Nat) : Nat :=
  if 0x7E000000 < size then 0 else size + size / 255 + 16

structure Lz4Compress (S E D : Type) where
  lz4Stream : S
  lz4Rbuf : Buffer UInt8
  lz4Ebuf : Option Bytes
  lz4Dbuf : Option Bytes
  lz4Dneed : Nat
  lz4Doffset : Nat
  lz4Dinit : Bool
  lz4EringBuf : Bytes
  lz4DringBuf : Bytes
  lz4DringOffset : Nat
  lz4EringOffset : Nat
  lz4Woffset : Nat
  lz4CompressedOffset : Nat
  lz4CompressMaxBytes : Nat
  lz4EncodeIns : Option E
  lz4DecodeIns : Option D

namespace Lz4Compress
variable {S E D : Type}

/-- The capacity of the rings. -/
def ringCapacity : Nat := 1024 * 2 + 1024

def new (lib : Lz4 E D) (lz4Stream : S) : Lz4Compress S E D where
  lz4Stream := lz4Stream
  lz4Rbuf := .new
  lz4Ebuf := none
  lz4Dbuf := none
  lz4Dneed := 0
  lz4Doffset := 0
  lz4Dinit := false
  lz4EringBuf := .replicate ringCapacity 0
  lz4DringBuf := .replicate ringCapacity 0
  lz4DringOffset := 0
  lz4EringOffset := 0
  lz4Woffset := 0
  lz4CompressedOffset := 0
  lz4CompressMaxBytes := 1024
  lz4EncodeIns := lib.createStream
  lz4DecodeIns := lib.createStreamDecode

section
variable (lib : Lz4 E D) (m : Lz4Compress S E D)

/-! ## Writing -/

/-- The number of bytes of `buf` that the next block takes. -/
def compressLen (buf : Bytes) : Nat :=
  let needCompressLen := buf.length - m.lz4CompressedOffset
  if needCompressLen < m.lz4CompressMaxBytes then needCompressLen
  else
    let diff := needCompressLen - m.lz4CompressMaxBytes
    needCompressLen - diff

/-- The ring with the next block of `buf` in it. -/
def eringWith (buf : Bytes) : Bytes :=
  overwrite m.lz4EringBuf m.lz4EringOffset
    ((buf.drop m.lz4CompressedOffset).take (m.compressLen buf))

/-- The call of the library for the next block of `buf`. -/
def compress (ins : E) (buf : Bytes) : E × Bytes :=
  lib.compressFastContinue ins (m.eringWith buf) m.lz4EringOffset (m.compressLen buf)
    (compressBound m.lz4CompressMaxBytes)

def nextEringOffset (len : Nat) : Nat :=
  if m.lz4EringOffset + len ≥ ringCapacity - m.lz4CompressMaxBytes then 0
  else m.lz4EringOffset + len

/-- The arm without `lz4_ebuf`: the next block is compressed. -/
def encodeTurn (ins : E) (buf : Bytes) : Turn (Lz4Compress S E D) (Exit Nat) :=
  if buf.length < m.lz4CompressedOffset then .ready m .panic
  else
    let (ins, compressed) := m.compress lib ins buf
    let m' := { m with lz4EringBuf := m.eringWith buf, lz4EncodeIns := some ins }
    if compressed = [] then .ready m' (.ret (.error (.lz4 .compress)))
    else .again { m' with
      lz4CompressedOffset := m.lz4CompressedOffset + m.compressLen buf
      lz4EringOffset := m.nextEringOffset (m.compressLen buf)
      lz4Ebuf := some (toLeBytes compressed.length ++ compressed) }

variable [AsyncRead S] [AsyncWrite S]

/-- The arm with `lz4_ebuf`, which is taken. -/
def flushTurn (ebuf buf : Bytes) : Turn (Lz4Compress S E D) (Exit Nat) :=
  if ebuf.length < m.lz4Woffset then .ready { m with lz4Ebuf := none } .panic
  else match pollWrite m.lz4Stream (ebuf.drop m.lz4Woffset) with
  | (lz4Stream, .pending) => .pending { m with lz4Stream }
  | (lz4Stream, .ready (.error e)) =>
    .ready { m with lz4Stream, lz4Ebuf := none } (.ret (.error e))
  | (lz4Stream, .ready (.ok n)) =>
    if n = 0 then .ready { m with lz4Stream, lz4Ebuf := none } (.ret (.ok n))
    else
      let m := { m with lz4Stream, lz4Woffset := m.lz4Woffset + n }
      if m.lz4Woffset = ebuf.length ∧ m.lz4CompressedOffset = buf.length then
        .ready { m with lz4Ebuf := none, lz4Woffset := 0, lz4CompressedOffset := 0 }
          (.ret (.ok buf.length))
      else if m.lz4Woffset = ebuf.length then
        .again { m with lz4Ebuf := none, lz4Woffset := 0 }
      else .again m

def writeTurn (buf : Bytes) : Turn (Lz4Compress S E D) (Exit Nat) :=
  match m.lz4EncodeIns with
  | none => .ready m (.ret (.error (.lz4 .encodeReleased)))
  | some ins =>
    match m.lz4Ebuf with
    | some ebuf => m.flushTurn ebuf buf
    | none => m.encodeTurn lib ins buf

/-! ## Reading -/

/-- The call of the library for the block in `dbuf`. -/
def decompress (ins : D) (dbuf : Bytes) : D × Bytes :=
  lib.decompressSafeContinue ins (dbuf.take m.lz4Dneed) m.lz4DringBuf m.lz4DringOffset
    m.lz4CompressMaxBytes

/-- In this comparison `max_bytes` is the one of the loop, the bound of a compressed block. -/
def nextDringOffset (len : Nat) : Nat :=
  if m.lz4DringOffset + len ≥ ringCapacity - compressBound m.lz4CompressMaxBytes then 0
  else m.lz4DringOffset + len

/-- The arm with a whole block in `lz4_dbuf`, which is taken. -/
def decodeTurn (ins : D) (dbuf : Bytes) (buf : ReadBuf) :
    Turn (Lz4Compress S E D) (ReadBuf × Exit Nat) :=
  let (ins, block) := m.decompress lib ins dbuf
  let m' := { m with
    lz4Dbuf := none, lz4DecodeIns := some ins
    lz4DringBuf := overwrite m.lz4DringBuf m.lz4DringOffset block }
  if block = [] then .ready m' (buf, .ret (.error (.lz4 .decompress)))
  else
    let m' := { m' with
      lz4Dinit := false, lz4Dneed := 0, lz4Doffset := 0
      lz4DringOffset := m.nextDringOffset block.length }
    if buf.remaining < block.length then
      .ready { m' with lz4Rbuf := m.lz4Rbuf.pushAll (block.drop buf.remaining) }
        (buf.put (block.take buf.remaining), .ret (.ok buf.remaining))
    else .ready m' (buf.put block, .ret (.ok block.length))

/-- The arm that reads what is still missing in `lz4_dbuf`, which is taken. -/
def fillTurn (dbuf : Bytes) (buf : ReadBuf) : Turn (Lz4Compress S E D) (ReadBuf × Exit Nat) :=
  if m.lz4Dneed < m.lz4Doffset ∨ dbuf.length < m.lz4Dneed then
    .ready { m with lz4Dbuf := none } (buf, .panic)
  else match pollRead m.lz4Stream (.new (m.lz4Dneed - m.lz4Doffset)) with
  | (lz4Stream, data, .pending) =>
    .pending { m with lz4Stream, lz4Dbuf := some (overwrite dbuf m.lz4Doffset data.filled) }
  | (lz4Stream, _, .ready (.error e)) =>
    .ready { m with lz4Stream, lz4Dbuf := none } (buf, .ret (.error e))
  | (lz4Stream, data, .ready (.ok n)) =>
    if n = 0 then
      .ready { m with lz4Stream, lz4Dbuf := none, lz4Dneed := 0, lz4Doffset := 0 }
        (buf, .ret (.ok 0))
    else .again { m with
      lz4Stream, lz4Doffset := m.lz4Doffset + n
      lz4Dbuf := some (overwrite dbuf m.lz4Doffset data.filled) }

/-- The arm with the size of the next block in `lz4_dbuf`, which is taken. A size that is negative
as an `i32` is above the bound as a `usize`. -/
def sizeTurn (dbuf : Bytes) (buf : ReadBuf) : Turn (Lz4Compress S E D) (ReadBuf × Exit Nat) :=
  let maxBytes := compressBound m.lz4CompressMaxBytes
  let needSize := fromLeBytes (dbuf.take 4)
  if needSize = 0 ∨ maxBytes < needSize then
    .ready { m with lz4Dbuf := none } (buf, .ret (.error (.lz4 .decompress)))
  else .again { m with
    lz4Dneed := needSize, lz4Doffset := 0, lz4Dinit := true
    lz4Dbuf := some (.replicate maxBytes 0) }

def readTurn (buf : ReadBuf) : Turn (Lz4Compress S E D) (ReadBuf × Exit Nat) :=
  if !m.lz4Rbuf.isEmpty then
    let (data, lz4Rbuf) := m.lz4Rbuf.readToBuffer buf.remaining
    .ready { m with lz4Rbuf } (buf.put data, .ret (.ok data.length))
  else match m.lz4DecodeIns with
  | none => .ready m (buf, .ret (.error (.lz4 .encodeReleased)))
  | some ins =>
    match m.lz4Dbuf with
    | none => .again { m with lz4Dneed := 4, lz4Dbuf := some (.replicate 4 0) }
    | some dbuf =>
      if m.lz4Doffset = m.lz4Dneed ∧ !m.lz4Dinit then m.sizeTurn dbuf buf
      else if m.lz4Doffset = m.lz4Dneed ∧ m.lz4Dinit then m.decodeTurn lib ins dbuf buf
      else m.fillTurn dbuf buf

end
end Lz4Compress
end Fuso

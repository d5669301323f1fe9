import Fuso.Compress.Lz4Read
import Fuso.Compress.Lz4Write

/-!
# What comes out of a compressed stream

A single writer and a reader at the two ends of a compressed stream. `lossless`: whatever the
library does, if it is a block codec then the buffers come out as they went in.
-/

namespace Fuso.Lz4Compress
open Turn Lz4

variable {E D : Type} {lib : Lz4 E D} {e₀ : E} {d₀ : D}

/-- The decoder takes the size of the block. -/
def Accepts (m : Lz4Compress Duplex E D) (compressed : Bytes) : Prop :=
  ∀ buf, ∃ m', m.sizeTurn (toLeBytes compressed.length) buf = .again m' ∧
    m'.lz4Dneed = compressed.length ∧ m'.lz4Dinit = true

theorem accepts (h : m.lz4CompressMaxBytes = 1024) (hpos : 1 ≤ compressed.length)
    (hle : compressed.length ≤ 1044) : Accepts m compressed := by
  intro buf
  have hmax : compressBound m.lz4CompressMaxBytes = 1044 := by
    rw [h]
    rfl
  have hneed : fromLeBytes ((toLeBytes compressed.length).take 4) = compressed.length := by
    rw [List.take_of_length_le (Nat.le_of_eq length_toLeBytes)]
    exact fromLeBytes_toLeBytes (by omega)
  have hgood : ¬ (compressed.length = 0 ∨ 1044 < compressed.length) := by omega
  refine ⟨{ m with
    lz4Dneed := compressed.length, lz4Doffset := 0, lz4Dinit := true
    lz4Dbuf := some (.replicate 1044 0) }, ?_, rfl, rfl⟩
  simp only [sizeTurn, hmax, hneed, if_neg hgood]

/-- A compressed stream at one end of a fresh stream that takes bytes as `writes` says. -/
def writeEnd (lib : Lz4 E D) (writes : List Answer) : Lz4Compress Duplex E D :=
  new lib ⟨[], [], writes, [], []⟩

/-- A compressed stream at the other end, with the bytes on the wire and the answers to its reads.
-/
def readEnd (lib : Lz4 E D) (wire : Bytes) (reads : List Answer) : Lz4Compress Duplex E D :=
  new lib ⟨wire, reads, [], [], []⟩

theorem idle_writeEnd (hlib : Coder lib e₀ d₀) (writes : List Answer) :
    Idle lib e₀ [] (writeEnd lib writes) :=
  idle_new hlib rfl

/-- At least the number of bytes on the wire for `bufs`. -/
def wireBound (bufs : List Bytes) : Nat := (bufs.map fun buf => 1048 * blockCount buf.length).sum

/-- However the writes and the reads are cut, every write is ready with the length of its buffer,
the decoder takes every size, and the reads deliver the buffers. -/
theorem lossless (hlib : BlockCodec lib e₀ d₀) (bufs : List Bytes) (hne : ∀ buf ∈ bufs, buf ≠ []) :
    (∀ writes rs m, Writes (fun buf m => m.writeTurn lib buf) (writeEnd lib writes) bufs rs m →
      rs = bufs.map (fun buf => .ret (.ok buf.length)) ∧
      (∃ blocks : List Bytes,
        m.lz4Stream.sent = (blocks.map fun c => toLeBytes c.length ++ c).flatten ∧
          ∀ c ∈ blocks, ∀ m : Lz4Compress Duplex E D, m.lz4CompressMaxBytes = 1024 → Accepts m c) ∧
      ∀ reads, Yields (pollInto lib) (readEnd lib m.lz4Stream.sent reads) bufs.flatten ∧
        (m.lz4Stream.sent.length ≤ (sizes reads).length →
          Completes (pollInto lib) (readEnd lib m.lz4Stream.sent reads) bufs.flatten)) ∧
    ∃ n, ∀ writes, n ≤ (sizes writes).length →
      ∃ rs m, Writes (fun buf m => m.writeTurn lib buf) (writeEnd lib writes) bufs rs m := by
  have hcoder := hlib.toCoder
  have hstart : ∀ writes, Idle lib e₀ ([] : List Bytes).flatten (writeEnd lib writes) :=
    idle_writeEnd hcoder
  refine ⟨fun writes rs m H => ?_, wireBound bufs, fun writes hle => ?_⟩
  · have hstep : ∀ done buf (m m' : Lz4Compress Duplex E D) r, buf ∈ bufs →
        Idle lib e₀ done.flatten m → Drives (·.writeTurn lib buf) m m' r →
        r = .ret (.ok buf.length) ∧ Idle lib e₀ (done ++ [buf]).flatten m' := by
      intro done buf m m' r hbuf h H
      have hroom : False → m.lz4Stream.Roomy (1048 * blockCount buf.length + 0) := False.elim
      obtain ⟨rfl, h', -⟩ := h.drives hcoder (hne buf hbuf) hroom H
      rw [List.flatten_append, List.flatten_singleton]
      exact ⟨rfl, h'⟩
    obtain ⟨rfl, h⟩ := H.post hstep (hstart writes)
    obtain ⟨pairs, e, -, hcomp, -, htotal, hsent⟩ := h.encoding.blocks
    rw [List.nil_append] at htotal
    rw [unsent, h.ebuf, List.append_nil] at hsent
    refine ⟨rfl, ⟨pairs.map Prod.fst, ?_, fun c hc m hmax => ?_⟩, fun reads => ?_⟩
    · rw [hsent, List.map_map]
      rfl
    · obtain ⟨pair, hpair, rfl⟩ := List.mem_map.1 hc
      obtain ⟨hpos, hle⟩ := hlib.size _ _ hcomp pair hpair
      exact accepts hmax hpos hle
    · have hleft := left_new (decodesNew hlib hcomp) reads
      rw [hsent, ← htotal]
      exact ⟨(reader lib).yields hleft, (reader lib).completes hleft⟩
  · refine exists_writes (I := fun done m => Idle lib e₀ done.flatten m)
      (fun rest m => m.lz4Stream.Roomy (wireBound rest))
      (fun done buf rest m hbuf h hroom => ?_) (hstart writes) hle
    rw [wireBound, List.map_cons, List.sum_cons] at hroom
    obtain ⟨m', r, H⟩ := h.exists_drives hcoder (hne buf hbuf) hroom
    obtain ⟨-, h', hroom'⟩ := h.drives hcoder (hne buf hbuf) (fun _ : True => hroom) H
    refine ⟨m', r, H, ?_, hroom' trivial⟩
    rw [List.flatten_append, List.flatten_singleton]
    exact h'

/-- A codec that leaves every block as it is. -/
def stored : Lz4 Unit Unit where
  createStream := some ()
  createStreamDecode := some ()
  compressFastContinue _ ring offset srcSize _ := ((), (ring.drop offset).take srcSize)
  decompressSafeContinue _ src _ _ _ := ((), src)

theorem eq_of_compresses_stored (h : Compresses stored () pairs e) :
    ∀ pair ∈ pairs, pair.1 = pair.2 := by
  induction h with
  | nil => simp
  | @snoc pairs e e' ring compressed offset size cap _ _ _ _ _ hcall ih =>
    intro pair hpair
    rcases List.mem_append.1 hpair with hpair | hpair
    · exact ih pair hpair
    · obtain rfl := List.mem_singleton.1 hpair
      exact (congrArg Prod.snd hcall).symm

theorem blockCodec_stored : BlockCodec stored () () where
  createStream := rfl
  createStreamDecode := rfl
  size pairs e h pair hpair := by
    have := h.length_block pair hpair
    rw [eq_of_compresses_stored h pair hpair]
    omega
  lossless pairs src block rest e d ring offset cap h _ _ _ :=
    eq_of_compresses_stored h (src, block) (by simp)

/-- Two buffers. -/
theorem lossless_two : ∃ writes rs m,
    Writes (fun buf m => m.writeTurn stored buf) (writeEnd stored writes) [[1, 2, 3], [4]] rs m ∧
      rs = [.ret (.ok 3), .ret (.ok 1)] ∧
      Yields (pollInto stored) (readEnd stored m.lz4Stream.sent [.upTo 6]) [1, 2, 3, 4] := by
  obtain ⟨hall, n, hex⟩ := lossless blockCodec_stored [[1, 2, 3], [4]] (by decide)
  obtain ⟨rs, m, H⟩ := hex (.replicate n (.upTo 0)) (Nat.le_of_eq (length_sizes_replicate _ _).symm)
  obtain ⟨hrs, -, hyields⟩ := hall _ rs m H
  exact ⟨_, rs, m, H, hrs, (hyields _).1⟩

end Fuso.Lz4Compress

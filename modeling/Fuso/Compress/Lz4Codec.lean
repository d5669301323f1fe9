import Fuso.Compress.Lz4
import Mathlib.Data.List.Induction

/-!
# The LZ4 library as a block codec

Two streams of the library, one that compresses blocks and one that decompresses them in the same
order. A compressed block is not empty and no longer than the bound (`Coder`). Two promises follow
of what the decoder makes of the blocks. A `BlockCodec` gives them back wherever they lie, which is
more than `lz4.h` says of rings as small as these. A `RowCodec` gives them back if at both ends they
lie in a row, one behind the other, and none is overwritten, as `lz4.h` says of every buffer. What
the reader needs of either is `Decodes`.
-/

namespace Fuso.Lz4
variable {E D : Type}

/-- Calls of the library compress blocks of 1 to 1024 bytes out of some ring, one after the other:
the pairs of a compressed block and the block. -/
inductive Compresses (lib : Lz4 E D) (start : E) : List (Bytes × Bytes) → E → Prop where
  | nil : Compresses lib start [] start
  | snoc {pairs : List (Bytes × Bytes)} {e e' : E} {ring compressed : Bytes}
      {offset size cap : Nat} : Compresses lib start pairs e → 0 < size → size ≤ 1024 →
      offset + size ≤ ring.length → 1044 ≤ cap →
      lib.compressFastContinue e ring offset size cap = (e', compressed) →
      Compresses lib start (pairs ++ [(compressed, (ring.drop offset).take size)]) e'

/-- Calls of the library decompress blocks into some ring, one after the other. -/
inductive Decompresses (lib : Lz4 E D) (start : D) : List Bytes → D → Prop where
  | nil : Decompresses lib start [] start
  | snoc : Decompresses lib start blocks d → offset + cap ≤ ring.length → 1024 ≤ cap →
      lib.decompressSafeContinue d src ring offset cap = (d', block) →
      Decompresses lib start (blocks ++ [src]) d'

/-- Compressed blocks are of 1 to 1044 bytes, whatever was in the ring. -/
structure Coder (lib : Lz4 E D) (e₀ : E) (d₀ : D) : Prop where
  createStream : lib.createStream = some e₀
  createStreamDecode : lib.createStreamDecode = some d₀
  size : ∀ pairs e, Compresses lib e₀ pairs e →
    ∀ pair ∈ pairs, 1 ≤ pair.1.length ∧ pair.1.length ≤ 1044

structure BlockCodec (lib : Lz4 E D) (e₀ : E) (d₀ : D) : Prop extends Coder lib e₀ d₀ where
  lossless : ∀ pairs src block rest e d ring offset cap,
    Compresses lib e₀ (pairs ++ (src, block) :: rest) e →
    Decompresses lib d₀ (pairs.map Prod.fst) d → offset + cap ≤ ring.length → 1024 ≤ cap →
    (lib.decompressSafeContinue d src ring offset cap).2 = block

/-- Such calls of blocks that lie in a row, from the front of the ring to `offset`. -/
inductive CompressesRow (lib : Lz4 E D) (start : E) : List (Bytes × Bytes) → E → Prop where
  | nil : CompressesRow lib start [] start
  | snoc {pairs : List (Bytes × Bytes)} {e e' : E} {ring compressed : Bytes}
      {offset size cap : Nat} : CompressesRow lib start pairs e → 0 < size → size ≤ 1024 →
      offset + size ≤ ring.length → 1044 ≤ cap →
      ring.take offset = (pairs.map Prod.snd).flatten →
      lib.compressFastContinue e ring offset size cap = (e', compressed) →
      CompressesRow lib start (pairs ++ [(compressed, (ring.drop offset).take size)]) e'

/-- Such calls that put the blocks in a row. -/
inductive DecompressesRow (lib : Lz4 E D) (start : D) : List (Bytes × Bytes) → D → Prop where
  | nil : DecompressesRow lib start [] start
  | snoc : DecompressesRow lib start pairs d → offset + cap ≤ ring.length → 1024 ≤ cap →
      ring.take offset = (pairs.map Prod.snd).flatten →
      lib.decompressSafeContinue d src ring offset cap = (d', block) →
      DecompressesRow lib start (pairs ++ [(src, block)]) d'

structure RowCodec (lib : Lz4 E D) (e₀ : E) (d₀ : D) : Prop extends Coder lib e₀ d₀ where
  lossless : ∀ pairs src block rest e d ring offset cap,
    CompressesRow lib e₀ (pairs ++ (src, block) :: rest) e → DecompressesRow lib d₀ pairs d →
    ring.take offset = (pairs.map Prod.snd).flatten → offset + cap ≤ ring.length → 1024 ≤ cap →
    (lib.decompressSafeContinue d src ring offset cap).2 = block

variable {lib : Lz4 E D} {e₀ e : E} {d₀ : D}

theorem Compresses.length_block (h : Compresses lib e₀ pairs e) :
    ∀ pair ∈ pairs, 0 < pair.2.length ∧ pair.2.length ≤ 1024 := by
  induction h with
  | nil => simp
  | @snoc pairs e e' ring compressed offset size cap _ hpos hle hfit _ _ ih =>
    intro pair hpair
    rcases List.mem_append.1 hpair with hpair | hpair
    · exact ih pair hpair
    · obtain rfl := List.mem_singleton.1 hpair
      have hlen : ((ring.drop offset).take size).length = size := by
        rw [List.length_take, List.length_drop]
        omega
      exact ⟨hlen.symm ▸ hpos, hlen.symm ▸ hle⟩

theorem Compresses.of_append (h : Compresses lib e₀ (pairs ++ pairs') e) :
    ∃ e', Compresses lib e₀ pairs e' := by
  induction pairs' using List.reverseRecOn generalizing e with
  | nil => exact ⟨e, List.append_nil pairs ▸ h⟩
  | append_singleton pairs' pair ih =>
    rw [← List.append_assoc] at h
    generalize hall : pairs ++ pairs' ++ [pair] = all at h
    cases h with
    | nil => simp at hall
    | snoc h =>
      obtain ⟨rfl, -⟩ := List.append_inj' hall rfl
      exact ih h

theorem CompressesRow.compresses (h : CompressesRow lib e₀ pairs e) :
    Compresses lib e₀ pairs e := by
  induction h with
  | nil => exact .nil
  | snoc _ hpos hle hfit hcap _ hcall ih => exact .snoc ih hpos hle hfit hcap hcall

theorem DecompressesRow.decompresses (h : DecompressesRow lib d₀ pairs d) :
    Decompresses lib d₀ (pairs.map Prod.fst) d := by
  induction h with
  | nil => exact .nil
  | snoc _ hfit hcap _ hcall ih =>
    rw [List.map_append]
    exact .snoc ih hfit hcap hcall

theorem BlockCodec.rowCodec (h : BlockCodec lib e₀ d₀) : RowCodec lib e₀ d₀ where
  toCoder := h.toCoder
  lossless _ _ _ _ _ _ _ _ _ hcomp hdec _ :=
    h.lossless _ _ _ _ _ _ _ _ _ hcomp.compresses hdec.decompresses

/-! ## What the decoder gives back -/

/-- Where the ring of the decoder goes on behind a block of `len` bytes at `offset`. -/
def dringNext (offset len : Nat) : Nat := if offset + len ≥ 2028 then 0 else offset + len

/-- Called with these compressed blocks one after the other, the first of them at `offset` of the
ring, the decoder gives the blocks back. -/
inductive Decodes (lib : Lz4 E D) : D → Bytes → Nat → List (Bytes × Bytes) → Prop where
  | nil : Decodes lib d ring offset []
  | cons : 1 ≤ src.length ∧ src.length ≤ 1044 → 0 < block.length ∧ block.length ≤ 1024 →
      lib.decompressSafeContinue d src ring offset 1024 = (d', block) →
      Decodes lib d' (overwrite ring offset block) (dringNext offset block.length) pairs →
      Decodes lib d ring offset ((src, block) :: pairs)

variable {d : D} {ring : Bytes} {offset : Nat} {pairs done : List (Bytes × Bytes)}

theorem Decodes.size (h : Decodes lib d ring offset pairs) :
    ∀ pair ∈ pairs, 1 ≤ pair.1.length ∧ pair.1.length ≤ 1044 := by
  induction h with
  | nil => exact List.forall_mem_nil _
  | cons hsize _ _ _ ih => exact List.forall_mem_cons.2 ⟨hsize, ih⟩

theorem Decodes.of_append (h : Decodes lib d ring offset (pairs ++ pairs')) :
    Decodes lib d ring offset pairs := by
  induction pairs generalizing d ring offset with
  | nil => exact .nil
  | cons pair pairs ih =>
    cases h with
    | cons hsize hblock hcall h => exact .cons hsize hblock hcall (ih h)

theorem BlockCodec.decodes (h : BlockCodec lib e₀ d₀) (hcomp : Compresses lib e₀ (done ++ pairs) e)
    (hdec : Decompresses lib d₀ (done.map Prod.fst) d) (hring : ring.length = 3072)
    (hoff : offset < 2028) : Decodes lib d ring offset pairs := by
  induction pairs generalizing done d ring offset with
  | nil => exact .nil
  | cons pair pairs ih =>
    obtain ⟨src, block⟩ := pair
    have hroom : offset + 1024 ≤ ring.length := by omega
    have hblock : 0 < block.length ∧ block.length ≤ 1024 :=
      hcomp.length_block (src, block) (by simp)
    have hfit : offset + block.length ≤ ring.length := by omega
    obtain ⟨d', hcall⟩ : ∃ d', lib.decompressSafeContinue d src ring offset 1024 = (d', block) :=
      ⟨_, Prod.ext rfl (h.lossless _ _ _ _ _ _ _ _ _ hcomp hdec hroom (Nat.le_refl _))⟩
    have hcomp' : Compresses lib e₀ (done ++ [(src, block)] ++ pairs) e := by
      rwa [List.append_assoc]
    refine .cons (h.size _ _ hcomp (src, block) (by simp)) hblock hcall (ih hcomp' ?_ ?_ ?_)
    · rw [List.map_append]
      exact .snoc hdec hroom (Nat.le_refl _) hcall
    · exact (length_overwrite _ _ hfit).trans hring
    · rw [dringNext]
      split <;> omega

/-- As long as the ring does not begin anew, the blocks are in a row. -/
theorem RowCodec.decodes (h : RowCodec lib e₀ d₀) (hcomp : CompressesRow lib e₀ (done ++ pairs) e)
    (hdec : DecompressesRow lib d₀ done d) (hring : ring.length = 3072)
    (htake : ring.take offset = (done.map Prod.snd).flatten)
    (hle : offset + (pairs.map Prod.snd).flatten.length ≤ 2028) :
    Decodes lib d ring offset pairs := by
  induction pairs generalizing done d ring offset with
  | nil => exact .nil
  | cons pair pairs ih =>
    obtain ⟨src, block⟩ := pair
    replace hle : offset + (block.length + (pairs.map Prod.snd).flatten.length) ≤ 2028 := by
      rwa [List.map_cons, List.flatten_cons, List.length_append] at hle
    have hroom : offset + 1024 ≤ ring.length := by omega
    have hlen := hcomp.compresses.length_block
    have hblock : 0 < block.length ∧ block.length ≤ 1024 := hlen (src, block) (by simp)
    have hfit : offset + block.length ≤ ring.length := by omega
    obtain ⟨d', hcall⟩ : ∃ d', lib.decompressSafeContinue d src ring offset 1024 = (d', block) :=
      ⟨_, Prod.ext rfl (h.lossless _ _ _ _ _ _ _ _ _ hcomp hdec htake hroom (Nat.le_refl _))⟩
    refine .cons (h.size _ _ hcomp.compresses (src, block) (by simp)) hblock hcall ?_
    rw [dringNext]
    split
    · -- no byte is left for another block
      cases pairs with
      | nil => exact .nil
      | cons pair pairs =>
        have hpos := (hlen pair (by simp)).1
        rw [List.map_cons, List.flatten_cons, List.length_append] at hle
        omega
    · have hcomp' : CompressesRow lib e₀ (done ++ [(src, block)] ++ pairs) e := by
        rwa [List.append_assoc]
      refine ih hcomp' ?_ ?_ ?_ ?_
      · exact .snoc hdec hroom (Nat.le_refl _) htake hcall
      · exact (length_overwrite _ _ hfit).trans hring
      · rw [take_overwrite _ _ hfit, htake, List.map_append, List.flatten_append]
        simp only [List.map_cons, List.map_nil, List.flatten_singleton]
      · omega

/-! ## On the wire -/

/-- The bytes on the wire for a compressed block. -/
def frame (pair : Bytes × Bytes) : Bytes := toLeBytes pair.1.length ++ pair.1

end Fuso.Lz4

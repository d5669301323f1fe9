import Fuso.Guard.Buffer

/-!
# The replay buffer as a queue of bytes

`Chunks` is the record of a `Buffer<u8>` alone, with the loop of `read_to_buffer` as it fills its
target. Nothing says that `len` is right, so a subtraction can underflow. `Fifo` is what the buffer
is for, a list of bytes that is read from the front. On the chunks of a `Buffer` every operation is
the one of the `Buffer` (`run_chunks`), which is the one of the bytes in it (`fifo_refines`).
-/

namespace Fuso

structure Chunks where
  len : Nat
  buf : List Bytes
  deriving DecidableEq

namespace Chunks
variable (c : Chunks)

def new : Chunks := ⟨0, []⟩

def isEmpty : Bool := c.len == 0

def clear (_ : Chunks) : Chunks := ⟨0, []⟩

def pushAll (data : Bytes) : Chunks := ⟨c.len + data.length, c.buf ++ [data]⟩

def pushBack (data : Bytes) : Chunks := ⟨c.len + data.length, c.buf ++ [data]⟩

def pushFront (data : Bytes) : Chunks := ⟨c.len + data.length, data :: c.buf⟩

/-- A copy to `target[read_len..]`, which it has to fit in. -/
def copy (target : Bytes) (readLen : Nat) (data : Bytes) : Option Bytes :=
  if readLen + data.length ≤ target.length then some (overwrite target readLen data) else none

/-- The turn of the loop that ends it. -/
def finish (len readLen : Nat) (buf : List Bytes) : Option Chunks :=
  if len ≠ 0 then if readLen ≤ len then some ⟨len - readLen, buf⟩ else none
  else some ⟨len, buf⟩

/-- The loop, with `remaining` first. When the chunks run out it goes on with `remaining = 0`, and
so it does behind a chunk that is long enough. -/
def readLoop (len : Nat) : Nat → Nat → Bytes → List Bytes → Option (Nat × Bytes × Chunks)
  | 0, readLen, target, buf => do
    let c ← finish len readLen buf
    some (readLen, target, c)
  | _ + 1, readLen, target, [] => do
    let c ← finish len readLen []
    some (readLen, target, c)
  | remaining + 1, readLen, target, data :: buf =>
    if remaining + 1 ≤ data.length then do
      let n := remaining + 1
      let target ← copy target readLen (data.take n)
      let c ← finish len (readLen + n) (if data.length ≠ n then data.drop n :: buf else buf)
      some (readLen + n, target, c)
    else do
      let target ← copy target readLen data
      readLoop len (remaining + 1 - data.length) (readLen + data.length) target buf

/-- How many bytes are read, and the target with them. -/
def readToBuffer (target : Bytes) : Option (Nat × Bytes × Chunks) :=
  readLoop c.len target.length 0 target c.buf

end Chunks

/-! ## Operations one behind the other -/

namespace Fifo

inductive Op where
  | pushAll (data : Bytes)
  | pushBack (data : Bytes)
  | pushFront (data : Bytes)
  | clear
  | readToBuffer (target : Bytes)

/-- What a read returns, and its target behind it. -/
abbrev Out := Option (Nat × Bytes)

/-- An operation on the bytes. -/
def step (bytes : Bytes) : Op → Out × Bytes
  | .pushAll data | .pushBack data => (none, bytes ++ data)
  | .pushFront data => (none, data ++ bytes)
  | .clear => (none, [])
  | .readToBuffer target =>
    let n := min bytes.length target.length
    (some (n, bytes.take n ++ target.drop n), bytes.drop n)

def run (bytes : Bytes) : List Op → List Out × Bytes
  | [] => ([], bytes)
  | op :: ops =>
    let (out, bytes) := step bytes op
    let (outs, bytes) := run bytes ops
    (out :: outs, bytes)

end Fifo

namespace Chunks
open Fifo (Op Out)

def step (c : Chunks) : Op → Option (Out × Chunks)
  | .pushAll data => some (none, c.pushAll data)
  | .pushBack data => some (none, c.pushBack data)
  | .pushFront data => some (none, c.pushFront data)
  | .clear => some (none, c.clear)
  | .readToBuffer target => do
    let (n, target, c) ← c.readToBuffer target
    some (some (n, target), c)

def run (c : Chunks) : List Op → Option (List Out × Chunks)
  | [] => some ([], c)
  | op :: ops => do
    let (out, c) ← c.step op
    let (outs, c) ← c.run ops
    some (out :: outs, c)

/-! ## The chunks of a `Buffer` -/

theorem copy_of_fits {target data : Bytes} (h : readLen + data.length ≤ target.length) :
    copy target readLen data = some (overwrite target readLen data) := if_pos h

theorem finish_of_le {len readLen : Nat} {buf : List Bytes} (h : readLen ≤ len) :
    finish len readLen buf = some ⟨len - readLen, buf⟩ := by
  unfold finish
  split
  · rfl
  · next hzero =>
    have hsub : len - readLen = len := by omega
    rw [hsub]

theorem overwrite_nil (target : Bytes) : overwrite target pos [] = target := by
  simp [overwrite]

/-- A copy behind a copy. -/
theorem overwrite_overwrite {target a b : Bytes} (h : pos + a.length ≤ target.length) :
    overwrite (overwrite target pos a) (pos + a.length) b = overwrite target pos (a ++ b) := by
  have htake := take_overwrite target a h
  have hdrop : (overwrite target pos a).drop (pos + a.length + b.length) =
      target.drop (pos + (a ++ b).length) := by
    have hfront : (target.take pos ++ a).length = pos + a.length := by simp; omega
    rw [overwrite, List.length_append, ← Nat.add_assoc, ← hfront, ← List.drop_drop,
      List.drop_left, List.drop_drop, hfront]
  rw [overwrite, htake, hdrop]
  simp [overwrite]

/-- The loop copies what `popChunks` takes. It starts with as many bytes read as `len` is greater
than the number of bytes in the chunks. -/
theorem readLoop_eq {len remaining readLen : Nat} {target : Bytes} {buf : List Bytes}
    (hfits : readLen + remaining = target.length) (hlen : len = readLen + buf.flatten.length) :
    readLoop len remaining readLen target buf =
      some (readLen + (Buffer.popChunks remaining buf).1.length,
        overwrite target readLen (Buffer.popChunks remaining buf).1,
        ⟨len - (readLen + (Buffer.popChunks remaining buf).1.length),
          (Buffer.popChunks remaining buf).2⟩) := by
  induction buf generalizing remaining readLen target with
  | nil =>
    have hfinish : finish len readLen [] = some ⟨len - readLen, []⟩ :=
      finish_of_le (by simp at hlen; omega)
    cases remaining <;>
      simp [readLoop, Buffer.popChunks, hfinish, overwrite_nil]
  | cons data buf ih =>
    rw [List.flatten_cons, List.length_append] at hlen
    cases remaining with
    | zero =>
      have hfinish : finish len readLen (data :: buf) = some ⟨len - readLen, data :: buf⟩ :=
        finish_of_le (by omega)
      simp [readLoop, Buffer.popChunks, hfinish, overwrite_nil]
    | succ remaining =>
      unfold readLoop Buffer.popChunks
      split
      · next hle =>
        have htake : (data.take (remaining + 1)).length = remaining + 1 := by simp; omega
        have hfinish : ∀ rest, finish len (readLen + (remaining + 1)) rest =
            some ⟨len - (readLen + (remaining + 1)), rest⟩ :=
          fun _ => finish_of_le (by omega)
        have hcopy : copy target readLen (data.take (remaining + 1)) =
            some (overwrite target readLen (data.take (remaining + 1))) :=
          copy_of_fits (by rw [htake]; omega)
        simp only [hcopy, hfinish, htake, Option.bind_eq_bind, Option.bind_some]
      · next hgt =>
        have hfits' : readLen + data.length + (remaining + 1 - data.length) =
            (overwrite target readLen data).length := by
          rw [length_overwrite _ _ (by omega)]
          omega
        rw [copy_of_fits (by omega)]
        simp only [Option.bind_eq_bind, Option.bind_some]
        rw [ih hfits' (by omega), overwrite_overwrite (by omega)]
        simp only [List.length_append, Nat.add_assoc]

end Chunks

namespace Buffer
open Fifo (Op Out)

/-- The record without what is known about it. -/
def chunks (b : Buffer UInt8) : Chunks := ⟨b.len, b.buf⟩

/-- A read takes the front of the contents, and no subtraction in it underflows. -/
theorem readToBuffer_chunks (b : Buffer UInt8) (target : Bytes) :
    b.chunks.readToBuffer target =
      some (min b.contents.length target.length,
        b.contents.take target.length ++ target.drop (min b.contents.length target.length),
        (b.readToBuffer target.length).2.chunks) := by
  have hloop : Chunks.readLoop b.len target.length 0 target b.buf =
      some (0 + (b.readToBuffer target.length).1.length,
        overwrite target 0 (b.readToBuffer target.length).1,
        ⟨b.len - (0 + (b.readToBuffer target.length).1.length),
          (b.readToBuffer target.length).2.buf⟩) :=
    Chunks.readLoop_eq (Nat.zero_add _) (b.len_eq.trans (Nat.zero_add _).symm)
  have hread : 0 + (b.contents.take target.length).length =
      min b.contents.length target.length := by
    rw [List.length_take]
    omega
  have hnew : b.len - min b.contents.length target.length =
      (b.readToBuffer target.length).2.len := by
    rw [len_contents, len_contents, contents_readToBuffer, List.length_drop]
    omega
  rw [readToBuffer_fst, hread, hnew] at hloop
  rw [Chunks.readToBuffer, chunks, hloop, overwrite, hread, List.take_zero, List.nil_append]
  rfl

def step (b : Buffer UInt8) : Op → Buffer UInt8
  | .pushAll data => b.pushAll data
  | .pushBack data => b.pushBack data
  | .pushFront data => b.pushFront data
  | .clear => b.clear
  | .readToBuffer target => (b.readToBuffer target.length).2

/-- An operation on the chunks is the one of the `Buffer`, and the one on its bytes. -/
theorem step_chunks (b : Buffer UInt8) (op : Op) :
    b.chunks.step op = some ((Fifo.step b.contents op).1, (b.step op).chunks) ∧
      (Fifo.step b.contents op).2 = (b.step op).contents := by
  cases op with
  | pushAll data => exact ⟨rfl, (contents_pushAll b data).symm⟩
  | pushBack data => exact ⟨rfl, (contents_pushBack b data).symm⟩
  | pushFront data => exact ⟨rfl, (contents_pushFront b data).symm⟩
  | clear => exact ⟨rfl, rfl⟩
  | readToBuffer target =>
    have htake : b.contents.take (min b.contents.length target.length) =
        b.contents.take target.length := by
      rw [List.take_eq_take_iff]
      omega
    have hdrop : b.contents.drop (min b.contents.length target.length) =
        b.contents.drop target.length := by
      rcases Nat.le_total b.contents.length target.length with hle | hle
      · rw [Nat.min_eq_left hle, List.drop_eq_nil_of_le (Nat.le_refl _),
          List.drop_eq_nil_of_le hle]
      · rw [Nat.min_eq_right hle]
    refine ⟨?_, ?_⟩
    · simp only [Chunks.step, readToBuffer_chunks, Fifo.step, htake, Option.bind_eq_bind,
        Option.bind_some]
      rfl
    · simp only [Fifo.step, hdrop]
      exact (contents_readToBuffer b target.length).symm

/-- Operations one behind the other, on the chunks of a `Buffer`. -/
theorem run_chunks (b : Buffer UInt8) (ops : List Op) :
    ∃ b' : Buffer UInt8, b.chunks.run ops = some ((Fifo.run b.contents ops).1, b'.chunks) ∧
      (Fifo.run b.contents ops).2 = b'.contents := by
  induction ops generalizing b with
  | nil => exact ⟨b, rfl, rfl⟩
  | cons op ops ih =>
    obtain ⟨hstep, hbytes⟩ := step_chunks b op
    obtain ⟨b', hrun, hcontents⟩ := ih (b.step op)
    refine ⟨b', ?_, ?_⟩
    · simp only [Chunks.run, hstep, hrun, Fifo.run, hbytes, Option.bind_eq_bind, Option.bind_some]
    · simpa only [Fifo.run, hbytes] using hcontents

end Buffer

/-- From a new buffer on, no subtraction of the operations underflows and no copy leaves its target.
They are those of a queue of bytes, `len` is the number of bytes, and `is_empty` is exact. -/
theorem fifo_refines (ops : List Fifo.Op) :
    ∃ c, Chunks.new.run ops = some ((Fifo.run [] ops).1, c) ∧
      (Fifo.run [] ops).2 = c.buf.flatten ∧ c.len = c.buf.flatten.length ∧
      (c.isEmpty = true ↔ c.buf.flatten = []) := by
  obtain ⟨b, hrun, hcontents⟩ := Buffer.run_chunks .new ops
  exact ⟨b.chunks, hrun, hcontents, b.len_eq, b.isEmpty_iff⟩

end Fuso

import Fuso.Guard.Buffer

/-!
# `Fallback`

A stream whose reads can be taken back. `mark` begins to record what is read, `backward` makes what
was recorded readable again. `Fallback.pollRead_none` and `Fallback.pollRead_some` say what a read
delivers.
-/

namespace Fuso

structure Fallback (S : Type u) where
  target : S
  strict : Bool
  backedBuf : Option (Buffer UInt8)
  markedBuf : Option (Buffer UInt8)

namespace Fallback

variable {S : Type u}

def new (target : S) (strict : Bool) : Fallback S :=
  { target, strict, backedBuf := none, markedBuf := none }

def intoInner (f : Fallback S) : S := f.target

/-- `Mark::poll`. -/
def mark (f : Fallback S) : Fallback S :=
  if f.markedBuf.isSome then f else { f with markedBuf := some .new }

/-- `Backward::poll`: what was recorded is readable again, behind what was still to be read. -/
def backward (f : Fallback S) : Fallback S :=
  match f.markedBuf with
  | none => f
  | some marked =>
    let backedBuf := match f.backedBuf with
      | some backed => backed.pushAll (marked.readToBuffer marked.len).1
      | none => marked
    { f with backedBuf := some backedBuf, markedBuf := none }

def consumeBackData (f : Fallback S) : Fallback S := { f with backedBuf := none, markedBuf := none }

/-- What is left to be read again, when that is not empty. -/
def backData (f : Fallback S) : Fallback S × Option Bytes :=
  let backed := f.backedBuf.bind fun buf =>
    let backed := (buf.readToBuffer buf.len).1
    if backed.isEmpty then none else some backed
  ({ f with backedBuf := none }, backed)

/-- What is recorded of a read. -/
def record (f : Fallback S) (buf : ReadBuf) : Fallback S :=
  { f with markedBuf := f.markedBuf.map (·.pushBack buf.filled) }

def pollRead [AsyncRead S] (f : Fallback S) (buf : ReadBuf) :
    Fallback S × ReadBuf × Poll (Result Nat) :=
  match f.backedBuf with
  | none =>
    match AsyncRead.pollRead f.target buf with
    | (target, buf, .pending) => ({ f with target }, buf, .pending)
    | (target, buf, .ready (.error e)) => ({ f with target }, buf, .ready (.error e))
    | (target, buf, .ready (.ok n)) => (record { f with target } buf, buf, .ready (.ok n))
  | some backed =>
    let (data, backed) := backed.readToBuffer buf.remaining
    let buf := buf.put data
    let backedBuf := if backed.isEmpty then none else some backed
    (record { f with backedBuf } buf, buf, .ready (.ok data.length))

def pollWrite [AsyncWrite S] (f : Fallback S) (buf : Bytes) : Fallback S × Poll (Result Nat) :=
  if f.strict ∧ (f.backedBuf.isSome ∨ f.markedBuf.isSome) then (f, .ready (.error .fallback))
  else
    let (target, poll) := AsyncWrite.pollWrite f.target buf
    ({ f with target, backedBuf := none, markedBuf := none }, poll)

def pollClose [AsyncWrite S] (f : Fallback S) : Fallback S × Poll (Result Unit) :=
  let (target, poll) := AsyncWrite.pollClose f.target
  ({ f with target }, poll)

instance [AsyncRead S] : AsyncRead (Fallback S) := ⟨pollRead⟩
instance [AsyncWrite S] : AsyncWrite (Fallback S) := ⟨pollWrite, pollClose⟩

/-! ## What the buffers hold -/

/-- What is left to be read again. -/
def backed (f : Fallback S) : Bytes := f.backedBuf.elim [] Buffer.contents

/-- What was recorded since the mark. -/
def marked (f : Fallback S) : Bytes := f.markedBuf.elim [] Buffer.contents

@[simp] theorem backed_new (s : S) (b : Bool) : (new s b).backed = [] := rfl
@[simp] theorem marked_new (s : S) (b : Bool) : (new s b).marked = [] := rfl

@[simp] theorem target_mark (f : Fallback S) : f.mark.target = f.target := by
  unfold mark
  split <;> rfl

@[simp] theorem backedBuf_mark (f : Fallback S) : f.mark.backedBuf = f.backedBuf := by
  unfold mark
  split <;> rfl

@[simp] theorem backed_mark (f : Fallback S) : f.mark.backed = f.backed := by
  unfold mark
  split <;> rfl

@[simp] theorem marked_mark (f : Fallback S) : f.mark.marked = f.marked := by
  unfold mark
  split
  · rfl
  · next h => simp_all [marked]

@[simp] theorem isSome_mark (f : Fallback S) : f.mark.markedBuf.isSome := by
  unfold mark
  split <;> simp_all

/-- A backward without a mark changes nothing. -/
theorem backward_of_none {f : Fallback S} (h : f.markedBuf = none) : f.backward = f := by
  simp [backward, h]

theorem backward_of_some {f : Fallback S} (h : f.markedBuf.isSome) :
    f.backward.backed = f.backed ++ f.marked ∧ f.backward.markedBuf = none ∧
      f.backward.target = f.target := by
  obtain ⟨m, hm⟩ := Option.isSome_iff_exists.1 h
  unfold backward
  simp only [hm]
  refine ⟨?_, trivial, trivial⟩
  cases hb : f.backedBuf with
  | none => simp [backed, marked, hb, hm]
  | some b => simp [backed, marked, hb, hm, Buffer.len_contents]

@[simp] theorem backed_record (f : Fallback S) (buf : ReadBuf) : (f.record buf).backed = f.backed :=
  rfl

@[simp] theorem isSome_record (f : Fallback S) (buf : ReadBuf) :
    (f.record buf).markedBuf.isSome = f.markedBuf.isSome := by
  simp [record]

theorem marked_record {f : Fallback S} (h : f.markedBuf.isSome) (buf : ReadBuf) :
    (f.record buf).marked = f.marked ++ buf.filled := by
  obtain ⟨m, hm⟩ := Option.isSome_iff_exists.1 h
  simp [record, marked, hm]

/-- A read of a stream with nothing to be read again. -/
theorem pollRead_none [AsyncRead S] {f : Fallback S} (h : f.backedBuf = none) (buf : ReadBuf) :
    AsyncRead.pollRead f buf =
      match AsyncRead.pollRead f.target buf with
      | (target, buf, .pending) => ({ f with target }, buf, .pending)
      | (target, buf, .ready (.error e)) => ({ f with target }, buf, .ready (.error e))
      | (target, buf, .ready (.ok n)) => (record { f with target } buf, buf, .ready (.ok n)) := by
  simp only [AsyncRead.pollRead, pollRead, h]

/-- A read with something to be read again. -/
theorem pollRead_some [AsyncRead S] {f : Fallback S} (h : f.backedBuf.isSome) (buf : ReadBuf) :
    ∃ (g : Fallback S) (buf' : ReadBuf),
      AsyncRead.pollRead f buf =
        (g.record buf', buf', .ready (.ok (f.backed.take buf.remaining).length)) ∧
      buf'.filled = buf.filled ++ f.backed.take buf.remaining ∧
      g.backed = f.backed.drop buf.remaining ∧ g.target = f.target ∧ g.markedBuf = f.markedBuf := by
  obtain ⟨b, hb⟩ := Option.isSome_iff_exists.1 h
  have hf : f.backed = b.contents := by simp [backed, hb]
  let rest := (b.readToBuffer buf.remaining).2
  refine ⟨{ f with backedBuf := if rest.isEmpty then none else some rest },
    buf.put (b.readToBuffer buf.remaining).1, ?_, ?_, ?_, rfl, rfl⟩
  · simp only [AsyncRead.pollRead, pollRead, hb, hf, Buffer.readToBuffer_fst, rest]
  · rw [Buffer.readToBuffer_fst, ReadBuf.filled_put (List.length_take_le _ _), hf]
  · rw [hf, ← Buffer.contents_readToBuffer]
    simp only [backed]
    split
    · next he => exact ((Buffer.isEmpty_iff rest).1 he).symm
    · rfl

/-- A `Fallback` that is not strict and has nothing to be read again reads and writes as its target
does. -/
theorem view [AsyncRead S] [AsyncWrite S] :
    View (Fallback.target (S := S)) fun f => f.backedBuf = none ∧ f.strict = false where
  read := by
    rintro f buf ⟨hb, hs⟩
    simp only [AsyncRead.pollRead, pollRead, hb]
    rcases AsyncRead.pollRead f.target buf with ⟨target, buf', _ | (e | n)⟩
    · exact ⟨⟨rfl, hs⟩, rfl⟩
    · exact ⟨⟨rfl, hs⟩, rfl⟩
    · exact ⟨⟨rfl, hs⟩, rfl⟩
  write := by
    rintro f buf ⟨-, hs⟩
    simp only [AsyncWrite.pollWrite, pollWrite, hs]
    exact ⟨⟨rfl, rfl⟩, rfl⟩

end Fallback
end Fuso

import Fuso.Async.Stream
import Fuso.Theory.Lockstep

/-!
# `ReadExact`

`ReadExact` reads into one buffer until it is full. Under the crate's streams there are those of
the runtime, whose reads do not report a number; the adapter reports how much is in the buffer, and
that is 0 at the end of the stream only if nothing was read before (`ReadExact.eof_iff`).
-/

namespace Fuso
open Turn

/-- A turn of the loop of `ReadExact`. -/
def ReadExact.step [AsyncRead R] : ReadBuf × R → Turn (ReadBuf × R) (Result Unit)
  | (buf, reader) =>
    if buf.remaining ≠ 0 then
      match pollRead reader buf with
      | (reader, buf, .ready (.error e)) => .ready (buf, reader) (.error e)
      | (reader, buf, .pending) => .pending (buf, reader)
      | (reader, buf, .ready (.ok n)) =>
        if n = 0 then .ready (buf, reader) (.error (.io .unexpectedEof)) else .again (buf, reader)
    else .ready (buf, reader) (.ok ())

/-- `tokio::io::AsyncRead`: a read that is ready has put what it read into the buffer. -/
class TokioRead (S : Type u) where
  pollRead : S → ReadBuf → S × ReadBuf × Poll (Result Unit)

/-- `AsyncRead` for a stream of the runtime. -/
instance (priority := low) [TokioRead S] : AsyncRead S where
  pollRead s buf :=
    match TokioRead.pollRead s buf with
    | (s, buf, .pending) => (s, buf, .pending)
    | (s, buf, .ready (.error e)) => (s, buf, .ready (.error e))
    | (s, buf, .ready (.ok ())) => (s, buf, .ready (.ok buf.filled.length))

/-! ## A reader that comes to its end -/

/-- What a read of a stream finds: nothing yet, or at least one byte. -/
inductive Arrival where
  | pending
  | data (b : UInt8) (bytes : Bytes)
  deriving DecidableEq

/-- A stream of the runtime: what its reads find until its end. -/
structure Feed where
  arrivals : List Arrival
  deriving DecidableEq

namespace Feed

/-- A read takes what fits into the buffer. At the end of the stream it is ready and has put
nothing there. -/
def pollRead (f : Feed) (buf : ReadBuf) : Feed × ReadBuf × Poll (Result Unit) :=
  match f.arrivals with
  | [] => (f, buf, .ready (.ok ()))
  | .pending :: arrivals => (⟨arrivals⟩, buf, .pending)
  | .data b bytes :: arrivals =>
    let rest := match (b :: bytes).drop buf.remaining with
      | [] => arrivals
      | b :: bytes => .data b bytes :: arrivals
    (⟨rest⟩, buf.put ((b :: bytes).take buf.remaining), .ready (.ok ()))

instance : TokioRead Feed := ⟨pollRead⟩

/-- What the stream delivers before its end. -/
def delivers (f : Feed) : Bytes := f.arrivals.flatMap fun
  | .pending => []
  | .data b bytes => b :: bytes

end Feed

namespace ReadExact
variable {buf : ReadBuf} {arrivals : List Arrival}

theorem step_pending (h : buf.remaining ≠ 0) :
    step (buf, (⟨.pending :: arrivals⟩ : Feed)) = .pending (buf, ⟨arrivals⟩) := by
  simp only [step, AsyncRead.pollRead, TokioRead.pollRead, Feed.pollRead, if_pos h]

theorem step_data (h : bytes.length < buf.remaining) :
    step (buf, (⟨.data b bytes :: arrivals⟩ : Feed)) =
      .again (buf.put (b :: bytes), ⟨arrivals⟩) := by
  have hle : (b :: bytes).length ≤ buf.remaining := Nat.succ_le_of_lt h
  have hlen : (buf.put (b :: bytes)).filled.length ≠ 0 := by
    rw [ReadBuf.filled_put hle]
    simp
  simp only [step, AsyncRead.pollRead, TokioRead.pollRead, Feed.pollRead,
    List.drop_eq_nil_of_le hle, List.take_of_length_le hle]
  rw [if_pos (by omega), if_neg hlen]

/-- The end of the stream is an error for an empty buffer, and makes the loop go round for one in
which there are bytes. -/
theorem step_end (h : buf.remaining ≠ 0) :
    step (buf, (⟨[]⟩ : Feed)) =
      if buf.filled = [] then .ready (buf, ⟨[]⟩) (.error (.io .unexpectedEof))
      else .again (buf, ⟨[]⟩) := by
  simp only [step, AsyncRead.pollRead, TokioRead.pollRead, Feed.pollRead, if_pos h,
    List.length_eq_zero_iff]

/-- A stream with too few bytes comes to its end, and what it delivered is in the buffer. -/
theorem reaches_end (buf : ReadBuf) (arrivals : List Arrival)
    (h : buf.filled.length + (Feed.mk arrivals).delivers.length < buf.capacity) :
    ∃ buf' : ReadBuf, Reaches step (buf, (⟨arrivals⟩ : Feed)) (buf', ⟨[]⟩) ∧
      buf'.filled = buf.filled ++ (Feed.mk arrivals).delivers ∧
      buf'.filled.length < buf'.capacity := by
  induction arrivals generalizing buf with
  | nil => exact ⟨buf, .refl, by simp [Feed.delivers], h⟩
  | cons a arrivals ih =>
    cases a with
    | pending =>
      obtain ⟨buf', hreach, hfill, hlt⟩ := ih buf h
      have hrem : buf.remaining ≠ 0 := by rw [ReadBuf.remaining]; omega
      exact ⟨buf', .head (.inr (step_pending hrem)) hreach, hfill, hlt⟩
    | data b bytes =>
      have hd : (Feed.mk (.data b bytes :: arrivals)).delivers =
        b :: bytes ++ (Feed.mk arrivals).delivers := rfl
      rw [hd, List.length_append, List.length_cons] at h
      have hlt : bytes.length < buf.remaining := by rw [ReadBuf.remaining]; omega
      have hput : (buf.put (b :: bytes)).filled = buf.filled ++ b :: bytes :=
        ReadBuf.filled_put (Nat.succ_le_of_lt hlt)
      obtain ⟨buf', hreach, hfill, hlt'⟩ := ih (buf.put (b :: bytes)) <| by
        rw [hput, List.length_append, List.length_cons, ReadBuf.capacity_put]
        omega
      refine ⟨buf', .head (.inl (step_data hlt)) hreach, ?_, hlt'⟩
      rw [hfill, hput, hd, List.append_assoc]

/-- At its end a stream that delivered something makes a poll spin. -/
theorem spins {feed : Feed} (hlt : feed.delivers.length < n) (hne : feed.delivers ≠ []) :
    Spins step (.new n, feed) := by
  obtain ⟨buf, hreach, hfill, hlt⟩ := reaches_end (.new n) feed.arrivals (by simpa using hlt)
  obtain ⟨k, hk⟩ := exists_turns hreach
  have hrem : buf.remaining ≠ 0 := by rw [ReadBuf.remaining]; omega
  have hfilled : buf.filled ≠ [] := by rw [hfill]; exact hne
  refine spins_of_again (I := (· = (buf, ⟨[]⟩))) ?_ hk rfl
  rintro _ rfl
  exact ⟨_, by rw [step_end hrem, if_neg hfilled], rfl⟩

/-- A stream with too few bytes is an error for `ReadExact`, after finitely many reads, if and only
if it has no bytes at all. -/
theorem eof_iff {feed : Feed} (hlt : feed.delivers.length < n) :
    (∃ s, Drives step (.new n, feed) s (.error (.io .unexpectedEof))) ↔ feed.delivers = [] := by
  constructor
  · rintro ⟨s, H⟩
    by_contra hne
    exact (spins hlt hne).not_drives H
  · intro hnil
    obtain ⟨buf, hreach, hfill, hlt⟩ := reaches_end (.new n) feed.arrivals (by simpa using hlt)
    have hrem : buf.remaining ≠ 0 := by rw [ReadBuf.remaining]; omega
    have hfilled : buf.filled = [] := by rw [hfill, ReadBuf.filled_new]; exact hnil
    exact ⟨(buf, ⟨[]⟩), drives_iff_reaches.2
      ⟨_, hreach, by rw [step_end hrem, if_pos hfilled]⟩⟩

/-- The end of a stream that was not ready at first and has no bytes. -/
theorem eof_two :
    ∃ s, Drives step (.new 2, (⟨[.pending]⟩ : Feed)) s (.error (.io .unexpectedEof)) :=
  (eof_iff (by decide)).2 rfl

/-- One byte, and then the end. -/
theorem not_eof : ¬ ∀ n (feed : Feed), feed.delivers.length < n →
    ∃ s, Drives step (.new n, feed) s (.error (.io .unexpectedEof)) := by
  intro h
  obtain ⟨s, H⟩ := h 2 ⟨[.data 0 []]⟩ (by decide)
  exact (spins (by decide) (by decide)).not_drives H

end ReadExact
end Fuso

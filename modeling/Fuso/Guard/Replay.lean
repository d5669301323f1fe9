import Fuso.Guard.Fallback
import Fuso.Theory.Run

/-!
# Mark, read, backward

Runs of `mark`, `backward` and `poll_read` on a `Fallback`. `Reader` carries the position in the
underlying stream that the reader takes itself to be at. As long as the reader gets what it expects,
what is recorded is the part of the stream behind the mark (`Consistent`), and a backward keeps this
exactly when what is recorded and what is still to be read again commute
(`Consistent.backward_iff`).
-/

namespace Fuso

namespace Fallback

/-- What further reads deliver. -/
def upcoming (f : Fallback Duplex) : Bytes := f.backed ++ f.target.incoming

/-- What one read into a fresh buffer does. -/
theorem pollRead_delivers (f : Fallback Duplex) (cap : Nat) :
    ∃ g buf poll, AsyncRead.pollRead f (.new cap) = (g, buf, poll) ∧
      buf.filled ++ g.upcoming = f.upcoming ∧
      g.markedBuf.isSome = f.markedBuf.isSome ∧
      (f.markedBuf.isSome → g.marked = f.marked ++ buf.filled) ∧
      (poll = .pending ∧ buf.filled = [] ∨ poll = .ready (.ok buf.filled.length)) := by
  cases hb : f.backedBuf with
  | some b =>
    obtain ⟨g, buf, hread, hfilled, hback, htarget, hmark⟩ :=
      pollRead_some (f := f) (by simp [hb]) (.new cap)
    have hfilled' : buf.filled = f.backed.take cap := by simpa using hfilled
    refine ⟨_, _, _, hread, ?_, by simp [hmark], fun hm => ?_, .inr ?_⟩
    · have hinc : (g.record buf).target = f.target := htarget
      rw [upcoming, upcoming, backed_record, hback, hfilled', hinc, ← List.append_assoc,
        ReadBuf.remaining_new, List.take_append_drop]
    · rw [marked_record (by simpa [hmark] using hm), marked, hmark, ← marked]
    · rw [hfilled', ReadBuf.remaining_new]
  | none =>
    have hf : f.backed = [] := by simp [backed, hb]
    obtain ⟨reads, buf, rest, hin, ⟨hread, hnil⟩ | ⟨hread, -⟩⟩ := f.target.pollRead_new cap
    · refine ⟨{ f with target := { f.target with incoming := rest, reads } }, buf, .pending, ?_, ?_,
        rfl, fun _ => ?_, .inl ⟨rfl, hnil⟩⟩
      · simp only [AsyncRead.pollRead, Fallback.pollRead, hb] at hread ⊢
        simp only [hread]
      · simp [upcoming, backed, hb, hin]
      · simp [hnil, marked]
    · refine ⟨record { f with target := { f.target with incoming := rest, reads } } buf, buf, _, ?_,
        ?_, ?_, fun hm => marked_record hm buf, .inr rfl⟩
      · simp only [AsyncRead.pollRead, Fallback.pollRead, hb] at hread ⊢
        simp only [hread]
      · simp [upcoming, backed, hb, hin, record]
      · simp

end Fallback

/-- A `Fallback`, where its reader takes itself to be in the underlying stream, and where it was at
the first mark since the last backward. -/
structure Reader where
  fallback : Fallback Duplex
  pos : Nat
  markPos : Option Nat

namespace Reader

inductive Op where
  | mark
  | backward
  | read (cap : Nat)
  deriving DecidableEq

def new (stream : Duplex) (strict : Bool) : Reader := ⟨.new stream strict, 0, none⟩

/-- One `poll_read` with a fresh buffer, and the bytes it delivers. -/
def read (cap : Nat) (r : Reader) : Bytes × Reader :=
  let (fallback, buf, _) := pollRead r.fallback (.new cap)
  (buf.filled, { r with fallback, pos := r.pos + buf.filled.length })

/-- Reads one after the other, and the bytes they deliver. -/
def reads : List Nat → Reader → Bytes × Reader
  | [], r => ([], r)
  | cap :: caps, r =>
    let (data, r) := r.read cap
    let (more, r) := reads caps r
    (data ++ more, r)

def step : Op → Reader → Reader
  | .mark, r => { r with fallback := r.fallback.mark, markPos := r.markPos <|> some r.pos }
  | .backward, r =>
    { fallback := r.fallback.backward, pos := r.markPos.getD r.pos, markPos := none }
  | .read cap, r => (r.read cap).2

/-- What was recorded since the mark and what is still to be read again can be swapped. -/
def Commutes (r : Reader) : Prop :=
  r.fallback.marked ++ r.fallback.backed = r.fallback.backed ++ r.fallback.marked

/-- A backward to a mark finds two buffers that commute. -/
def Clean (op : Op) (r : Reader) : Prop := op = .backward → r.markPos.isSome → r.Commutes

/-- The reader is where it takes itself to be, and so is its mark. -/
structure Consistent (stream : Bytes) (r : Reader) : Prop where
  upcoming : r.fallback.upcoming = stream.drop r.pos
  marked : r.markPos.isSome = r.fallback.markedBuf.isSome
  replay : ∀ p, r.markPos = some p →
    r.fallback.marked ++ r.fallback.upcoming = stream.drop p

theorem upcoming_read (r : Reader) (cap : Nat) :
    (r.read cap).1 ++ (r.read cap).2.fallback.upcoming = r.fallback.upcoming := by
  obtain ⟨g, buf, poll, hread, hup, -⟩ := r.fallback.pollRead_delivers cap
  simpa [read, hread] using hup

theorem upcoming_reads (r : Reader) (caps : List Nat) :
    (r.reads caps).1 ++ (r.reads caps).2.fallback.upcoming = r.fallback.upcoming := by
  induction caps generalizing r with
  | nil => rfl
  | cons cap caps ih =>
    simp only [reads, List.append_assoc]
    rw [ih, upcoming_read]

theorem consistent_new (d : Duplex) (strict : Bool) :
    Consistent d.incoming (new d strict) :=
  ⟨by simp [new, Fallback.upcoming, Fallback.new, Fallback.backed], rfl, nofun⟩

theorem Consistent.mark (h : Consistent stream r) : Consistent stream (r.step .mark) where
  upcoming := by simpa [step, Fallback.upcoming] using h.upcoming
  marked := by simp [step]
  replay := by
    intro p hp
    cases hm : r.markPos with
    | some q =>
      obtain rfl : q = p := by simpa [step, hm] using hp
      simpa [step, Fallback.upcoming] using h.replay q hm
    | none =>
      obtain rfl : r.pos = p := by simpa [step, hm] using hp
      have hnone : r.fallback.markedBuf = none := by simpa [hm] using h.marked
      have hnil : r.fallback.marked = [] := by simp [Fallback.marked, hnone]
      simpa [step, hnil, Fallback.upcoming] using h.upcoming

theorem Consistent.read (h : Consistent stream r) : Consistent stream (r.step (.read cap)) := by
  obtain ⟨g, buf, poll, hread, hup, hsome, hmarked, -⟩ := r.fallback.pollRead_delivers cap
  have hstep : r.step (.read cap) =
      { fallback := g, pos := r.pos + buf.filled.length, markPos := r.markPos } := by
    simp [step, Reader.read, hread]
  rw [hstep]
  refine ⟨?_, h.marked.trans hsome.symm, fun p hp => ?_⟩
  · rw [← List.drop_drop, ← h.upcoming, ← hup, List.drop_left]
  · have hm : r.fallback.markedBuf.isSome := by rw [← h.marked]; simp_all
    dsimp only
    rw [hmarked hm, List.append_assoc, hup, h.replay p hp]

/-- A backward leads back to the mark exactly when the buffers commute. -/
theorem Consistent.backward_iff (h : Consistent stream r) (hm : r.markPos = some p) :
    (r.step .backward).fallback.upcoming = stream.drop p ↔ r.Commutes := by
  obtain ⟨hback, -, htarget⟩ :=
    Fallback.backward_of_some (f := r.fallback) (by simp [← h.marked, hm])
  have hreplay := h.replay p hm
  rw [← hreplay]
  simp only [step, Fallback.upcoming, hback, htarget, ← List.append_assoc,
    List.append_cancel_right_eq]
  exact eq_comm

theorem Consistent.backward (h : Consistent stream r) (hc : Clean .backward r) :
    Consistent stream (r.step .backward) := by
  cases hm : r.markPos with
  | none =>
    have hnone : r.fallback.markedBuf = none := by simpa [hm] using h.marked
    have hstep : r.step .backward = r := by
      simp only [step, Fallback.backward_of_none hnone, hm, Option.getD_none]
      rw [← hm]
    rw [hstep]
    exact h
  | some p =>
    obtain ⟨hback, hnone, htarget⟩ :=
      Fallback.backward_of_some (f := r.fallback) (by simp [← h.marked, hm])
    refine ⟨?_, by simp [step, hnone], nofun⟩
    rw [(h.backward_iff hm).2 (hc rfl (by simp [hm]))]
    simp [step, hm]

/-- A clean step leaves the reader where it takes itself to be. -/
theorem Consistent.step (h : Consistent stream r) (hc : Clean op r) :
    Consistent stream (r.step op) := by
  cases op with
  | mark => exact h.mark
  | backward => exact h.backward hc
  | read cap => exact h.read

/-- No other step does. -/
theorem Consistent.clean (h : Consistent stream r)
    (hup : (r.step op).fallback.upcoming = stream.drop (r.step op).pos) : Clean op r := by
  rintro rfl hsome
  obtain ⟨p, hm⟩ := Option.isSome_iff_exists.1 hsome
  refine (h.backward_iff hm).1 (hup.trans ?_)
  simp [Reader.step, hm]

/-- Along a run of marks, backwards and reads, what is delivered from each state on is the stream
from the position that the reader was at, or was taken back to, exactly when every backward to a
mark finds two buffers that commute. -/
theorem replay_iff (d : Duplex) (strict : Bool) (ops : List Op) :
    (∀ pre, pre <+: ops → ∀ caps, let r := after Reader.step (new d strict) pre
      (r.reads caps).1 ++ (r.reads caps).2.fallback.upcoming = d.incoming.drop r.pos) ↔
    ∀ pre, pre ++ [.backward] <+: ops → let r := after Reader.step (new d strict) pre
      r.markPos.isSome →
      r.fallback.marked ++ r.fallback.backed = r.fallback.backed ++ r.fallback.marked := by
  have hiff : (∀ pre, pre <+: ops → _) ↔ Admissible Reader.step Clean (new d strict) ops :=
    after_iff
    (P := fun r => ∀ caps, (r.reads caps).1 ++ (r.reads caps).2.fallback.upcoming =
      d.incoming.drop r.pos)
    (fun r hr caps => (r.upcoming_reads caps).trans hr.upcoming) (fun r op hr hc => hr.step hc)
    (fun r op hr h => hr.clean (h [])) (consistent_new d strict)
  refine hiff.trans ⟨fun h pre hpre hm => h pre .backward hpre rfl hm, ?_⟩
  rintro h pre op hpre rfl hm
  exact h pre hpre hm

/-- Two rounds, the second of which reads less than the first: the stream `1 2 3 4` is read again as
`3 4 1 2`. -/
theorem not_replay : ¬∀ (d : Duplex) (strict : Bool) (ops pre : List Op), pre <+: ops → ∀ caps,
    let r := after Reader.step (new d strict) pre
    (r.reads caps).1 ++ (r.reads caps).2.fallback.upcoming = d.incoming.drop r.pos := by
  intro h
  have h₁ := h ⟨[1, 2, 3, 4], [.upTo 3], [], [], []⟩ false
    [.mark, .read 4, .backward, .mark, .read 2, .backward]
    [.mark, .read 4, .backward, .mark, .read 2, .backward] (List.prefix_refl _) [4]
  exact absurd h₁ (by decide)

end Reader
end Fuso

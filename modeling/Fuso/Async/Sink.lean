import Fuso.Async.Stream

/-!
# A sink under back-pressure

`Sink` is a stream seen from the writing end alone: to every `poll_write` it answers that it is not
ready, or how many bytes it takes, which may be none. `fate` says what becomes of a buffer that is
written to it until it is out.
-/

namespace Fuso

/-- What the senders write to in the end. `room` is its answer to every `poll_write`: not ready, or
how many bytes it takes, which may be none. -/
structure Sink where
  room : List (Poll Nat)
  sent : Bytes
  deriving DecidableEq

namespace Sink

def pollWrite (t : Sink) (buf : Bytes) : Sink × Poll (Result Nat) :=
  match t.room with
  | [] => (t, .pending)
  | .pending :: room => ({ t with room }, .pending)
  | .ready n :: room =>
    (⟨room, t.sent ++ buf.take (min n buf.length)⟩, .ready (.ok (min n buf.length)))

instance : AsyncWrite Sink := ⟨pollWrite, fun t => (t, .ready (.ok ()))⟩

/-- The next `poll_write` takes bytes. -/
def takes (t : Sink) : Prop := ∃ n room, t.room = .ready (n + 1) :: room

instance (t : Sink) : Decidable t.takes :=
  match h : t.room with
  | .ready (n + 1) :: room => isTrue ⟨n, room, h⟩
  | [] | .pending :: _ | .ready 0 :: _ => isFalse fun ⟨n, room, h'⟩ => by simp [h] at h'

/-- A write that takes bytes, or leaves all as it is. -/
theorem pollWrite_cases (t : Sink) {buf : Bytes} (hne : buf ≠ []) : ∃ room,
    AsyncWrite.pollWrite t buf = ({ t with room }, .pending) ∨
    AsyncWrite.pollWrite t buf = ({ t with room }, .ready (.ok 0)) ∨
    t.takes ∧ ∃ k, 0 < k ∧ k ≤ buf.length ∧
      AsyncWrite.pollWrite t buf = (⟨room, t.sent ++ buf.take k⟩, .ready (.ok k)) := by
  obtain ⟨room, sent⟩ := t
  have hpos := List.length_pos_iff.2 hne
  cases room with
  | nil => exact ⟨[], .inl rfl⟩
  | cons a room =>
    refine ⟨room, ?_⟩
    cases a with
    | pending => exact .inl rfl
    | ready n =>
      cases n with
      | zero => exact .inr (.inl (by simp [AsyncWrite.pollWrite, pollWrite]))
      | succ n =>
        exact .inr (.inr ⟨⟨n, room, rfl⟩, min (n + 1) buf.length, by omega, by omega, rfl⟩)

/-! ## Writing a buffer out -/

/-- How a loop ends that writes a buffer out: all of it is written, the sink is not ready before
that, or the sink takes nothing, at once or with the buffer torn. -/
inductive Fate where
  | out
  | waits
  | refused
  | torn
  deriving DecidableEq

/-- The fate of `n` bytes. -/
def fate : List (Poll Nat) → Nat → Fate
  | _, 0 => .out
  | .ready 0 :: _, _ + 1 => .refused
  | .ready (k + 1) :: room, n + 1 =>
    match fate room (n - k) with
    | .refused => .torn
    | fate => fate
  | _, _ + 1 => .waits

@[simp] theorem fate_zero (room : List (Poll Nat)) : fate room 0 = .out := by
  cases room with
  | nil => rfl
  | cons a room =>
    cases a with
    | pending => rfl
    | ready n => cases n <;> rfl

theorem fate_ready (k n : Nat) (room : List (Poll Nat)) :
    fate (.ready (k + 1) :: room) (n + 1) =
      if fate room (n - k) = .refused then .torn else fate room (n - k) := by
  rw [fate]
  split <;> simp_all

end Sink
end Fuso

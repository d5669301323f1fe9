import Fuso.Async.Copy
import Fuso.Async.Writer
import Fuso.Protocol.Packet

/-!
# `WriteAll` and `SendPacket` on writers that take whole buffers

An encryptor is ready with the length of the buffer or with an error. On such a writer `WriteAll`
and `SendPacket` poll with the same buffer until it is ready (`Whole.post`, `Whole.exists_via`).
-/

namespace Fuso
open Turn

/-- The two futures that write a buffer. -/
inductive Via where
  | writeAll
  | sendPacket
  deriving DecidableEq

section
variable [AsyncWrite W]

/-- The future that writes the buffer is polled until it is ready with `r`. -/
def WrittenVia (via : Via) (buf : Bytes) (w w' : W) (r : Result Unit) : Prop :=
  match via with
  | .writeAll => ∃ s, Drives WriteAll.step ((buf, 0), w) (s, w') r
  | .sendPacket => ∃ s, Drives SendPacket.step (.new buf, w) (s, w') r

/-- The buffers are written one after the other, and the futures are ready with `rs`. -/
inductive WritesAll : W → List (Via × Bytes) → List (Result Unit) → W → Prop where
  | nil : WritesAll w [] [] w
  | cons : WrittenVia via buf w w₁ r → WritesAll w₁ jobs rs w' →
      WritesAll w ((via, buf) :: jobs) (r :: rs) w'

/-- While `I` holds a turn of the future in its first state waits there, or it is ready and leads to
`Q`. With `L` every turn that waits brings the end nearer. -/
def Stays (step : S × W → Turn (S × W) (Result Unit)) (start : S) (I : W → Prop)
    (Q : W → Result Unit → Prop) (L : Prop) (μ : W → Nat) : Prop :=
  ∀ w, I w → ∃ w',
    (step (start, w) = .pending (start, w') ∧ I w' ∧ (L → μ w' < μ w)) ∨
    ∃ s r, step (start, w) = .ready (s, w') r ∧ Q w' r

section
variable {step : S × W → Turn (S × W) (Result Unit)} {start : S} {I : W → Prop}
  {Q : W → Result Unit → Prop} {L : Prop} {μ : W → Nat} {w : W}

omit [AsyncWrite W] in
theorem Stays.post (h : Stays step start I Q L μ) (hw : I w)
    (H : Drives step (start, w) (s, w') r) : Q w' r := by
  refine H.post (I := fun s => s.1 = start ∧ I s.2) (Q := fun s r => Q s.2 r) ?_ ⟨rfl, hw⟩
  rintro ⟨_, w⟩ ⟨rfl, hw⟩
  obtain ⟨w', ⟨hstep, hw', -⟩ | ⟨s, r, hstep, hQ⟩⟩ := h w hw
  · exact .inl ⟨_, .inr hstep, rfl, hw'⟩
  · exact .inr ⟨_, _, hstep, hQ⟩

omit [AsyncWrite W] in
theorem Stays.exists_drives (h : Stays step start I Q L μ) (hw : I w) (hL : L) :
    ∃ s w' r, Drives step (start, w) (s, w') r := by
  have hI : ∀ s : S × W, s.1 = start ∧ I s.2 →
      (∃ s', Goes step s s' ∧ (s'.1 = start ∧ I s'.2) ∧ μ s'.2 < μ s.2) ∨
      ∃ s' r, step s = .ready s' r := by
    rintro ⟨_, w⟩ ⟨rfl, hw⟩
    obtain ⟨w', ⟨hstep, hw', hlt⟩ | ⟨s, r, hstep, -⟩⟩ := h w hw
    · exact .inl ⟨_, .inr hstep, ⟨rfl, hw'⟩, hlt hL⟩
    · exact .inr ⟨_, _, hstep⟩
  obtain ⟨⟨s, w'⟩, r, H⟩ := Turn.exists_drives (fun s => μ s.2) hI (s := (start, w)) ⟨rfl, hw⟩
  exact ⟨s, w', r, H⟩

end

/-- While `I` holds a poll with `buf` waits, takes all of it or fails, and leads to `Q` when it is
ready. With `L` every poll that waits brings the end nearer. -/
structure Whole (buf : Bytes) (I : W → Prop) (Q : W → Result Unit → Prop) (L : Prop) (μ : W → Nat) :
    Prop where
  poll : ∀ w, I w → ∃ w',
    (pollWrite w buf = (w', .pending) ∧ I w' ∧ (L → μ w' < μ w)) ∨
    (pollWrite w buf = (w', .ready (.ok buf.length)) ∧ Q w' (.ok ())) ∨
    ∃ e, pollWrite w buf = (w', .ready (.error e)) ∧ Q w' (.error e)

namespace Whole
variable {buf : Bytes} {I : W → Prop} {Q : W → Result Unit → Prop} {L : Prop} {μ : W → Nat} {w : W}

theorem writeAll (h : Whole buf I Q L μ) (hne : buf ≠ []) :
    Stays WriteAll.step (buf, 0) I Q L μ := by
  intro w hw
  have hempty : buf.isEmpty = false := by simpa using hne
  have hlen : buf.length ≠ 0 := by simpa using hne
  obtain ⟨w', ⟨hpoll, hw', hlt⟩ | ⟨hpoll, hQ⟩ | ⟨e, hpoll, hQ⟩⟩ := h.poll w hw
  · exact ⟨w', .inl ⟨by simp [WriteAll.step, hempty, hpoll], hw', hlt⟩⟩
  · exact ⟨w', .inr ⟨_, _, by simp [WriteAll.step, hempty, hpoll, hlen]; rfl, hQ⟩⟩
  · exact ⟨w', .inr ⟨_, _, by simp [WriteAll.step, hempty, hpoll]; rfl, hQ⟩⟩

theorem sendPacket (h : Whole buf I Q L μ) : Stays SendPacket.step (.new buf) I Q L μ := by
  intro w hw
  obtain ⟨w', ⟨hpoll, hw', hlt⟩ | ⟨hpoll, hQ⟩ | ⟨e, hpoll, hQ⟩⟩ := h.poll w hw
  · exact ⟨w', .inl ⟨by simp [SendPacket.step, SendPacket.new, hpoll], hw', hlt⟩⟩
  · exact ⟨w', .inr ⟨_, _, by simp [SendPacket.step, SendPacket.new, hpoll]; rfl, hQ⟩⟩
  · exact ⟨w', .inr ⟨_, _, by simp [SendPacket.step, SendPacket.new, hpoll]; rfl, hQ⟩⟩

theorem post (h : Whole buf I Q L μ) (hne : buf ≠ []) (hw : I w) (H : WrittenVia via buf w w' r) :
    Q w' r := by
  cases via with
  | writeAll =>
    obtain ⟨s, H⟩ := H
    exact (h.writeAll hne).post hw H
  | sendPacket =>
    obtain ⟨s, H⟩ := H
    exact h.sendPacket.post hw H

theorem exists_via (h : Whole buf I Q L μ) (hne : buf ≠ []) (hw : I w) (hL : L) (via : Via) :
    ∃ w' r, WrittenVia via buf w w' r := by
  cases via with
  | writeAll =>
    obtain ⟨s, w', r, H⟩ := (h.writeAll hne).exists_drives hw hL
    exact ⟨w', r, s, H⟩
  | sendPacket =>
    obtain ⟨s, w', r, H⟩ := h.sendPacket.exists_drives hw hL
    exact ⟨w', r, s, H⟩

end Whole
end
end Fuso

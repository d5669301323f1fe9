import Fuso.Async.Source
import Fuso.Protocol.Send
import Fuso.Theory.Seq

/-!
# What a writer has taken

An `Outlet` is a kind of writer that takes whole buffers and knows which it has taken: `WriteAll`
hands it a buffer (`Outlet.writeAll_step`), and with room for the buffer it comes to an end
(`Outlet.exists_writeAll`). `Exchanges` joins a source to it: the two halves of a stream that leave
each other alone.
-/

namespace Fuso
open Turn

/-- A kind of writer. `Sent bs w` says that `w` has taken the buffers `bs` and nothing else. In
`Sending bs buf L n w` it is polled with `buf`, behind `bs`; while `L` holds there is room for the
rest of `buf` and for `n` bytes more on the stream at the bottom. A buffer of `len` bytes costs
`cost len` of these. -/
structure Outlet (W : Type u) [AsyncWrite W] where
  fits : Bytes → Prop
  cost : Nat → Nat
  Room : Nat → W → Prop
  Sent : List Bytes → W → Prop
  Sending : List Bytes → Bytes → Prop → Nat → W → Prop
  turns : Bytes → W → Nat
  start : Sent bs w → fits buf → buf ≠ [] → (L → Room (cost buf.length + n) w) →
    Sending bs buf L n w
  poll : Sending bs buf L n w → ∃ w',
    (pollWrite w buf = (w', .pending) ∧ Sending bs buf L n w' ∧
      (L → turns buf w' < turns buf w)) ∨
    (pollWrite w buf = (w', .ready (.ok buf.length)) ∧ Sent (bs ++ [buf]) w' ∧ (L → Room n w'))

namespace Outlet
variable {W : Type u} [AsyncWrite W] (X : Outlet W)

/-- A writer that has taken `bs`, or is about to take the last of them. -/
def Took (bs : List Bytes) (w : W) : Prop :=
  X.Sent bs w ∨ ∃ bs' buf L n, bs = bs' ++ [buf] ∧ X.Sending bs' buf L n w

variable {X} {bs : List Bytes} {buf : Bytes} {L : Prop} {n : Nat} {w w' : W}

theorem whole (X : Outlet W) (bs : List Bytes) (buf : Bytes) (L : Prop) (n : Nat) :
    Whole buf (X.Sending bs buf L n)
      (fun w r => r = .ok () ∧ X.Sent (bs ++ [buf]) w ∧ (L → X.Room n w)) L (X.turns buf) where
  poll w h := by
    obtain ⟨w', ⟨hpoll, h', hlt⟩ | ⟨hpoll, hsent, hroom⟩⟩ := X.poll h
    · exact ⟨w', .inl ⟨hpoll, h', hlt⟩⟩
    · exact ⟨w', .inr (.inl ⟨hpoll, rfl, hsent, hroom⟩)⟩

/-- A turn of `WriteAll` with a buffer of which nothing was written. -/
theorem writeAll_step (hne : buf ≠ []) (h : X.Sending bs buf L n w) :
    ∃ w', w' = (pollWrite w buf).1 ∧
      (WriteAll.step ((buf, 0), w) = .pending ((buf, 0), w') ∧ X.Sending bs buf L n w' ∨
      WriteAll.step ((buf, 0), w) = .ready ((buf, 0 + buf.length), w') (.ok ()) ∧
        X.Sent (bs ++ [buf]) w') := by
  have hempty : buf.isEmpty = false := by simpa using hne
  have hlen : buf.length ≠ 0 := by simpa using hne
  obtain ⟨w', ⟨hpoll, h', -⟩ | ⟨hpoll, hsent, -⟩⟩ := X.poll h
  · exact ⟨w', by rw [hpoll], .inl ⟨by simp [WriteAll.step, hempty, hpoll], h'⟩⟩
  · exact ⟨w', by rw [hpoll], .inr ⟨by simp [WriteAll.step, hempty, hpoll, hlen], hsent⟩⟩

/-- With room for it the buffer is written. -/
theorem exists_writeAll (hne : buf ≠ []) (hfits : X.fits buf) (h : X.Sent bs w)
    (hroom : X.Room (X.cost buf.length + n) w) : ∃ s w', Drives WriteAll.step ((buf, 0), w) (s, w')
      (.ok ()) ∧ X.Sent (bs ++ [buf]) w' ∧ X.Room n w' := by
  have hwhole := X.whole bs buf True n
  have hsending := X.start (L := True) h hfits hne fun _ => hroom
  obtain ⟨s, w', r, H⟩ := (hwhole.writeAll hne).exists_drives hsending trivial
  obtain ⟨rfl, hsent, hroom'⟩ := (hwhole.writeAll hne).post hsending H
  exact ⟨s, w', H, hsent, hroom' trivial⟩

end Outlet

/-- What every write keeps a run of `WriteAll` keeps. -/
theorem WriteAll.keeps {W : Type u} [AsyncWrite W] {J : W → Prop}
    (hJ : ∀ w buf, J w → J (pollWrite w buf).1) {s s' : (Bytes × Nat) × W} (hs : J s.2)
    (H : Drives WriteAll.step s s' r) : J s'.2 := by
  have hstep : ∀ s : (Bytes × Nat) × W, J s.2 → J (WriteAll.step s).state.2 := by
    rintro ⟨⟨buf, offset⟩, w⟩ hw
    have hwrite := hJ w (buf.drop offset) hw
    simp only [WriteAll.step]
    split
    · exact hw
    split
    · next h => rw [h] at hwrite; exact hwrite
    · next h => rw [h] at hwrite; exact hwrite
    · next h =>
      rw [h] at hwrite
      split
      · exact hwrite
      · split <;> exact hwrite
  obtain ⟨u, hu, hr⟩ := drives_iff_reaches.1 H
  have hu' := hu.invariant (I := fun s => J s.2) (fun s s' hs hg => hg.state_eq ▸ hstep s hs) hs
  have hlast := hstep u hu'
  rwa [hr] at hlast

/-- Reading leaves alone what was written, and writing leaves alone what is left to be read. -/
structure Exchanges [AsyncRead W] [AsyncWrite W] (S : Source W) (X : Outlet W) : Prop where
  sent_read : X.Sent bs w → X.Sent bs (pollRead w buf).1
  sending_read : X.Sending bs data L n w → X.Sending bs data L n (pollRead w buf).1
  room_read : X.Room n w → X.Room n (pollRead w buf).1
  left_write : S.Left w b → S.Left (pollWrite w buf).1 b
  live_write : S.live w → S.live (pollWrite w buf).1

end Fuso

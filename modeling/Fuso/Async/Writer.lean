import Fuso.Async.Stream
import Fuso.Theory.Turn

/-!
# Writing buffer after buffer

A caller that writes one buffer after the other and polls each until the writer is ready, `Writes`,
with the rules for what all of them do (`Writes.post`, `exists_writes`). `Duplex.Roomy` counts the
answers of a stream that take bytes: one for every byte is enough.
-/

namespace Fuso
open Turn

/-- A caller that polls with the same buffer until the writer is ready. -/
def repoll [AsyncWrite W] (buf : Bytes) (w : W) : Turn W (Result Nat) :=
  match pollWrite w buf with
  | (w, .pending) => .pending w
  | (w, .ready r) => .ready w r

section
variable {σ : Type u} {ρ : Type v} (write : Bytes → σ → Turn σ ρ)

/-- The writes of the buffers, one after the other, are ready with `rs`. -/
inductive Writes : σ → List Bytes → List ρ → σ → Prop where
  | nil : Writes s [] [] s
  | cons : Drives (write buf) s s₁ r → Writes s₁ bufs rs s' → Writes s (buf :: bufs) (r :: rs) s'

variable {write} {bufs : List Bytes} {I : List Bytes → σ → Prop} {out : Bytes → ρ}

theorem Writes.post (hI : ∀ done buf s s' r, buf ∈ bufs → I done s → Drives (write buf) s s' r →
      r = out buf ∧ I (done ++ [buf]) s')
    (hs : I done s) (H : Writes write s bufs rs s') : rs = bufs.map out ∧ I (done ++ bufs) s' := by
  induction H generalizing done with
  | nil => exact ⟨rfl, by rwa [List.append_nil]⟩
  | @cons buf s s₁ r s₁' bufs rs H _ ih =>
    obtain ⟨rfl, hs₁⟩ := hI done buf _ _ _ (by simp) hs H
    obtain ⟨rfl, hs'⟩ := ih (fun done b s s' r hb => hI done b s s' r (by simp [hb])) hs₁
    exact ⟨rfl, by simpa using hs'⟩

/-- Writes that are each ready when there is room for what is still to come. -/
theorem exists_writes (room : List Bytes → σ → Prop) (hI : ∀ done buf rest s, buf ∈ bufs →
      I done s → room (buf :: rest) s →
      ∃ s' r, Drives (write buf) s s' r ∧ I (done ++ [buf]) s' ∧ room rest s')
    (hs : I done s) (hroom : room bufs s) : ∃ rs s', Writes write s bufs rs s' := by
  induction bufs generalizing done s with
  | nil => exact ⟨[], s, .nil⟩
  | cons buf bufs ih =>
    obtain ⟨s₁, r, H, hs₁, hroom₁⟩ := hI done buf bufs s (by simp) hs hroom
    obtain ⟨rs, s', Hs⟩ := ih (fun done b rest s hb => hI done b rest s (by simp [hb])) hs₁ hroom₁
    exact ⟨r :: rs, s', .cons H Hs⟩

end

namespace Duplex

/-- There are answers that take `n` bytes. -/
def Roomy (n : Nat) (d : Duplex) : Prop := n ≤ (sizes d.writes).length

/-- What a write of `data` leaves of a stream with an answer for every byte. -/
structure Takes (d : Duplex) (data : Bytes) (d' : Duplex) : Prop where
  sent : d'.sent = d.sent ++ data
  le : d'.writes.length ≤ d.writes.length
  room : ∀ n, d.Roomy (data.length + n) → d'.Roomy n

theorem Takes.trans {d d' d'' : Duplex} (h : d.Takes data d') (h' : d'.Takes data' d'') :
    d.Takes (data ++ data') d'' where
  sent := by rw [h'.sent, h.sent, List.append_assoc]
  le := Nat.le_trans h'.le h.le
  room n hn := h'.room n (h.room _ (by rwa [← Nat.add_assoc, ← List.length_append]))

/-- A write of a buffer that is not empty. It uses an answer up unless there is none. -/
theorem pollWrite_takes (d : Duplex) (buf : Bytes) (hne : buf ≠ []) : ∃ d',
    (AsyncWrite.pollWrite d buf = (d', .pending) ∧ d.Takes [] d' ∧
      (d.Roomy 1 → d'.writes.length < d.writes.length)) ∨
    ∃ k, 0 < k ∧ k ≤ buf.length ∧ AsyncWrite.pollWrite d buf = (d', .ready (.ok k)) ∧
      d.Takes (buf.take k) d' ∧ d'.writes.length < d.writes.length := by
  have hpos := List.length_pos_iff.2 hne
  cases hw : d.writes with
  | nil =>
    refine ⟨d, .inl ⟨pollWrite_nil hw buf, ⟨by simp, Nat.le_refl _, fun n h => by simpa using h⟩,
      fun h => ?_⟩⟩
    simp [Roomy, hw, sizes] at h
  | cons a writes =>
    cases a with
    | pending =>
      exact ⟨{ d with writes }, .inl ⟨pollWrite_pending hw buf,
        ⟨by simp, by simp [hw], fun n h => by simpa [Roomy, hw, sizes] using h⟩, by simp⟩⟩
    | upTo n =>
      refine ⟨_, .inr ⟨min (n + 1) buf.length, by omega, by omega, pollWrite_upTo hw buf,
        ⟨rfl, by simp [hw], fun m h => ?_⟩, by simp⟩⟩
      simp only [Roomy, hw, sizes, List.length_cons, List.length_take] at h ⊢
      omega

end Duplex
end Fuso

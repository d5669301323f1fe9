import Fuso.Async.Sink
import Fuso.Encryption.Encryptor

/-!
# What an encryptor writes

`pollWrite` of an encryptor over a sink, by the fate of the bytes it has to write. While `wbuf` is
empty these are a new message (`pollWrite_new`), else what is left of the last one
(`pollWrite_left`): then the poll is ready with the length of a buffer of which not a byte was
encrypted.
-/

namespace Fuso
open Turn Sink

namespace Encryptor
variable {G : Type} {C : Cipher G}

/-- What `writeOut` comes to, `pos` bytes into its buffer. -/
def Written (data : Bytes) (t : Sink) (pos : Nat) (turn : Turn (Sink × Nat) (Result Bool)) :
    Fate → Prop
  | .out => ∃ room, turn = .ready (⟨room, t.sent ++ data.drop pos⟩, data.length) (.ok true)
  | .waits => ∃ room pos', pos ≤ pos' ∧ pos' < data.length ∧
      turn = .pending (⟨room, t.sent ++ (data.drop pos).take (pos' - pos)⟩, pos')
  | .refused => ∃ room, turn = .ready (⟨room, t.sent⟩, pos) (.ok false)
  | .torn => ∃ s, turn = .ready s (.ok false)

theorem writeStep_ready {data : Bytes} {pos : Nat} (k : Nat) (room : List (Poll Nat)) (sent : Bytes)
    (hlt : pos < data.length) :
    writeStep data ((⟨.ready (k + 1) :: room, sent⟩ : Sink), pos) =
      if data.length ≤ pos + (k + 1) then
        .ready (⟨room, sent ++ data.drop pos⟩, data.length) (.ok true)
      else .again (⟨room, sent ++ (data.drop pos).take (k + 1)⟩, pos + (k + 1)) := by
  simp only [writeStep, AsyncWrite.pollWrite, Sink.pollWrite, List.length_drop]
  rw [if_neg (by omega)]
  by_cases hle : data.length ≤ pos + (k + 1)
  · have hmin : min (k + 1) (data.length - pos) = data.length - pos := by omega
    rw [if_pos hle, hmin, if_pos (by omega), List.take_of_length_le (by simp)]
    congr
    omega
  · have hmin : min (k + 1) (data.length - pos) = k + 1 := by omega
    rw [if_neg hle, hmin, if_neg (by omega)]

theorem poll_writeStep {data : Bytes} (n : Nat) (t : Sink) (pos : Nat) (hlt : pos < data.length)
    (hn : data.length - pos < n) :
    Written data t pos (poll (writeStep data) n (t, pos)) (fate t.room (data.length - pos)) := by
  induction n generalizing t pos with
  | zero => omega
  | succ n ih =>
    obtain ⟨room, sent⟩ := t
    obtain ⟨m, hm⟩ : ∃ m, data.length - pos = m + 1 := ⟨data.length - pos - 1, by omega⟩
    have hstay : (data.drop pos).take (pos - pos) = [] := by simp
    rw [hm]
    cases room with
    | nil => exact ⟨[], pos, Nat.le_refl _, hlt, by rw [hstay, List.append_nil]; rfl⟩
    | cons a room =>
      cases a with
      | pending => exact ⟨room, pos, Nat.le_refl _, hlt, by rw [hstay, List.append_nil]; rfl⟩
      | ready k =>
        cases k with
        | zero => exact ⟨room, by simp [poll, writeStep, AsyncWrite.pollWrite, Sink.pollWrite]⟩
        | succ k =>
          simp only [poll, writeStep_ready k room sent hlt, fate_ready]
          by_cases hle : data.length ≤ pos + (k + 1)
          · rw [if_pos hle, show m - k = 0 by omega, fate_zero]
            exact ⟨room, rfl⟩
          · rw [if_neg hle]
            have hrest := ih ⟨room, sent ++ (data.drop pos).take (k + 1)⟩ (pos + (k + 1)) (by omega)
              (by omega)
            rw [show data.length - (pos + (k + 1)) = m - k by omega] at hrest
            dsimp only at hrest
            cases hf : fate room (m - k) with
            | out =>
              rw [hf] at hrest
              obtain ⟨room', hr⟩ := hrest
              refine ⟨room', hr.trans ?_⟩
              rw [List.append_assoc, ← List.drop_drop, List.take_append_drop]
            | waits =>
              rw [hf] at hrest
              obtain ⟨room', pos', hle', hlt', hr⟩ := hrest
              refine ⟨room', pos', by omega, hlt', hr.trans ?_⟩
              rw [List.append_assoc, ← List.drop_drop, ← List.take_add,
                show k + 1 + (pos' - (pos + (k + 1))) = pos' - pos by omega]
            | refused =>
              rw [hf] at hrest
              obtain ⟨room', hr⟩ := hrest
              exact ⟨_, hr⟩
            | torn =>
              rw [hf] at hrest
              exact hrest

theorem writeOut_spec {data : Bytes} {pos : Nat} (t : Sink) (hlt : pos < data.length) :
    Written data t pos (writeOut data t pos) (fate t.room (data.length - pos)) :=
  poll_writeStep _ t pos hlt (by omega)

/-! ## A poll -/

/-- What a `pollWrite` of `buf` comes to that has `rest` to write. -/
def Wrote (this : Encryptor C Sink) (buf rest : Bytes) : Fate → Prop
  | .out => ∃ this', this.pollWrite buf = (this', .ready (.ok buf.length)) ∧ this'.wbuf = none ∧
      this'.target.sent = this.target.sent ++ rest
  | .waits => ∃ this' wbuf n, this.pollWrite buf = (this', .pending) ∧ this'.wbuf = some wbuf ∧
      this'.wpos < wbuf.length ∧ this'.target.sent = this.target.sent ++ rest.take n ∧
      wbuf.drop this'.wpos = rest.drop n
  | .refused => ∃ this', this.pollWrite buf = (this', .ready (.ok 0)) ∧ this'.wbuf = none ∧
      this'.target.sent = this.target.sent
  | .torn => ∃ this', this.pollWrite buf = (this', .ready (.ok 0)) ∧ this'.wbuf = none

variable {this : Encryptor C Sink} {buf f w : Bytes} {rng : G}

/-- A message that cannot be encrypted leaves no trace. -/
theorem pollWrite_error (hw : this.wbuf = none) (hc : C.encrypt this.rng buf = (.error e, rng)) :
    ∃ this', this.pollWrite buf = (this', .ready (.error e)) ∧ this'.wbuf = none ∧
      this'.target.sent = this.target.sent :=
  ⟨{ this with rng }, by simp only [pollWrite, hw, pollEncryptWrite, hc], hw, rfl⟩

/-- A new message. -/
theorem pollWrite_new (hw : this.wbuf = none) (hc : C.encrypt this.rng buf = (.ok f, rng))
    (hf : f ≠ []) : Wrote this buf f (fate this.target.room f.length) := by
  have hspec := writeOut_spec this.target (List.length_pos_iff.2 hf)
  rw [Nat.sub_zero] at hspec
  cases hfate : fate this.target.room f.length with
  | out =>
    rw [hfate] at hspec
    obtain ⟨room, h⟩ := hspec
    rw [List.drop_zero] at h
    exact ⟨{ this with rng, target := ⟨room, this.target.sent ++ f⟩, wbuf := none },
      by simp only [pollWrite, hw, pollEncryptWrite, hc, h], rfl, rfl⟩
  | waits =>
    rw [hfate] at hspec
    obtain ⟨room, pos, -, hlt, h⟩ := hspec
    rw [Nat.sub_zero, List.drop_zero] at h
    exact ⟨{ this with rng, target := ⟨room, this.target.sent ++ f.take pos⟩, wpos := 0,
                       wbuf := some (f.drop pos) }, f.drop pos, pos,
      by simp only [pollWrite, hw, pollEncryptWrite, hc, h], rfl,
      by rw [List.length_drop]; exact Nat.sub_pos_of_lt hlt, rfl, List.drop_zero⟩
  | refused =>
    rw [hfate] at hspec
    obtain ⟨room, h⟩ := hspec
    exact ⟨{ this with rng, target := ⟨room, this.target.sent⟩, wbuf := none },
      by simp only [pollWrite, hw, pollEncryptWrite, hc, h], rfl, rfl⟩
  | torn =>
    rw [hfate] at hspec
    obtain ⟨⟨t, pos⟩, h⟩ := hspec
    exact ⟨{ this with rng, target := t, wbuf := none },
      by simp only [pollWrite, hw, pollEncryptWrite, hc, h], rfl⟩

/-- What is left of the last message. -/
theorem pollWrite_left (hw : this.wbuf = some w) (hlt : this.wpos < w.length) (buf : Bytes) :
    Wrote this buf (w.drop this.wpos) (fate this.target.room (w.drop this.wpos).length) := by
  have hspec := writeOut_spec this.target hlt
  rw [List.length_drop]
  cases hfate : fate this.target.room (w.length - this.wpos) with
  | out =>
    rw [hfate] at hspec
    obtain ⟨room, h⟩ := hspec
    exact ⟨{ this with target := ⟨room, _⟩, wpos := w.length, wbuf := none },
      by simp only [pollWrite, hw, h], rfl, rfl⟩
  | waits =>
    rw [hfate] at hspec
    obtain ⟨room, pos, hle, hlt', h⟩ := hspec
    refine ⟨{ this with target := ⟨room, _⟩, wpos := pos, wbuf := some w }, w, pos - this.wpos,
      by simp only [pollWrite, hw, h], rfl, hlt', rfl, ?_⟩
    rw [List.drop_drop, Nat.add_sub_cancel' hle]
  | refused =>
    rw [hfate] at hspec
    obtain ⟨room, h⟩ := hspec
    exact ⟨{ this with target := ⟨room, _⟩, wbuf := none }, by simp only [pollWrite, hw, h],
      rfl, rfl⟩
  | torn =>
    rw [hfate] at hspec
    obtain ⟨⟨t, pos⟩, h⟩ := hspec
    exact ⟨{ this with target := t, wpos := pos, wbuf := none },
      by simp only [pollWrite, hw, h], rfl⟩

end Encryptor
end Fuso

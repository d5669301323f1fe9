import Fuso.Async.Writer
import Fuso.Encryption.Encryptor

/-!
# The writes of an encryptor

A buffer that is written to an idle encryptor over a stream, polled until it is ready, becomes one
message on the stream, however the stream takes it (`Encryptor.drives_repoll`), and the write is
ready when there is an answer for every byte (`Encryptor.exists_repoll`).
-/

namespace Fuso
open Turn

namespace Encryptor
variable {G : Type} {C : Cipher G}

/-- The loop that writes a buffer out, on a stream: all of it is out, or a part of it is and the
stream is not ready. -/
theorem writeOut_duplex {data : Bytes} {pos : Nat} (d : Duplex) (hlt : pos < data.length) :
    (∃ d' pos', writeOut data d pos = .pending (d', pos') ∧ pos ≤ pos' ∧ pos' < data.length ∧
      d.Takes ((data.drop pos).take (pos' - pos)) d' ∧
      (d.Roomy (data.length - pos) → d'.writes.length < d.writes.length)) ∨
    ∃ d', writeOut data d pos = .ready (d', data.length) (.ok true) ∧
      d.Takes (data.drop pos) d' := by
  have hpoll := poll_post (writeStep data) (s := (d, pos)) (n := data.length + 1)
    (I := fun s => pos ≤ s.2 ∧ s.2 < data.length ∧ d.Takes ((data.drop pos).take (s.2 - pos)) s.1)
    (P := fun s => pos ≤ s.2 ∧ s.2 < data.length ∧
      d.Takes ((data.drop pos).take (s.2 - pos)) s.1 ∧
      (d.Roomy (data.length - pos) → s.1.writes.length < d.writes.length))
    (Q := fun s r => r = .ok true ∧ s.2 = data.length ∧ d.Takes (data.drop pos) s.1)
    (fun s => data.length - s.2) ?_ ?_ (by dsimp only; omega)
  · rcases hpoll with ⟨⟨d', pos'⟩, h, hP⟩ | ⟨⟨d', pos'⟩, r, h, rfl, rfl, htakes⟩
    · exact .inl ⟨d', pos', h, hP⟩
    · exact .inr ⟨d', h, htakes⟩
  · rintro ⟨d', pos'⟩ ⟨hle, hlt', htakes⟩
    dsimp only at hle hlt' htakes ⊢
    have hdrop : data.drop pos' = (data.drop pos).drop (pos' - pos) := by
      rw [List.drop_drop, Nat.add_sub_cancel' hle]
    have htaken : ((data.drop pos).take (pos' - pos)).length = pos' - pos := by
      rw [List.length_take, List.length_drop]
      omega
    obtain ⟨d'', ⟨hwrite, htakes', huses⟩ | ⟨k, hk, hkle, hwrite, htakes', -⟩⟩ :=
      d'.pollWrite_takes (data.drop pos') (by simpa using hlt')
    · refine .inr (.inl ⟨(d'', pos'), by simp only [writeStep, hwrite], hle, hlt', ?_,
        fun hroom => ?_⟩)
      · simpa using htakes.trans htakes'
      · have hroom' : d'.Roomy (data.length - pos') :=
          htakes.room _ (by rw [htaken, show pos' - pos + (data.length - pos') =
            data.length - pos by omega]; exact hroom)
        exact Nat.lt_of_lt_of_le (huses (by unfold Duplex.Roomy at *; omega)) htakes.le
    · rw [List.length_drop] at hkle
      have hall := htakes.trans htakes'
      rw [hdrop, ← List.take_add] at hall
      by_cases hlast : pos' + k = data.length
      · refine .inr (.inr ⟨(d'', pos' + k), .ok true, ?_, rfl, hlast, ?_⟩)
        · simp only [writeStep, hwrite, Nat.ne_of_gt hk, hlast, if_true, if_false]
        · rwa [List.take_of_length_le (by rw [List.length_drop]; omega)] at hall
      · refine .inl ⟨(d'', pos' + k), ?_, ⟨by omega, by omega, ?_⟩, by omega⟩
        · simp only [writeStep, hwrite, Nat.ne_of_gt hk, hlast, if_false]
        · rwa [show pos' - pos + k = pos' + k - pos by omega] at hall
  · exact ⟨Nat.le_refl _, hlt, by simp, Nat.le_refl _, fun n h => by simpa using h⟩

/-- What a `poll_write` leaves that has `rest` to write: it is out, or a part of it is and the rest
of it stays in `wbuf`. -/
inductive Sends (this : Encryptor C Duplex) (buf rest : Bytes) :
    Encryptor C Duplex × Poll (Result Nat) → Prop where
  | waits : this'.wbuf = some w → this'.wpos < w.length →
      this.target.Takes data this'.target → rest = data ++ w.drop this'.wpos →
      (this.target.Roomy rest.length →
        this'.target.writes.length < this.target.writes.length) →
      Sends this buf rest (this', .pending)
  | out : this'.wbuf = none → this.target.Takes rest this'.target →
      Sends this buf rest (this', .ready (.ok buf.length))

variable {this this' : Encryptor C Duplex} {buf f w : Bytes} {rng : G}

/-- A new message. -/
theorem sends_new (hw : this.wbuf = none) (hc : C.encrypt this.rng buf = (.ok f, rng))
    (hf : f ≠ []) : Sends this buf f (this.pollWrite buf) := by
  rcases writeOut_duplex this.target (List.length_pos_iff.2 hf) with
    ⟨d', pos, h, -, hlt, htakes, huses⟩ | ⟨d', h, htakes⟩
  · have hpoll : this.pollWrite buf =
        ({ this with rng, target := d', wpos := 0, wbuf := some (f.drop pos) }, .pending) := by
      simp only [pollWrite, hw, pollEncryptWrite, hc, h]
    rw [hpoll]
    exact .waits rfl (by rw [List.length_drop]; exact Nat.sub_pos_of_lt hlt) htakes
      (by simp) (by simpa using huses)
  · have hpoll : this.pollWrite buf =
        ({ this with rng, target := d', wbuf := none }, .ready (.ok buf.length)) := by
      simp only [pollWrite, hw, pollEncryptWrite, hc, h]
    rw [hpoll]
    exact .out rfl htakes

/-- What is left of the last one. -/
theorem sends_left (hw : this.wbuf = some w) (hlt : this.wpos < w.length) :
    Sends this buf (w.drop this.wpos) (this.pollWrite buf) := by
  rcases writeOut_duplex this.target hlt with ⟨d', pos, h, hle, hlt', htakes, huses⟩ |
    ⟨d', h, htakes⟩
  · have hpoll : this.pollWrite buf =
        ({ this with target := d', wpos := pos, wbuf := some w }, .pending) := by
      simp only [pollWrite, hw, h]
    rw [hpoll]
    refine .waits rfl hlt' htakes ?_ (by simpa using huses)
    rw [show w.drop pos = (w.drop this.wpos).drop (pos - this.wpos) by
      rw [List.drop_drop, Nat.add_sub_cancel' hle], List.take_append_drop]
  · have hpoll : this.pollWrite buf =
        ({ this with target := d', wpos := w.length, wbuf := none },
          .ready (.ok buf.length)) := by
      simp only [pollWrite, hw, h]
    rw [hpoll]
    exact .out rfl htakes

/-- Between two polls with the same buffer: nothing has happened, or a part of the message `f` is
out. -/
def Sending (start : Encryptor C Duplex) (f : Bytes) (this : Encryptor C Duplex) : Prop :=
  this = start ∨ ∃ w data, this.wbuf = some w ∧ this.wpos < w.length ∧
    start.target.Takes data this.target ∧ f = data ++ w.drop this.wpos

variable {start : Encryptor C Duplex}

/-- A poll with the buffer goes on with its message. -/
theorem Sending.poll (h : Sending start f this) (hw : start.wbuf = none)
    (hc : C.encrypt start.rng buf = (.ok f, rng)) (hf : f ≠ []) : ∃ this',
    (this.pollWrite buf = (this', .pending) ∧ Sending start f this' ∧
      (start.target.Roomy f.length →
        this'.target.writes.length < this.target.writes.length)) ∨
    (this.pollWrite buf = (this', .ready (.ok buf.length)) ∧ this'.wbuf = none ∧
      start.target.Takes f this'.target) := by
  obtain ⟨data, rest, rfl, htakes, hsends⟩ : ∃ data rest, f = data ++ rest ∧
      start.target.Takes data this.target ∧ Sends this buf rest (this.pollWrite buf) := by
    rcases h with rfl | ⟨w, data, hw', hlt, htakes, rfl⟩
    · exact ⟨[], f, rfl, ⟨by simp, Nat.le_refl _, fun n h => by simpa using h⟩, sends_new hw hc hf⟩
    · exact ⟨data, _, rfl, htakes, sends_left hw' hlt⟩
  generalize this.pollWrite buf = poll at hsends ⊢
  cases hsends with
  | @waits w data' this' hw' hlt htakes' hrest huses =>
    refine ⟨this', .inl ⟨rfl, .inr ⟨w, data ++ data', hw', hlt, htakes.trans htakes',
      by rw [hrest, List.append_assoc]⟩, fun hroom => huses ?_⟩⟩
    rw [List.length_append] at hroom
    exact htakes.room _ hroom
  | @out this' hw' htakes' => exact ⟨this', .inr ⟨rfl, hw', htakes.trans htakes'⟩⟩

/-- A buffer that is written is one message. -/
theorem drives_repoll (hw : start.wbuf = none) (hc : C.encrypt start.rng buf = (.ok f, rng))
    (hf : f ≠ []) (H : Drives (repoll buf) start this r) :
    r = .ok buf.length ∧ this.wbuf = none ∧ start.target.Takes f this.target := by
  refine H.post (I := Sending start f) (Q := fun this r => r = .ok buf.length ∧
    this.wbuf = none ∧ start.target.Takes f this.target) (fun this h => ?_) (.inl rfl)
  obtain ⟨this', ⟨hpoll, h', -⟩ | ⟨hpoll, hw', htakes⟩⟩ := h.poll hw hc hf
  · exact .inl ⟨this', .inr (by simp only [repoll, AsyncWrite.pollWrite, hpoll]), h'⟩
  · exact .inr ⟨this', _, by simp only [repoll, AsyncWrite.pollWrite, hpoll], rfl, hw', htakes⟩

/-- With an answer for every byte of its message the write is ready. -/
theorem exists_repoll (hw : start.wbuf = none) (hc : C.encrypt start.rng buf = (.ok f, rng))
    (hf : f ≠ []) (hroom : start.target.Roomy f.length) :
    ∃ this r, Drives (repoll buf) start this r := by
  refine exists_drives (I := Sending start f) (·.target.writes.length) (fun this h => ?_) (.inl rfl)
  obtain ⟨this', ⟨hpoll, h', huses⟩ | ⟨hpoll, -⟩⟩ := h.poll hw hc hf
  · exact .inl ⟨this', .inr (by simp only [repoll, AsyncWrite.pollWrite, hpoll]), h', huses hroom⟩
  · exact .inr ⟨this', _, by simp only [repoll, AsyncWrite.pollWrite, hpoll]; rfl⟩

end Encryptor
end Fuso

import Fuso.Async.Stream
import Fuso.Theory.Turn

/-!
# `WriteAll` and the copy loop

`WriteAll` writes a buffer however the writes are cut (`WriteAll.drives`, `WriteAll.exists_drives`).
`Copy` is one direction of a relay: it reads up to 1500 bytes, writes them all and starts over, and
at the end of its source it flushes and closes the destination.
-/

namespace Fuso
open Turn

/-- A turn of the loop of `WriteAll`, `offset` bytes into `buf`. -/
def WriteAll.step [AsyncWrite W] : (Bytes × Nat) × W → Turn ((Bytes × Nat) × W) (Result Unit)
  | ((buf, offset), writer) =>
    if buf.isEmpty then .ready ((buf, offset), writer) (.ok ())
    else match pollWrite writer (buf.drop offset) with
    | (writer, .pending) => .pending ((buf, offset), writer)
    | (writer, .ready (.error e)) => .ready ((buf, offset), writer) (.error e)
    | (writer, .ready (.ok n)) =>
      if n = 0 then .ready ((buf, offset), writer) (.error (.io .connectionReset))
      else if offset + n = buf.length then .ready ((buf, offset + n), writer) (.ok ())
      else .again ((buf, offset + n), writer)

/-- Where control is in `copy`. `Flush::poll` is a `poll_close`, so the destination is closed
twice. -/
inductive Copy where
  | read
  | write (buf : Bytes) (offset : Nat)
  | flush
  | close
  deriving DecidableEq

namespace Copy

def step [AsyncRead R] [AsyncWrite W] : Copy → R × W → Turn (Copy × R × W) (Result Unit)
  | .read, (reader, writer) =>
    match pollRead reader (.new 1500) with
    | (reader, _, .pending) => .pending (.read, reader, writer)
    | (reader, _, .ready (.error e)) => .ready (.read, reader, writer) (.error e)
    | (reader, buf, .ready (.ok n)) =>
      if n = 0 then .again (.flush, reader, writer)
      else .again (.write (buf.filled.take n) 0, reader, writer)
  | .write buf offset, (reader, writer) =>
    match WriteAll.step ((buf, offset), writer) with
    | .again ((buf, offset), writer) => .again (.write buf offset, reader, writer)
    | .pending ((buf, offset), writer) => .pending (.write buf offset, reader, writer)
    | .ready (_, writer) (.ok ()) => .again (.read, reader, writer)
    | .ready ((buf, offset), writer) (.error e) =>
      .ready (.write buf offset, reader, writer) (.error e)
  | .flush, (reader, writer) =>
    match pollClose writer with
    | (writer, .pending) => .pending (.flush, reader, writer)
    | (writer, .ready _) => .again (.close, reader, writer)
  | .close, (reader, writer) =>
    match pollClose writer with
    | (writer, .pending) => .pending (.close, reader, writer)
    | (writer, .ready r) => .ready (.close, reader, writer) r

/-- The bytes that were read and are not yet written. -/
def inFlight : Copy → Bytes
  | .write buf offset => buf.drop offset
  | _ => []

end Copy

/-! ## `WriteAll` on a stream -/

namespace WriteAll

/-- A turn of `WriteAll` on a stream: it is not ready, or some bytes of what is left go out. -/
theorem step_duplex {buf : Bytes} {offset : Nat} (d : Duplex) (hlt : offset < buf.length) :
    ∃ writes, step ((buf, offset), d) = .pending ((buf, offset), { d with writes }) ∨
      ∃ k, offset + k ≤ buf.length ∧
        let s' := ((buf, offset + k), { d with sent := d.sent ++ (buf.drop offset).take k, writes })
        (offset + k = buf.length → step ((buf, offset), d) = .ready s' (.ok ())) ∧
        (offset + k ≠ buf.length → step ((buf, offset), d) = .again s') := by
  have hne : buf.isEmpty = false := by cases buf <;> simp_all
  have hdrop : buf.drop offset ≠ [] := by simpa using hlt
  obtain ⟨writes, hpend | ⟨k, hk, hle, hwrite⟩⟩ := d.pollWrite_cases hdrop
  · refine ⟨writes, .inl ?_⟩
    simp only [step, hne, hpend, Bool.false_eq_true, if_false]
  · rw [List.length_drop] at hle
    refine ⟨writes, .inr ⟨k, by omega, fun h => ?_, fun h => ?_⟩⟩
    all_goals
      simp only [step, hne, hwrite, Bool.false_eq_true, if_false]
      rw [if_neg (Nat.ne_of_gt hk)]
    · rw [if_pos h]
    · rw [if_neg h]

/-- The first `offset` bytes are out. -/
def Written (buf sent : Bytes) (s : (Bytes × Nat) × Duplex) : Prop :=
  s.1.1 = buf ∧ s.1.2 < buf.length ∧ s.2.sent = sent ++ buf.take s.1.2

/-- A buffer that is not empty is written as a whole. -/
theorem drives {buf : Bytes} {d : Duplex} (hne : buf ≠ [])
    (H : Drives step ((buf, 0), d) s r) : r = .ok () ∧ s.2.sent = d.sent ++ buf := by
  refine H.post (I := Written buf d.sent) (Q := fun s r => r = .ok () ∧ s.2.sent = d.sent ++ buf) ?_
    ⟨rfl, List.length_pos_iff.2 hne, by simp⟩
  rintro ⟨⟨buf', offset⟩, d'⟩ ⟨hbuf, hlt, hsent⟩
  obtain rfl : buf = buf' := hbuf.symm
  dsimp only at *
  obtain ⟨writes, hpend | ⟨k, hle, hlast, hagain⟩⟩ := step_duplex d' hlt
  · exact .inl ⟨_, .inr hpend, rfl, hlt, hsent⟩
  · have htake : d'.sent ++ (buf.drop offset).take k = d.sent ++ buf.take (offset + k) := by
      rw [hsent, List.append_assoc, ← List.take_add]
    by_cases h : offset + k = buf.length
    · rw [h, List.take_length] at htake
      exact .inr ⟨_, _, hlast h, rfl, htake⟩
    · exact .inl ⟨_, .inl (hagain h), rfl, Nat.lt_of_le_of_ne hle h, htake⟩

/-- With an answer for every byte a buffer is written, and no more answers are used up. -/
theorem exists_drives {buf : Bytes} {offset : Nat} {d : Duplex} (hlt : offset < buf.length)
    (hans : buf.length - offset ≤ (sizes d.writes).length) :
    ∃ s d', Drives step ((buf, offset), d) (s, d') (.ok ()) ∧
      (sizes d.writes).length ≤ (sizes d'.writes).length + (buf.length - offset) := by
  have hne : buf.isEmpty = false := by cases buf <;> simp_all
  generalize hw : d.writes = answers at hans
  induction answers generalizing d offset with
  | nil =>
    rw [sizes, List.length_nil] at hans
    omega
  | cons a writes ih =>
    cases a with
    | pending =>
      have hstep : step ((buf, offset), d) = .pending ((buf, offset), { d with writes }) := by
        simp only [step, hne, Duplex.pollWrite_pending hw, Bool.false_eq_true, if_false]
      obtain ⟨s, d', H, hle⟩ := ih (d := { d with writes }) hlt rfl hans
      exact ⟨s, d', .pending hstep H, hle⟩
    | upTo n =>
      rw [sizes, List.length_cons] at hans ⊢
      have hpoll := Duplex.pollWrite_upTo hw (buf.drop offset)
      rw [List.length_drop] at hpoll
      generalize hk : min (n + 1) (buf.length - offset) = k at hpoll
      let d₁ := { d with sent := d.sent ++ (buf.drop offset).take k, writes }
      by_cases hfull : offset + k = buf.length
      · have hstep : step ((buf, offset), d) = .ready ((buf, offset + k), d₁) (.ok ()) := by
          simp only [step, hne, hpoll, Bool.false_eq_true, if_false, d₁]
          rw [if_neg (by omega), if_pos hfull]
        exact ⟨_, d₁, .ready hstep, by dsimp only [d₁]; omega⟩
      · have hstep : step ((buf, offset), d) = .again ((buf, offset + k), d₁) := by
          simp only [step, hne, hpoll, Bool.false_eq_true, if_false, d₁]
          rw [if_neg (by omega), if_neg hfull]
        have hlt' : offset + k < buf.length := by omega
        obtain ⟨s, d', H, hle⟩ := ih (d := d₁) hlt' rfl (by omega)
        exact ⟨s, d', .again hstep H, by omega⟩

end WriteAll

/-! ## A copy between two streams -/

namespace Copy

/-- What a copy knows: it has not written all of its buffer, and behind its last read its source is
empty. -/
def Valid (c : Copy) (reader : Duplex) : Prop :=
  match c with
  | .read => True
  | .write buf offset => offset < buf.length
  | .flush | .close => reader.incoming = []

/-- What a turn of a copy does to the two streams: the bytes that are written, in flight and unread
stay the same, in this order, and the other direction of the streams is not touched. -/
structure Moves (s s' : Copy × Duplex × Duplex) : Prop where
  total : s'.2.2.sent ++ s'.1.inFlight ++ s'.2.1.incoming =
    s.2.2.sent ++ s.1.inFlight ++ s.2.1.incoming
  valid : s'.1.Valid s'.2.1
  reader : s'.2.1.sent = s.2.1.sent
  writer : s'.2.2.incoming = s.2.2.incoming

theorem Moves.refl {s : Copy × Duplex × Duplex} (h : s.1.Valid s.2.1) : Moves s s :=
  ⟨rfl, h, rfl, rfl⟩

theorem Moves.trans {s s₁ s' : Copy × Duplex × Duplex} (h : Moves s s₁) (h' : Moves s₁ s') :
    Moves s s' :=
  ⟨h'.total.trans h.total, h'.valid, h'.reader.trans h.reader, h'.writer.trans h.writer⟩

/-- A turn of a copy. It is ready only when its source is at its end. -/
theorem step_duplex {c : Copy} {reader : Duplex} (writer : Duplex) (h : c.Valid reader) :
    ∃ s', Moves (c, reader, writer) s' ∧
      (step c (reader, writer) = .again s' ∨ step c (reader, writer) = .pending s' ∨
        s'.1 = .close ∧ step c (reader, writer) = .ready s' (.ok ())) := by
  cases c with
  | read =>
    obtain ⟨reads, buf, rest, hin, hpoll⟩ := reader.pollRead_new 1500
    let reader' := { reader with incoming := rest, reads }
    obtain ⟨hread, hnil⟩ | ⟨hread, heof⟩ := hpoll
    · exact ⟨(.read, reader', writer), ⟨by simp [inFlight, hin, hnil, reader'], trivial, rfl, rfl⟩,
        .inr (.inl (by simp only [step, hread]; rfl))⟩
    · by_cases h0 : buf.filled = []
      · have hend : reader.incoming = [] := (heof h0).resolve_left (by decide)
        have hrest : rest = [] := by simpa [h0, hend, eq_comm] using hin
        exact ⟨(.flush, reader', writer),
          ⟨by simp [inFlight, hend, hrest, reader'], hrest, rfl, rfl⟩,
          .inl (by simp only [step, hread, h0, List.length_nil, if_true]; rfl)⟩
      · have hlen : buf.filled.length ≠ 0 := by simpa using h0
        refine ⟨(.write buf.filled 0, reader', writer), ⟨by simp [inFlight, hin, reader'],
          Nat.pos_of_ne_zero hlen, rfl, rfl⟩, .inl ?_⟩
        simp only [step, hread, if_neg hlen, List.take_length]
        rfl
  | write buf offset =>
    obtain ⟨writes, hpend | ⟨k, hle, hlast, hagain⟩⟩ := WriteAll.step_duplex writer h
    · exact ⟨(.write buf offset, reader, { writer with writes }), ⟨rfl, h, rfl, rfl⟩,
        .inr (.inl (by simp only [step, hpend]))⟩
    · let writer' := { writer with sent := writer.sent ++ (buf.drop offset).take k, writes }
      have hsplit : (buf.drop offset).take k ++ buf.drop (offset + k) = buf.drop offset := by
        rw [← List.drop_drop, List.take_append_drop]
      by_cases hfull : offset + k = buf.length
      · rw [hfull, List.drop_length, List.append_nil] at hsplit
        exact ⟨(.read, reader, writer'), ⟨by simp [inFlight, writer', hsplit], trivial, rfl, rfl⟩,
          .inl (by simp only [step, hlast hfull, writer'])⟩
      · exact ⟨(.write buf (offset + k), reader, writer'),
          ⟨by simp only [inFlight, writer']; rw [List.append_assoc writer.sent, hsplit],
            Nat.lt_of_le_of_ne hle hfull, rfl, rfl⟩,
          .inl (by simp only [step, hagain hfull, writer'])⟩
  | flush =>
    obtain ⟨closes, poll, hclose, rfl | rfl⟩ := writer.pollClose_cases
    · exact ⟨(.flush, reader, { writer with closes }), ⟨rfl, h, rfl, rfl⟩,
        .inr (.inl (by simp only [step, hclose]))⟩
    · exact ⟨(.close, reader, { writer with closes }), ⟨rfl, h, rfl, rfl⟩,
        .inl (by simp only [step, hclose])⟩
  | close =>
    obtain ⟨closes, poll, hclose, rfl | rfl⟩ := writer.pollClose_cases
    · exact ⟨(.close, reader, { writer with closes }), ⟨rfl, h, rfl, rfl⟩,
        .inr (.inl (by simp only [step, hclose]))⟩
    · exact ⟨(.close, reader, { writer with closes }), ⟨rfl, h, rfl, rfl⟩,
        .inr (.inr ⟨rfl, by simp only [step, hclose]⟩)⟩

/-- The copy has nothing left to read and nothing left to write. -/
def Moved (s : Copy × Duplex × Duplex) : Prop := s.2.1.incoming = [] ∧ s.1.inFlight = []

/-- A turn of a copy that is polled alone. -/
def turn (s : Copy × Duplex × Duplex) : Turn (Copy × Duplex × Duplex) (Result Unit) :=
  s.1.step s.2

variable {s s' : Copy × Duplex × Duplex}

theorem moves_of_reaches (hs : s.1.Valid s.2.1) (H : Reaches turn s s') : Moves s s' := by
  refine H.invariant (fun s₁ s₂ h hg => ?_) (.refl hs)
  obtain ⟨s₃, hm, h₁ | h₁ | ⟨-, h₁⟩⟩ := step_duplex s₁.2.2 h.valid
  · exact h.trans (hg.unique (.inl h₁) ▸ hm)
  · exact h.trans (hg.unique (.inr h₁) ▸ hm)
  · rcases hg with hg | hg <;> exact nomatch h₁.symm.trans hg

/-- A copy that is ready has moved all of its bytes. -/
theorem moved_of_drives (hs : s.1.Valid s.2.1) (H : Drives turn s s' r) :
    Moves s s' ∧ Moved s' := by
  obtain ⟨u, hu, hr⟩ := drives_iff_reaches.1 H
  have h := moves_of_reaches hs hu
  obtain ⟨s₁, hm, h₁ | h₁ | ⟨hclose, h₁⟩⟩ := step_duplex u.2.2 h.valid
  · exact nomatch h₁.symm.trans hr
  · exact nomatch h₁.symm.trans hr
  · obtain rfl : s₁ = s' := (Turn.ready.inj (h₁.symm.trans hr)).1
    have hend := hm.valid
    rw [hclose] at hend
    exact ⟨h.trans hm, hend, by rw [hclose]; rfl⟩

/-- What a copy has written is all it was given exactly when it has moved all of its bytes. -/
theorem Moves.sent_iff (h : Moves s s') (hs : s.1 = .read) :
    s'.2.2.sent = s.2.2.sent ++ s.2.1.incoming ↔ Moved s' := by
  have htotal : s'.2.2.sent ++ (s'.1.inFlight ++ s'.2.1.incoming) =
      s.2.2.sent ++ s.2.1.incoming := by
    rw [← List.append_assoc, h.total, hs]
    exact congrArg (· ++ _) (List.append_nil _)
  rw [← htotal, List.self_eq_append_right, List.append_eq_nil_iff]
  exact and_comm

end Copy

/-! ## The two halves of a stream -/

/-- The read half of one stream and the write half of another one. -/
def Duplex.glue (r w : Duplex) : Duplex :=
  { r with writes := w.writes, closes := w.closes, sent := w.sent }

namespace Copy
variable {r w : Duplex}

theorem pollRead_glue (buf : ReadBuf) :
    pollRead (r.glue w) buf = ((pollRead r buf).1.glue w, (pollRead r buf).2) := by
  obtain ⟨rx, reads, _, _, _⟩ := r
  simp only [AsyncRead.pollRead, Duplex.pollRead, Duplex.glue]
  by_cases h : buf.remaining = 0
  · simp only [if_pos h]
  · simp only [if_neg h]
    rcases reads with _ | ⟨_ | n, reads⟩ <;> rfl

theorem pollWrite_glue (buf : Bytes) :
    pollWrite (r.glue w) buf = (r.glue (pollWrite w buf).1, (pollWrite w buf).2) := by
  obtain ⟨_, _, writes, _, _⟩ := w
  rcases writes with _ | ⟨_ | n, writes⟩ <;> rfl

theorem pollClose_glue :
    pollClose (r.glue w) = (r.glue (pollClose w).1, (pollClose w).2) := by
  obtain ⟨_, _, _, closes, _⟩ := w
  rcases closes with _ | ⟨_ | n, closes⟩ <;> rfl

theorem writeAll_glue (buf : Bytes) (offset : Nat) : WriteAll.step ((buf, offset), r.glue w) =
    (WriteAll.step ((buf, offset), w)).map (fun s => (s.1, r.glue s.2)) id := by
  simp only [WriteAll.step, pollWrite_glue]
  by_cases hbuf : buf.isEmpty
  · simp only [if_pos hbuf, Turn.map, id]
  · simp only [if_neg hbuf]
    rcases pollWrite w (buf.drop offset) with ⟨w₁, _ | ⟨e⟩ | ⟨n⟩⟩
    · rfl
    · rfl
    · dsimp only
      split
      · rfl
      · split <;> rfl

/-- A copy uses the read half of its source and the write half of its destination. -/
theorem step_glue (c : Copy) (r w r' w' : Duplex) : step c (r.glue w', r'.glue w) =
    (step c (r, w)).map (fun s => (s.1, s.2.1.glue w', r'.glue s.2.2)) id := by
  cases c with
  | read =>
    simp only [step, pollRead_glue]
    rcases pollRead r (.new 1500) with ⟨r₁, buf, _ | ⟨e⟩ | ⟨n⟩⟩
    · rfl
    · rfl
    · dsimp only
      split <;> rfl
  | write buf offset =>
    simp only [step, writeAll_glue]
    rcases WriteAll.step ((buf, offset), w) with s | s | ⟨s, _ | _⟩ <;> rfl
  | flush =>
    simp only [step, pollClose_glue]
    rcases pollClose w with ⟨w₁, _ | _⟩ <;> rfl
  | close =>
    simp only [step, pollClose_glue]
    rcases pollClose w with ⟨w₁, _ | _⟩ <;> rfl

end Copy
end Fuso

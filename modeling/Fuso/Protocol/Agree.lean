import Fuso.Async.Copy
import Fuso.Protocol.Packet
import Fuso.Theory.Lockstep

/-!
# `SendPacket` and `WriteAll`

The answers of `Duplex` take at least one byte of what they are offered, but a writer may also take
none, and it may fail. `Scripted` is a writer whose replies are all given beforehand, one for every
call; it keeps the buffers it was called with and the bytes it took. On such a writer the two
futures make the same calls until it takes no byte of what is left: there `WriteAll` fails
(`WriteAll.step_zero`) and `SendPacket` goes round (`SendPacket.spins`).
-/

namespace Fuso
open Turn

/-- What a writer replies to a call: `wrote k` is `Ok` with `k`, or with the length of the buffer if
that is less. -/
inductive Reply where
  | pending
  | error (e : Error)
  | wrote (k : Nat)
  deriving DecidableEq

namespace Reply

def isError : Reply → Bool
  | .error _ => true
  | _ => false

/-- The bytes it takes at most. -/
def size : Reply → Nat
  | .wrote k => k
  | _ => 0

/-- The bytes that the first `n` replies take at most. -/
def total (script : Nat → Reply) (n : Nat) : Nat :=
  ((List.range n).map fun m => (script m).size).sum

theorem total_succ (script : Nat → Reply) (n : Nat) :
    total script (n + 1) = total script n + (script n).size := by
  simp [total, List.range_succ]

theorem total_le (script : Nat → Reply) (h : m ≤ n) : total script m ≤ total script n := by
  induction h with
  | refl => exact Nat.le_refl _
  | step _ ih =>
    rw [total_succ]
    exact Nat.le_trans ih (Nat.le_add_right _ _)

end Reply

structure Scripted where
  script : Nat → Reply
  calls : List Bytes
  stream : Bytes

namespace Scripted

def new (script : Nat → Reply) : Scripted := ⟨script, [], []⟩

def pollWrite (w : Scripted) (buf : Bytes) : Scripted × Poll (Result Nat) :=
  let called := { w with calls := w.calls ++ [buf] }
  match w.script w.calls.length with
  | .pending => (called, .pending)
  | .error e => (called, .ready (.error e))
  | .wrote k => ({ called with stream := w.stream ++ buf.take k }, .ready (.ok (min k buf.length)))

instance : AsyncWrite Scripted := ⟨pollWrite, fun w => (w, .ready (.ok ()))⟩

theorem reply (w : Scripted) (buf : Bytes) : (AsyncWrite.pollWrite w buf).2 =
    match w.script w.calls.length with
    | .pending => .pending
    | .error e => .ready (.error e)
    | .wrote k => .ready (.ok (min k buf.length)) := by
  simp only [AsyncWrite.pollWrite, pollWrite]
  cases w.script w.calls.length <;> rfl

@[simp] theorem script_pollWrite (w : Scripted) (buf : Bytes) :
    (AsyncWrite.pollWrite w buf).1.script = w.script := by
  simp only [AsyncWrite.pollWrite, pollWrite]
  split <;> rfl

@[simp] theorem calls_pollWrite (w : Scripted) (buf : Bytes) :
    (AsyncWrite.pollWrite w buf).1.calls = w.calls ++ [buf] := by
  simp only [AsyncWrite.pollWrite, pollWrite]
  split <;> rfl

end Scripted

/-- The two futures that write `buf`, turn for turn, as long as no reply is `Ok(0)`. -/
theorem writeAll_step_eq [AsyncWrite W] (this : SendPacket) (writer : W) (hne : this.buf ≠ [])
    (h0 : (pollWrite writer (this.buf.drop this.offset)).2 ≠ .ready (.ok 0)) :
    WriteAll.step ((this.buf, this.offset), writer) =
      (SendPacket.step (this, writer)).map (fun s => ((s.1.buf, s.1.offset), s.2)) id := by
  have hempty : this.buf.isEmpty = false := by simpa using hne
  simp only [WriteAll.step, SendPacket.step, hempty, Bool.false_eq_true, if_false]
  rcases hpoll : pollWrite writer (this.buf.drop this.offset) with ⟨writer', _ | ⟨e | n⟩⟩
  · rfl
  · rfl
  · have hn : n ≠ 0 := by
      rintro rfl
      exact h0 (by rw [hpoll])
    simp only [if_neg hn]
    split <;> rfl

/-- Before its call `n` the writer replied to all calls, never with an error, and has taken fewer
bytes than there are. -/
structure Before (buf : Bytes) (script : Nat → Reply) (n : Nat) (s : SendPacket × Scripted) :
    Prop where
  buf_eq : s.1.buf = buf
  offset : s.1.offset = Reply.total script n
  left : Reply.total script n < buf.length
  script_eq : s.2.script = script
  calls : s.2.calls.length = n
  noError : ∀ m < n, (script m).isError = false

namespace Before
variable {buf : Bytes} {script : Nat → Reply} {n : Nat} {s s' : SendPacket × Scripted}

theorem start (hne : buf ≠ []) : Before buf script 0 (.new buf, .new script) where
  buf_eq := rfl
  offset := rfl
  left := List.length_pos_iff.2 hne
  script_eq := rfl
  calls := rfl
  noError := nofun

theorem reply (h : Before buf script n s) : (pollWrite s.2 (s.1.buf.drop s.1.offset)).2 =
    match script n with
    | .pending => .pending
    | .error e => .ready (.error e)
    | .wrote k => .ready (.ok (min k (buf.length - Reply.total script n))) := by
  rw [Scripted.reply, h.script_eq, h.calls, List.length_drop, h.buf_eq, h.offset]

/-- The reply `Ok(0)` is not due to a lack of bytes. -/
theorem reply_zero (h : Before buf script n s)
    (h0 : (pollWrite s.2 (s.1.buf.drop s.1.offset)).2 = .ready (.ok 0)) : script n = .wrote 0 := by
  rw [h.reply] at h0
  have := h.left
  split at h0
  · cases h0
  · cases h0
  · rename_i k hk
    injection h0 with h0
    injection h0 with h0
    rw [hk, show k = 0 by omega]

/-- Behind its call `n` the writer is before its next one, if it did not fail and there are bytes
left. -/
theorem next (h : Before buf script n s) (hreply : (script n).isError = false)
    (hbuf : s'.1.buf = buf) (hoffset : s'.1.offset = Reply.total script n + (script n).size)
    (hlt : s'.1.offset < buf.length)
    (hw : s'.2 = (pollWrite s.2 (s.1.buf.drop s.1.offset)).1) : Before buf script (n + 1) s' where
  buf_eq := hbuf
  offset := by rw [hoffset, Reply.total_succ]
  left := by rw [Reply.total_succ, ← hoffset]; exact hlt
  script_eq := by rw [hw, Scripted.script_pollWrite, h.script_eq]
  calls := by rw [hw, Scripted.calls_pollWrite, List.length_append, h.calls]; rfl
  noError m hm := by
    rcases Nat.lt_succ_iff_lt_or_eq.1 hm with hm | rfl
    · exact h.noError m hm
    · exact hreply

/-- A turn of `SendPacket`, by what the writer replies: it waits, it fails, the rest is written, or
it goes round. -/
theorem step_cases (h : Before buf script n s) :
    (∃ s', script n = .pending ∧ SendPacket.step s = .pending s' ∧ Before buf script (n + 1) s') ∨
    (∃ s' e, script n = .error e ∧ SendPacket.step s = .ready s' (.error e)) ∨
    (∃ s', buf.length ≤ Reply.total script (n + 1) ∧ SendPacket.step s = .ready s' (.ok ())) ∨
    ∃ s' k, script n = .wrote k ∧ SendPacket.step s = .again s' ∧ Before buf script (n + 1) s' := by
  obtain ⟨⟨buf', offset⟩, w⟩ := s
  obtain rfl : buf = buf' := h.buf_eq.symm
  obtain rfl : offset = Reply.total script n := h.offset
  have hreply := h.reply
  have hleft := h.left
  have hnext := Reply.total_succ script n
  rcases hpoll : pollWrite w (buf.drop (Reply.total script n)) with ⟨w', poll⟩
  rw [hpoll] at hreply
  change poll = _ at hreply
  have hw' : w' = (pollWrite w (buf.drop (Reply.total script n))).1 := by rw [hpoll]
  cases hn : script n with
  | pending =>
    obtain rfl : poll = .pending := by rw [hreply, hn]
    refine .inl ⟨(⟨buf, Reply.total script n⟩, w'), rfl, by simp only [SendPacket.step, hpoll], ?_⟩
    exact h.next (by rw [hn]; rfl) rfl (by rw [hn]; rfl) hleft hw'
  | error e =>
    obtain rfl : poll = .ready (.error e) := by rw [hreply, hn]
    exact .inr (.inl ⟨_, e, rfl, by simp only [SendPacket.step, hpoll]; rfl⟩)
  | wrote k =>
    obtain rfl : poll = .ready (.ok (min k (buf.length - Reply.total script n))) := by
      rw [hreply, hn]
    rw [hn, Reply.size] at hnext
    rcases Nat.lt_or_ge (Reply.total script (n + 1)) buf.length with hlt | hge
    · have hmin : min k (buf.length - Reply.total script n) = k := by omega
      refine .inr (.inr (.inr ⟨(⟨buf, Reply.total script n + k⟩, w'), k, rfl, ?_, ?_⟩))
      · simp only [SendPacket.step, hpoll, hmin]
        rw [if_neg (by omega)]
      · exact h.next (by rw [hn]; rfl) rfl (by rw [hn]; rfl) (by dsimp only; omega) hw'
    · refine .inr (.inr (.inl ⟨(⟨buf, Reply.total script n +
        min k (buf.length - Reply.total script n)⟩, w'), hge, ?_⟩))
      simp only [SendPacket.step, hpoll]
      rw [if_pos (by omega)]

/-- A turn of `SendPacket` that is not the last one. -/
theorem goes (h : Before buf script n s) (hg : Goes SendPacket.step s s') :
    Before buf script (n + 1) s' := by
  obtain ⟨t, -, hstep, ht⟩ | ⟨t, e, -, hstep⟩ | ⟨t, -, hstep⟩ | ⟨t, k, -, hstep, ht⟩ := h.step_cases
  · exact hg.unique (.inr hstep) ▸ ht
  · rcases hg with hg | hg <;> rw [hstep] at hg <;> cases hg
  · rcases hg with hg | hg <;> rw [hstep] at hg <;> cases hg
  · exact hg.unique (.inl hstep) ▸ ht

/-- The reply `Ok(0)` makes the loop of `SendPacket` go round. -/
theorem step_zero (h : Before buf script n s) (hn : script n = .wrote 0) :
    ∃ s', SendPacket.step s = .again s' ∧ Before buf script (n + 1) s' := by
  have hleft := h.left
  have hnext := Reply.total_succ script n
  rw [hn, Reply.size] at hnext
  obtain ⟨t, hp, -⟩ | ⟨t, e, he, -⟩ | ⟨t, hge, -⟩ | ⟨t, k, -, hstep, ht⟩ := h.step_cases
  · rw [hn] at hp
    cases hp
  · rw [hn] at he
    cases he
  · omega
  · exact ⟨t, hstep, ht⟩

theorem of_leaves (hne : buf ≠ [])
    (h : (turns SendPacket.step n (.new buf, Scripted.new script)).Leaves s) :
    Before buf script n s :=
  h.invariant (fun _ _ _ h hg => h.goes hg) (start hne)

/-- `SendPacket` makes the call `n` if no reply before is an error and there are bytes left. -/
theorem exists_leaves (hne : buf ≠ []) (hno : ∀ m < n, (script m).isError = false)
    (hleft : Reply.total script n < buf.length) :
    ∃ s, (turns SendPacket.step n (.new buf, Scripted.new script)).Leaves s := by
  induction n with
  | zero => exact ⟨_, .inl rfl⟩
  | succ n ih =>
    have hnext := Reply.total_succ script n
    obtain ⟨s, hs⟩ := ih (fun m hm => hno m (Nat.lt_succ_of_lt hm)) (by omega)
    rw [turns_succ hs]
    obtain ⟨t, -, hstep, -⟩ | ⟨t, e, hn, -⟩ | ⟨t, hge, -⟩ | ⟨t, k, -, hstep, -⟩ :=
      (of_leaves hne hs).step_cases
    · exact ⟨t, .inr hstep⟩
    · have := hno n (Nat.lt_succ_self n)
      rw [hn] at this
      cases this
    · omega
    · exact ⟨t, .inl hstep⟩

end Before

/-- What is seen of a future that writes: the writer, and how the last turn ended. -/
def seen (t : Turn (S × Scripted) (Result Unit)) : Turn Scripted Bool := t.map Prod.snd Except.isOk

/-- The two futures make the same calls, put the same bytes on the stream, wait at the same points
and end in the same way, and no poll of either spins. -/
structure Agree (buf : Bytes) (script : Nat → Reply) : Prop where
  same : ∀ n, seen (turns SendPacket.step n (.new buf, .new script)) =
    seen (turns WriteAll.step n ((buf, 0), .new script))
  send : ¬ Spins SendPacket.step (.new buf, Scripted.new script)
  write : ¬ Spins WriteAll.step ((buf, 0), Scripted.new script)

section
variable {buf : Bytes} {script : Nat → Reply} {n : Nat}

theorem seen_eq_again {t : Turn (S × Scripted) (Result Unit)} {w : Scripted} :
    seen t = .again w ↔ ∃ s, t = .again (s, w) := by
  cases t <;> simp [seen, Turn.map, Prod.ext_iff]

theorem seen_eq_pending {t : Turn (S × Scripted) (Result Unit)} {w : Scripted} :
    seen t = .pending w ↔ ∃ s, t = .pending (s, w) := by
  cases t <;> simp [seen, Turn.map, Prod.ext_iff]

/-- Of two futures that look alike one goes on if the other one does. -/
theorem leaves_of_seen {t : Turn (S × Scripted) (Result Unit)}
    {t' : Turn (S' × Scripted) (Result Unit)} {s : S × Scripted} (h : seen t = seen t')
    (hs : t.Leaves s) : ∃ u, t'.Leaves (u, s.2) := by
  rcases hs with rfl | rfl
  · obtain ⟨u, hu⟩ := seen_eq_again.1 h.symm
    exact ⟨u, .inl hu⟩
  · obtain ⟨u, hu⟩ := seen_eq_pending.1 h.symm
    exact ⟨u, .inr hu⟩

/-- The reply `Ok(0)` is the last one for `WriteAll`. -/
theorem WriteAll.step_zero {w : Scripted} (h : w.script w.calls.length = .wrote 0)
    (s : Bytes × Nat) : ∃ s' r, WriteAll.step (s, w) = .ready s' r := by
  have hreply := Scripted.reply w (s.1.drop s.2)
  rw [h] at hreply
  simp only [WriteAll.step]
  split
  · exact ⟨_, _, rfl⟩
  · split <;> simp_all

/-- A turn of `WriteAll` that is not the last one gives up or takes some of what is left. -/
theorem WriteAll.goes_offset {s s' : (Bytes × Nat) × Scripted} (hlt : s.1.2 < s.1.1.length)
    (hg : Goes WriteAll.step s s') : s'.1.1 = s.1.1 ∧ s'.1.2 < s.1.1.length ∧
      (WriteAll.step s = .again s' → s.1.2 < s'.1.2) := by
  obtain ⟨⟨buf, offset⟩, w⟩ := s
  have hempty : buf.isEmpty = false := by cases buf <;> simp_all
  have hreply := Scripted.reply w (buf.drop offset)
  simp only [Goes, WriteAll.step, hempty, Bool.false_eq_true, if_false] at hg ⊢
  rcases hpoll : pollWrite w (buf.drop offset) with ⟨w', poll⟩
  rw [hpoll] at hg hreply
  change poll = _ at hreply
  obtain _ | ⟨_ | n⟩ := poll
  · obtain hg | hg := hg <;> cases hg
    refine ⟨rfl, hlt, fun hagain => ?_⟩
    cases hagain
  · obtain hg | hg := hg <;> cases hg
  · -- what is taken is not more than what is left
    have hle : n ≤ buf.length - offset := by
      split at hreply <;> cases hreply
      rw [List.length_drop]
      exact Nat.min_le_right _ _
    dsimp only at hg
    split at hg
    · obtain hg | hg := hg <;> cases hg
    · split at hg
      · obtain hg | hg := hg <;> cases hg
      · obtain hg | hg := hg <;> cases hg
        exact ⟨rfl, by dsimp only; omega, fun _ => by dsimp only; omega⟩

/-- Every poll of `WriteAll` ends. -/
theorem WriteAll.not_spins (hne : buf ≠ []) (w : Scripted) :
    ¬ Spins WriteAll.step ((buf, 0), w) := by
  refine Turn.not_spins (I := fun s => s.1.2 < s.1.1.length) (fun s => s.1.1.length - s.1.2)
    (fun s s' hs hg => ?_) (fun s s' hs hstep => ?_) (List.length_pos_iff.2 hne)
  · obtain ⟨hbuf, hlt, -⟩ := WriteAll.goes_offset hs hg
    rw [hbuf]
    exact hlt
  · obtain ⟨hbuf, hlt, hinc⟩ := WriteAll.goes_offset hs (.inl hstep)
    rw [hbuf]
    have := hinc hstep
    omega

/-- `SendPacket` spins when the writer takes no more bytes. -/
theorem SendPacket.spins (hne : buf ≠ []) (hno : ∀ m < n, (script m).isError = false)
    (hleft : Reply.total script n < buf.length) (hzero : ∀ m, n ≤ m → script m = .wrote 0) :
    Spins SendPacket.step (.new buf, Scripted.new script) := by
  obtain ⟨s, hs⟩ := Before.exists_leaves hne hno hleft
  refine spins_of_again (I := fun s => ∃ m, n ≤ m ∧ Before buf script m s) ?_ hs
    ⟨n, Nat.le_refl n, .of_leaves hne hs⟩
  rintro u ⟨m, hm, hu⟩
  obtain ⟨t, hstep, ht⟩ := hu.step_zero (hzero m hm)
  exact ⟨t, hstep, m + 1, by omega, ht⟩

/-- The two futures agree on a writer if and only if it replies `Ok(0)` only behind an error or when
no bytes are left. -/
theorem agree_iff (hne : buf ≠ []) (script : Nat → Reply) :
    Agree buf script ↔ ∀ n, script n = .wrote 0 →
      (∃ m < n, (script m).isError) ∨ buf.length ≤ Reply.total script n := by
  constructor
  · intro h n hn
    by_contra hcon
    rw [not_or, not_exists] at hcon
    obtain ⟨hno, hlt⟩ := hcon
    obtain ⟨s, hs⟩ := Before.exists_leaves hne (fun m hm => by simpa [hm] using hno m)
      (Nat.lt_of_not_le hlt)
    obtain ⟨u, hu⟩ := leaves_of_seen (h.same n) hs
    have hbefore := Before.of_leaves hne hs
    obtain ⟨s', r, hready⟩ := WriteAll.step_zero
      (by rw [hbefore.script_eq, hbefore.calls, hn]) u
    have hseen := h.same (n + 1)
    rw [turns_succ hs, turns_succ hu, hready] at hseen
    obtain ⟨t, hstep, -⟩ := hbefore.step_zero hn
    rw [hstep] at hseen
    cases hseen
  · intro h
    have hsame : ∀ n, turns WriteAll.step n ((buf, 0), Scripted.new script) =
        (turns SendPacket.step n (.new buf, Scripted.new script)).map
          (fun s => ((s.1.buf, s.1.offset), s.2)) id := by
      intro n
      refine turns_map (f := fun s => ((s.1.buf, s.1.offset), s.2))
        (s := (SendPacket.new buf, Scripted.new script)) fun m _ u hu => ?_
      have hbefore := Before.of_leaves hne hu
      refine writeAll_step_eq u.1 u.2 (hbefore.buf_eq ▸ hne) fun h0 => ?_
      obtain ⟨k, hk, herr⟩ | hle := h m (hbefore.reply_zero h0)
      · rw [hbefore.noError k hk] at herr
        cases herr
      · exact Nat.not_lt.2 hle hbefore.left
    have hwrite := WriteAll.not_spins hne (Scripted.new script)
    refine ⟨fun n => ?_, fun hspins => ?_, hwrite⟩
    · rw [seen, seen, hsame n]
      cases turns SendPacket.step n (.new buf, Scripted.new script) <;> rfl
    · obtain ⟨n, hn⟩ := hspins
      refine hwrite ⟨n, fun m hm => ?_⟩
      obtain ⟨s, hs⟩ := hn m hm
      exact ⟨_, by rw [hsame m, hs]; rfl⟩

/-- A writer that waits, takes two bytes, waits, takes the rest, and then takes no more. -/
theorem agree_one : Agree [1, 2, 3, 4, 5] fun n =>
    [.pending, .wrote 2, .pending, .wrote 3].getD n (.wrote 0) := by
  refine (agree_iff (by decide) _).2 fun n h => .inr ?_
  have hle : 4 ≤ n := by
    by_contra hlt
    have : n = 0 ∨ n = 1 ∨ n = 2 ∨ n = 3 := by omega
    rcases this with rfl | rfl | rfl | rfl <;> cases h
  exact Nat.le_trans (by decide) (Reply.total_le _ hle)

/-- On a writer that takes nothing `SendPacket` spins. -/
theorem not_agree : ¬ ∀ buf : Bytes, buf ≠ [] → ∀ script, Agree buf script :=
  fun h => (h [0] (by decide) fun _ => .wrote 0).send
    (SendPacket.spins (by decide) (n := 0) nofun (by decide) fun _ _ => rfl)

end
end Fuso

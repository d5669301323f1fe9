import Fuso.Guard.Fallback
import Fuso.Theory.Run
import Mathlib.Data.List.Induction

/-!
# The end of a `Fallback`

A `Fallback` is marked, taken back and read in any order. A read that finds a replay buffer does not
ask the stream below, also when that buffer is empty, and it then reports the end of a stream that
goes on. A `Logged` stream keeps what its reads returned, so that the two can be compared.
-/

namespace Fuso

/-- A stream and what its reads returned. -/
structure Logged (S : Type u) where
  inner : S
  log : List (Poll (Result Nat))

instance [AsyncRead S] : AsyncRead (Logged S) where
  pollRead l buf :=
    match pollRead l.inner buf with
    | (inner, buf, poll) => (⟨inner, l.log ++ [poll]⟩, buf, poll)

namespace Fallback

inductive Op where
  | mark
  | backward
  | read (buf : ReadBuf)

def Op.isRead : Op → Bool
  | .read _ => true
  | _ => false

section
variable [AsyncRead S]

def step : Op → Fallback S → Fallback S
  | .mark, f => f.mark
  | .backward, f => f.backward
  | .read buf, f => (AsyncRead.pollRead f buf).1

/-- A read into a buffer with room that returns `Ok(0)` passes on what the stream below returned. -/
def Honest (op : Op) (f : Fallback (Logged S)) : Prop :=
  match op with
  | .read buf => buf.remaining ≠ 0 → (AsyncRead.pollRead f buf).2.2 = .ready (.ok 0) →
      (AsyncRead.pollRead f buf).1.target.log = f.target.log ++ [.ready (.ok 0)]
  | _ => True

end

/-- There is a replay buffer with nothing in it. -/
def Stale (f : Fallback S) : Prop := f.backedBuf.isSome ∧ f.backed = []

/-- The stream is marked, nothing was recorded since, and nothing is left to be read again. -/
structure Untouched (f : Fallback S) : Prop where
  marked : f.markedBuf.isSome
  recorded : f.marked = []
  backed : f.backed = []

@[simp] theorem stale_mark {f : Fallback S} : f.mark.Stale ↔ f.Stale := by
  simp [Stale]

/-- The replay buffer is empty behind a backward with nothing recorded and nothing left. -/
theorem stale_backward {f : Fallback S} (h : f.Stale → f.marked = []) :
    f.backward.Stale ↔ f.Untouched ∨ f.Stale := by
  cases hm : f.markedBuf with
  | none =>
    rw [backward_of_none hm]
    refine ⟨.inr, fun h => h.resolve_left fun h => ?_⟩
    simpa [hm] using h.marked
  | some m =>
    have hsome : f.markedBuf.isSome := by rw [hm]; rfl
    have hback : f.backward.backedBuf.isSome := by simp [backward, hm]
    rw [Stale, (backward_of_some hsome).1, List.append_eq_nil_iff]
    constructor
    · rintro ⟨-, hb, hmarked⟩
      exact .inl ⟨hsome, hmarked, hb⟩
    · rintro (hf | hf)
      · exact ⟨hback, hf.backed, hf.recorded⟩
      · exact ⟨hback, hf.2, h hf⟩

theorem marked_backward (f : Fallback S) : f.backward.marked = [] := by
  cases hm : f.markedBuf with
  | none =>
    rw [backward_of_none hm]
    simp [marked, hm]
  | some m => simp [backward, hm, marked]

section
variable [AsyncRead S]

/-- Behind a read no replay buffer is empty. -/
theorem not_stale_pollRead (f : Fallback S) (buf : ReadBuf) :
    ¬ (AsyncRead.pollRead f buf).1.Stale := by
  cases hb : f.backedBuf with
  | none =>
    rw [pollRead_none hb]
    rcases AsyncRead.pollRead f.target buf with ⟨target, buf', _ | ⟨e | k⟩⟩ <;>
      simp [Stale, hb, record]
  | some b =>
    simp only [AsyncRead.pollRead, pollRead, hb, Stale, record]
    split
    · intro h
      cases h.1
    · next h =>
      rintro ⟨-, hnil⟩
      exact h ((Buffer.isEmpty_iff _).2 hnil)

/-- A read asks the stream below if there is no replay buffer, and then returns what that one
returned. -/
theorem log_pollRead {f : Fallback (Logged S)} (hb : f.backedBuf = none) (buf : ReadBuf) :
    (AsyncRead.pollRead f buf).1.target.log =
      f.target.log ++ [(AsyncRead.pollRead f buf).2.2] := by
  rw [pollRead_none hb]
  simp only [AsyncRead.pollRead]
  rcases AsyncRead.pollRead f.target.inner buf with ⟨inner, buf', _ | ⟨e | k⟩⟩ <;> rfl

theorem honest_read_iff {f : Fallback (Logged S)} {buf : ReadBuf} (hrem : buf.remaining ≠ 0) :
    Honest (.read buf) f ↔ ¬ f.Stale := by
  cases hb : f.backedBuf with
  | none =>
    refine iff_of_true (fun _ h => ?_) (by simp [Stale, hb])
    rw [log_pollRead hb, h]
  | some b =>
    obtain ⟨g, buf', hread, -, -, htarget, -⟩ := pollRead_some (by rw [hb]; rfl) buf
    have hlog : (g.record buf').target.log = f.target.log := by rw [← htarget]; rfl
    have hstale : f.Stale ↔ f.backed = [] := ⟨And.right, fun h => ⟨by rw [hb]; rfl, h⟩⟩
    simp only [Honest, hread, hlog, hstale]
    constructor
    · intro h hnil
      have := congrArg List.length (h hrem (by rw [hnil, List.take_nil]; rfl))
      simp at this
    · intro hne _ h0
      have hlen : (f.backed.take buf.remaining).length = 0 := by
        injection h0 with h0
        injection h0
      rw [List.length_take] at hlen
      exact absurd (List.length_eq_zero_iff.1 (by omega)) hne

/-! ## Runs -/

variable {f : Fallback S} {ops : List Op}

/-- Under an empty replay buffer nothing is recorded. -/
theorem marked_step (h : f.Stale → f.marked = []) (op : Op) :
    (step op f).Stale → (step op f).marked = [] := by
  cases op with
  | mark => simpa [step] using h
  | backward => exact fun _ => marked_backward f
  | read buf => exact fun hs => absurd hs (not_stale_pollRead f buf)

/-- The operations end with a backward, behind operations with `P`, and no read follows it. -/
def Behind (P : List Op → Prop) (ops : List Op) : Prop :=
  ∃ pre between, ops = pre ++ .backward :: between ∧ (∀ op ∈ between, op.isRead = false) ∧ P pre

omit [AsyncRead S] in
theorem behind_concat {P : List Op → Prop} {op : Op} :
    Behind P (ops ++ [op]) ↔ op = .backward ∧ P ops ∨ op.isRead = false ∧ Behind P ops := by
  constructor
  · rintro ⟨pre, between, heq, hno, hpre⟩
    rcases List.eq_nil_or_concat between with rfl | ⟨between, last, rfl⟩
    · obtain ⟨rfl, hop⟩ := List.append_inj' heq rfl
      exact .inl ⟨List.singleton_inj.1 hop, hpre⟩
    · rw [List.concat_eq_append] at heq hno
      rw [← List.cons_append, ← List.append_assoc] at heq
      obtain ⟨rfl, hop⟩ := List.append_inj' heq rfl
      obtain rfl := List.singleton_inj.1 hop
      exact .inr ⟨hno _ (by simp), pre, between, rfl, fun op h => hno op (by simp [h]), hpre⟩
  · rintro (⟨rfl, hP⟩ | ⟨hop, pre, between, rfl, hno, hpre⟩)
    · exact ⟨ops, [], rfl, nofun, hP⟩
    · refine ⟨pre, between ++ [op], by simp, fun op' h => ?_, hpre⟩
      rcases List.mem_append.1 h with h | h
      · exact hno op' h
      · rw [List.mem_singleton.1 h, hop]

/-- The replay buffer is empty exactly behind a backward with nothing recorded and nothing left, if
no read follows. -/
theorem stale_after_iff (target : S) (strict : Bool) (ops : List Op) :
    (after step (new target strict) ops).Stale ↔
      Behind (fun pre => (after step (new target strict) pre).Untouched) ops := by
  induction ops using List.reverseRecOn with
  | nil => simp [Stale, new, Behind]
  | append_singleton ops op ih =>
    have hmarked : (after step (new target strict) ops).Stale →
        (after step (new target strict) ops).marked = [] :=
      after_invariant (I := fun f : Fallback S => f.Stale → f.marked = [])
        (fun f op h => marked_step h op) fun _ => marked_new target strict
    rw [after_concat, behind_concat, ← ih]
    cases op with
    | mark => simp [step, Op.isRead]
    | backward => simp [step, Op.isRead, stale_backward hmarked]
    | read buf => simp [step, Op.isRead, not_stale_pollRead]

/-- All reads pass on the end of the stream below only, if and only if no read into a buffer with
room follows, with no other read in between, a backward that found the mark set, nothing recorded
and nothing left to be read again. -/
theorem honest_iff (target : Logged S) (strict : Bool) (ops : List Op) :
    Admissible step Honest (new target strict) ops ↔
      ∀ pre buf, pre ++ [.read buf] <+: ops → buf.remaining ≠ 0 →
        ¬ Behind (fun pre => (after step (new target strict) pre).Untouched) pre := by
  constructor
  · intro h pre buf hpre hrem
    rw [← stale_after_iff]
    exact (honest_read_iff hrem).1 (h pre _ hpre)
  · intro h pre op hpre
    match op with
    | .mark | .backward => trivial
    | .read buf =>
      intro hrem
      have hstale := (stale_after_iff target strict pre).not.2 (h pre buf hpre hrem)
      exact (honest_read_iff hrem).2 hstale hrem

end

/-- A stream that is marked and taken back with no read in between. -/
theorem not_honest : ¬ ∀ (target : Logged Duplex) (strict : Bool) (ops : List Op),
    Admissible step Honest (new target strict) ops := by
  intro h
  have h := h ⟨⟨[7], [.upTo 0], [], [], []⟩, []⟩ false [.mark, .backward, .read (.new 1)]
    [.mark, .backward] _ List.prefix_rfl (by decide) rfl
  exact absurd h (by decide)

end Fallback
end Fuso

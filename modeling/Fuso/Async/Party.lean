import Fuso.Async.Outlet

/-!
# One end of a stream in use

A `Party` reads from a stream and writes to it, in any order of polls. When the two halves of the
stream leave each other alone (`Exchanges`), what it reads comes from the front of what was left of
its source, whatever it writes (`Party.Reads.run`), and its outlet has taken what it wrote, whatever
it reads (`Party.Writes.run`).
-/

namespace Fuso

/-- The buffers of the writes that are over, the bytes it has read, and the buffer with which it is
to poll until the write is over. It does not read on behind an error or the end of the stream. -/
structure Party (W : Type u) where
  stream : W
  accepted : List Bytes
  delivered : Bytes
  writing : Option Bytes
  ended : Bool

namespace Party

inductive Op where
  | read (cap : Nat)
  | write (buf : Bytes)

def new (stream : W) : Party W := ⟨stream, [], [], none, false⟩

variable {W : Type u} [AsyncRead W] [AsyncWrite W]

/-- One poll. -/
def step (p : Party W) : Op → Party W
  | .read cap =>
    if p.ended then p
    else match pollRead p.stream (.new cap) with
    | (stream, _, .pending) => { p with stream }
    | (stream, buf, .ready (.ok n)) =>
      if n = 0 then { p with stream, ended := true }
      else { p with stream, delivered := p.delivered ++ buf.filled.take n }
    | (stream, _, .ready (.error _)) => { p with stream, ended := true }
  | .write buf =>
    match pollWrite p.stream (p.writing.getD buf) with
    | (stream, .pending) => { p with stream, writing := p.writing.getD buf }
    | (stream, .ready (.ok n)) =>
      { p with stream, writing := none, accepted := p.accepted ++ [(p.writing.getD buf).take n] }
    | (stream, .ready (.error _)) => { p with stream, writing := none }

def run (p : Party W) (ops : List Op) : Party W := ops.foldl step p

theorem run_replicate_succ (p : Party W) (n : Nat) (op : Op) :
    p.run (.replicate (n + 1) op) = (p.step op).run (.replicate n op) := rfl

/-- What was written, with the buffer that is being written. -/
def offered (p : Party W) : List Bytes := p.accepted ++ p.writing.toList

/-- Reads have room for a byte, and writes have a buffer that fits. -/
def Op.Valid (fits : Bytes → Prop) : Op → Prop
  | .read cap => 0 < cap
  | .write buf => buf ≠ [] ∧ fits buf

/-- `total` was left of the source when the party had read nothing. With `L` the source is live. -/
structure Reads (S : Source W) (total : Bytes) (L : Prop) (p : Party W) : Prop where
  left : p.ended = false → ∃ rest, total = p.delivered ++ rest ∧ S.Left p.stream rest
  ended : p.ended = true → p.delivered = total
  live : L → p.ended = false → S.live p.stream

/-- The outlet has taken what the party wrote, behind `base`. -/
structure Writes (X : Outlet W) (base : List Bytes) (p : Party W) : Prop where
  idle : p.writing = none → X.Sent (base ++ p.accepted) p.stream
  sending : ∀ buf, p.writing = some buf → X.Sending (base ++ p.accepted) buf False 0 p.stream

variable {S : Source W} {X : Outlet W} {total : Bytes} {base : List Bytes} {L : Prop} {p : Party W}

/-! ## What is read -/

omit [AsyncWrite W] in
theorem reads_new {stream : W} (h : S.Left stream total) :
    Reads S total (S.live stream) (new stream) :=
  ⟨fun _ => ⟨total, rfl, h⟩, nofun, fun hlive _ => hlive⟩

omit [AsyncWrite W] in
theorem Reads.isPrefix (h : Reads S total L p) : p.delivered <+: total := by
  cases hend : p.ended with
  | false =>
    obtain ⟨rest, hrest, -⟩ := h.left hend
    exact ⟨rest, hrest.symm⟩
  | true => exact (h.ended hend).symm ▸ List.prefix_rfl

/-- A read: it waits, it delivers bytes, or none is left and it is the last one. -/
theorem Reads.read_cases (h : Reads S total L p) (hend : p.ended = false) (hcap : 0 < cap) :
    ∃ stream, (p.step (.read cap) = { p with stream } ∧ Reads S total L { p with stream } ∧
        (L → p.delivered ≠ total → S.answers stream < S.answers p.stream)) ∨
      (∃ data, data ≠ [] ∧
        p.step (.read cap) = { p with stream, delivered := p.delivered ++ data } ∧
        Reads S total L { p with stream, delivered := p.delivered ++ data } ∧
        (L → S.answers stream ≤ S.answers p.stream)) ∨
      (p.delivered = total ∧ p.step (.read cap) = { p with stream, ended := true }) := by
  obtain ⟨rest, rfl, hleft⟩ := h.left hend
  have hlive := fun hL => h.live hL hend
  have hfalse : ∀ {P : Prop}, p.ended = true → P := fun htrue =>
    absurd (hend.symm.trans htrue) Bool.false_ne_true
  obtain ⟨stream, buf, ⟨hread, hleft', hans⟩ | ⟨hread, hne, -, rest', rfl, hleft', hans⟩ |
    ⟨rfl, hread⟩⟩ := S.read p.stream rest cap hleft hcap
  · refine ⟨stream, .inl ⟨?_, ⟨fun _ => ⟨rest, rfl, hleft'⟩, hfalse,
      fun hL _ => (hans (hlive hL)).1⟩, fun hL hne => (hans (hlive hL)).2 ?_⟩⟩
    · rw [step, hend, if_neg Bool.false_ne_true, hread]
    · rintro rfl
      exact hne (List.append_nil _).symm
  · have hlen : buf.filled.length ≠ 0 := by simpa using hne
    refine ⟨stream, .inr (.inl ⟨buf.filled, hne, ?_, ⟨fun _ => ⟨rest', ?_, hleft'⟩, hfalse,
      fun hL _ => (hans (hlive hL)).1⟩, fun hL => (hans (hlive hL)).2⟩)⟩
    · rw [step, hend, if_neg Bool.false_ne_true, hread]
      simp only [hlen, if_false, List.take_length]
    · exact (List.append_assoc ..).symm
  · refine ⟨stream, .inr (.inr ⟨(List.append_nil _).symm, ?_⟩)⟩
    rw [step, hend, if_neg Bool.false_ne_true]
    rcases hread with hread | ⟨e, hread⟩
    · rw [hread]
      rfl
    · rw [hread]

theorem Reads.step (h : Reads S total L p) (hX : Exchanges S X) (hop : op.Valid X.fits) :
    Reads S total L (p.step op) := by
  cases op with
  | read cap =>
    cases hend : p.ended with
    | true =>
      rw [Party.step, hend, if_pos rfl]
      exact h
    | false =>
      obtain ⟨stream, ⟨hstep, h', -⟩ | ⟨data, -, hstep, h', -⟩ | ⟨htotal, hstep⟩⟩ :=
        h.read_cases hend hop
      · rwa [hstep]
      · rwa [hstep]
      · rw [hstep]
        exact ⟨nofun, fun _ => htotal, nofun⟩
  | write buf =>
    have hleft : p.ended = false → ∃ rest, total = p.delivered ++ rest ∧
        S.Left (pollWrite p.stream (p.writing.getD buf)).1 rest := fun hend =>
      (h.left hend).imp fun rest h => ⟨h.1, hX.left_write h.2⟩
    have hlive : L → p.ended = false →
        S.live (pollWrite p.stream (p.writing.getD buf)).1 := fun hL hend =>
      hX.live_write (h.live hL hend)
    rw [Party.step]
    split
    all_goals
      next hpoll =>
      rw [hpoll] at hleft hlive
      exact ⟨hleft, h.ended, hlive⟩

/-- Whatever the order of the polls. -/
theorem Reads.run (h : Reads S total L p) (hX : Exchanges S X) {ops : List Op}
    (hops : ∀ op ∈ ops, op.Valid X.fits) : Reads S total L (p.run ops) := by
  induction ops generalizing p with
  | nil => exact h
  | cons op ops ih =>
    exact ih (h.step hX (hops op List.mem_cons_self))
      fun op' hop' => hops op' (List.mem_cons_of_mem op hop')

/-- With answers enough all that is left can be read, whatever the buffers. -/
theorem Reads.exists_reads (h : Reads S total L p) (hL : L) (hcap : 0 < cap) :
    ∃ n, (p.run (.replicate n (.read cap))).delivered = total := by
  generalize hμ : S.answers p.stream + (total.length - p.delivered.length) = μ
  induction μ using Nat.strong_induction_on generalizing p with
  | _ μ ih =>
    subst hμ
    by_cases hall : p.delivered = total
    · exact ⟨0, hall⟩
    have hend : p.ended = false := by
      by_contra htrue
      exact hall (h.ended (Bool.not_eq_false _ ▸ htrue))
    obtain ⟨stream, ⟨hstep, h', hlt⟩ | ⟨data, hne, hstep, h', hle⟩ | ⟨htotal, -⟩⟩ :=
      h.read_cases hend hcap
    · obtain ⟨n, hn⟩ := ih _ (Nat.add_lt_add_right (hlt hL hall) _) h' rfl
      exact ⟨n + 1, by rwa [run_replicate_succ, hstep]⟩
    · have hlen := h'.isPrefix.length_le
      have hpos := List.length_pos_iff.2 hne
      rw [List.length_append] at hlen
      have hless : S.answers stream + (total.length - (p.delivered ++ data).length) <
          S.answers p.stream + (total.length - p.delivered.length) := by
        have := hle hL
        rw [List.length_append]
        omega
      obtain ⟨n, hn⟩ := ih _ hless h' rfl
      exact ⟨n + 1, by rwa [run_replicate_succ, hstep]⟩
    · exact absurd htotal hall

/-! ## What is written -/

omit [AsyncRead W] in
theorem writes_new {stream : W} (h : X.Sent base stream) : Writes X base (new stream) :=
  ⟨fun _ => by rwa [new, List.append_nil], nofun⟩

omit [AsyncRead W] in
theorem Writes.took (h : Writes X base p) : X.Took (base ++ p.offered) p.stream := by
  cases hw : p.writing with
  | none =>
    rw [offered, hw, Option.toList_none, List.append_nil]
    exact .inl (h.idle hw)
  | some buf =>
    rw [offered, hw, Option.toList_some]
    exact .inr ⟨_, buf, _, _, (List.append_assoc ..).symm, h.sending buf hw⟩

theorem Writes.step (h : Writes X base p) (hX : Exchanges S X) (hop : op.Valid X.fits) :
    Writes X base (p.step op) := by
  cases op with
  | read cap =>
    have hidle : p.writing = none → X.Sent (base ++ p.accepted) (pollRead p.stream (.new cap)).1 :=
      fun hw => hX.sent_read (h.idle hw)
    have hsending : ∀ buf, p.writing = some buf →
        X.Sending (base ++ p.accepted) buf False 0 (pollRead p.stream (.new cap)).1 :=
      fun buf hw => hX.sending_read (h.sending buf hw)
    rw [Party.step]
    split
    · exact h
    split
    · next hpoll =>
      rw [hpoll] at hidle hsending
      exact ⟨hidle, hsending⟩
    · next hpoll =>
      rw [hpoll] at hidle hsending
      split <;> exact ⟨hidle, hsending⟩
    · next hpoll =>
      rw [hpoll] at hidle hsending
      exact ⟨hidle, hsending⟩
  | write buf =>
    have hsending : X.Sending (base ++ p.accepted) (p.writing.getD buf) False 0 p.stream := by
      cases hw : p.writing with
      | none => exact X.start (h.idle hw) hop.2 hop.1 False.elim
      | some buf' => exact h.sending buf' hw
    rw [Party.step]
    obtain ⟨stream, ⟨hpoll, hsending', -⟩ | ⟨hpoll, hsent, -⟩⟩ := X.poll hsending
    · rw [hpoll]
      exact ⟨nofun, fun _ heq => by cases heq; exact hsending'⟩
    · rw [hpoll]
      simp only [List.take_length]
      exact ⟨fun _ => by rwa [← List.append_assoc], nofun⟩

/-- Whatever the order of the polls. -/
theorem Writes.run (h : Writes X base p) (hX : Exchanges S X) {ops : List Op}
    (hops : ∀ op ∈ ops, op.Valid X.fits) : Writes X base (p.run ops) := by
  induction ops generalizing p with
  | nil => exact h
  | cons op ops ih =>
    exact ih (h.step hX (hops op List.mem_cons_self))
      fun op' hop' => hops op' (List.mem_cons_of_mem op hop')

/-- With room for its buffer a write is over after some polls. -/
theorem Writes.exists_write (h : Writes X base p) (hidle : p.writing = none) (hbuf : buf ≠ [])
    (hfits : X.fits buf) (hroom : X.Room (X.cost buf.length + n) p.stream) :
    ∃ k, (p.run (.replicate k (.write buf))).writing = none ∧
      (p.run (.replicate k (.write buf))).accepted = p.accepted ++ [buf] ∧
      X.Room n (p.run (.replicate k (.write buf))).stream := by
  have hsending : X.Sending (base ++ p.accepted) (p.writing.getD buf) True n p.stream := by
    rw [hidle]
    exact X.start (h.idle hidle) hfits hbuf fun _ => hroom
  have hsame : p.writing.getD buf = buf := by rw [hidle, Option.getD_none]
  clear h hidle hroom
  generalize hμ : X.turns buf p.stream = μ
  induction μ using Nat.strong_induction_on generalizing p with
  | _ μ ih =>
    subst hμ
    rw [hsame] at hsending
    obtain ⟨stream, ⟨hpoll, hsending', hlt⟩ | ⟨hpoll, hsent, hroom⟩⟩ := X.poll hsending
    · have hstep : p.step (.write buf) = { p with stream, writing := some buf } := by
        rw [Party.step, hsame, hpoll]
      obtain ⟨k, hk⟩ := ih _ (hlt trivial) (p := { p with stream, writing := some buf })
        hsending' rfl rfl
      exact ⟨k + 1, by rwa [run_replicate_succ, hstep]⟩
    · have hstep : p.step (.write buf) =
          { p with stream, writing := none, accepted := p.accepted ++ [buf] } := by
        rw [Party.step, hsame, hpoll]
        simp only [List.take_length]
      refine ⟨1, ?_⟩
      rw [run_replicate_succ, hstep]
      exact ⟨rfl, rfl, hroom trivial⟩

end Party
end Fuso

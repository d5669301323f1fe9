import Fuso.Async.ReadExact
import Fuso.Guard.Fallback

/-!
# `ReadExact` on a marked `Fallback`

A read that is recorded is recorded with all that is in its buffer, also with what earlier reads put
there. So what `ReadExact` reads is readable again as it was read only if a single read fills the
buffer (`Fallback.readExact_iff`).
-/

namespace Fuso
open Turn

namespace Duplex

theorem capacity_pollRead {d d' : Duplex} (h : AsyncRead.pollRead d buf = (d', buf', r)) :
    buf'.capacity = buf.capacity := by
  have hbuf : buf' = (AsyncRead.pollRead d buf).2.1 := by rw [h]
  rw [hbuf]
  simp only [AsyncRead.pollRead, pollRead]
  split
  · rfl
  · split <;> rfl

/-- At the end of the stream a read puts nothing into the buffer. -/
theorem pollRead_end {d : Duplex} (h : d.incoming = []) (buf : ReadBuf) : ∃ reads buf' poll,
    AsyncRead.pollRead d buf = ({ d with reads }, buf', poll) ∧ buf'.filled = buf.filled ∧
      (poll = .pending ∨ ∃ k, poll = .ready (.ok k)) := by
  simp only [AsyncRead.pollRead, pollRead]
  split
  · exact ⟨d.reads, _, _, rfl, rfl, .inr ⟨_, rfl⟩⟩
  · split
    · exact ⟨d.reads, _, _, rfl, rfl, .inl rfl⟩
    · exact ⟨_, _, _, rfl, rfl, .inl rfl⟩
    · refine ⟨_, buf.put [], _, by simp only [h, List.take_nil, List.drop_nil]; rfl, ?_,
        .inr ⟨_, rfl⟩⟩
      rw [ReadBuf.filled_put (Nat.zero_le _), List.append_nil]

theorem eq_of_pollRead_pending {d d' : Duplex} {buf buf' : ReadBuf}
    (h : AsyncRead.pollRead d buf = (d', buf', .pending)) : buf' = buf := by
  simp only [AsyncRead.pollRead, pollRead] at h
  split at h
  · cases h
  · split at h <;> cases h <;> rfl

end Duplex

namespace Fallback
variable {f g f' : Fallback Duplex} {buf buf' : ReadBuf} {n : Nat}

theorem capacity_pollRead {f f' : Fallback Duplex} (h : AsyncRead.pollRead f buf = (f', buf', r)) :
    buf'.capacity = buf.capacity := by
  have hbuf : buf' = (AsyncRead.pollRead f buf).2.1 := by rw [h]
  rw [hbuf]
  cases hb : f.backedBuf with
  | some b =>
    simp only [AsyncRead.pollRead, pollRead, hb]
    rfl
  | none =>
    rw [pollRead_none hb]
    rcases hread : AsyncRead.pollRead f.target buf with ⟨target, buf', _ | ⟨e | k⟩⟩ <;>
      exact Duplex.capacity_pollRead hread

/-- A turn of `ReadExact` that reads: it waits, it fails, or all that is in the buffer is
recorded. -/
theorem readExact_cases (hm : g.markedBuf.isSome) (hrem : buf.remaining ≠ 0) :
    (∃ g', ReadExact.step (buf, g) = .pending (buf, g') ∧ g'.markedBuf.isSome ∧
      g'.marked = g.marked) ∨
    (∃ s e, ReadExact.step (buf, g) = .ready s (.error e)) ∨
    ∃ buf' g', ReadExact.step (buf, g) = .again (buf', g') ∧ g'.markedBuf.isSome ∧
      g'.marked = g.marked ++ buf'.filled := by
  simp only [ReadExact.step, if_pos hrem]
  cases hb : g.backedBuf with
  | some b =>
    obtain ⟨g₁, buf', hread, -, -, -, hmark⟩ := pollRead_some (by rw [hb]; rfl) buf
    have hm' : g₁.markedBuf.isSome := by rw [hmark]; exact hm
    simp only [hread]
    split
    · exact .inr (.inl ⟨_, _, rfl⟩)
    · refine .inr (.inr ⟨_, _, rfl, by rw [isSome_record]; exact hm', ?_⟩)
      rw [marked_record hm', marked, hmark, ← marked]
  | none =>
    rw [pollRead_none hb]
    rcases hread : AsyncRead.pollRead g.target buf with ⟨target, buf', _ | ⟨e | k⟩⟩
    · obtain rfl := Duplex.eq_of_pollRead_pending hread
      exact .inl ⟨_, rfl, hm, rfl⟩
    · exact .inr (.inl ⟨_, _, rfl⟩)
    · dsimp only
      split
      · exact .inr (.inl ⟨_, _, rfl⟩)
      · exact .inr (.inr ⟨_, _, rfl, by rw [isSome_record]; exact hm, marked_record hm _⟩)

/-- `ReadExact` is done when nothing remains. -/
theorem readExact_done (h : buf.remaining = 0) :
    ReadExact.step (buf, g) = .ready (buf, g) (.ok ()) := by
  simp [ReadExact.step, h]

/-- When a read follows one that was recorded, more is recorded than is read. -/
theorem length_lt_marked (hm : g.markedBuf.isSome) (hrem : buf.remaining ≠ 0)
    (hne : g.marked ≠ []) (H : Drives ReadExact.step (buf, g) (buf', f') (.ok ())) :
    f'.markedBuf.isSome ∧ buf'.filled.length < f'.marked.length := by
  refine H.post (Q := fun s r => r = .ok () →
      s.2.markedBuf.isSome ∧ s.1.filled.length < s.2.marked.length)
    (I := fun s => s.2.markedBuf.isSome ∧ 0 < s.2.marked.length ∧
      (s.1.remaining = 0 → s.1.filled.length < s.2.marked.length)) ?_
    ⟨hm, List.length_pos_iff.2 hne, fun h => absurd h hrem⟩ rfl
  rintro ⟨buf, g⟩ ⟨hm, hpos, hlt⟩
  by_cases hrem : buf.remaining = 0
  · exact .inr ⟨_, _, readExact_done hrem, fun _ => ⟨hm, hlt hrem⟩⟩
  · obtain ⟨g', hstep, hm', heq⟩ | ⟨s, e, hstep⟩ | ⟨buf', g', hstep, hm', heq⟩ :=
      readExact_cases hm hrem
    · refine .inl ⟨_, .inr hstep, hm', ?_, fun h => absurd h hrem⟩
      dsimp only
      rw [heq]
      exact hpos
    · exact .inr ⟨_, _, hstep, nofun⟩
    · have hlen : g'.marked.length = g.marked.length + buf'.filled.length := by
        rw [heq, List.length_append]
      exact .inl ⟨_, .inl hstep, hm', by dsimp only at *; omega, fun _ => by dsimp only at *; omega⟩

/-- What is readable again when nothing is left over of what was readable again before. -/
theorem replay_of_done (hm : g.markedBuf.isSome) (hrem : buf.remaining = 0)
    (H : Drives ReadExact.step (buf, g) (buf', f') (.ok ())) :
    buf' = buf ∧ f'.backward.backed = g.backed ++ g.marked := by
  obtain ⟨heq, -⟩ := (drives_iff_of_ready (readExact_done hrem)).1 H
  cases heq
  exact ⟨rfl, (backward_of_some hm).1⟩

/-- When the first read did not fill the buffer, what is readable again is too long. -/
theorem replay_ne (hm : g.markedBuf.isSome) (hrem : buf.remaining ≠ 0) (hne : g.marked ≠ [])
    (H : Drives ReadExact.step (buf, g) (buf', f') (.ok ())) :
    f'.backward.backed ≠ buf'.filled := by
  obtain ⟨hm', hlt⟩ := length_lt_marked hm hrem hne H
  intro heq
  have := congrArg List.length heq
  rw [(backward_of_some hm').1, List.length_append] at this
  omega

/-- The first read of `ReadExact` was recorded: it filled the buffer or not. -/
theorem replay_iff_of_again (hstep : Goes ReadExact.step (.new n, f) (buf, g))
    (hm : g.markedBuf.isSome) (hcap : buf.capacity = n) (hne : buf.filled ≠ [])
    (hmarked : g.marked = f.marked ++ buf.filled)
    (H : Drives ReadExact.step (.new n, f) (buf', f') (.ok ())) :
    f'.backward.backed = buf'.filled ↔
      f.marked = [] ∧ g.backed = [] ∧ n ≤ buf.filled.length := by
  have H' := (drives_iff_of_goes hstep).1 H
  by_cases hrem : buf.remaining = 0
  · obtain ⟨rfl, hback⟩ := replay_of_done hm hrem H'
    have hle : n ≤ buf'.filled.length := by rw [ReadBuf.remaining] at hrem; omega
    rw [hback, hmarked, ← List.append_assoc]
    constructor
    · intro h
      have := List.append_eq_nil_iff.1 (List.append_left_eq_self.1 h)
      exact ⟨this.2, this.1, hle⟩
    · rintro ⟨h, h', -⟩
      rw [h, h', List.nil_append, List.nil_append]
  · have hne' : g.marked ≠ [] := by rw [hmarked]; simp [hne]
    refine iff_of_false (replay_ne hm hrem hne' H') ?_
    rintro ⟨-, -, hle⟩
    rw [ReadBuf.remaining] at hrem
    omega

theorem replay_iff_of_some (hb : f.backedBuf = some b) (hm : f.markedBuf.isSome) (hn : n ≠ 0)
    (H : Drives ReadExact.step (.new n, f) (buf', f') (.ok ())) :
    f'.backward.backed = buf'.filled ↔ f.marked = [] ∧ b.contents.length = n := by
  have hback : f.backed = b.contents := by simp [backed, hb]
  obtain ⟨g, buf, hread, hfill, hg, -, hmark⟩ := pollRead_some (by rw [hb]; rfl) (.new n)
  have hcap : buf.capacity = n := capacity_pollRead hread
  rw [ReadBuf.remaining_new, hback] at hread hfill hg
  rw [ReadBuf.filled_new, List.nil_append] at hfill
  have hm' : g.markedBuf.isSome := by rw [hmark]; exact hm
  by_cases h0 : (b.contents.take n).length = 0
  · -- The end of the stream, although it may go on behind what was to be read again.
    have hready : ReadExact.step (.new n, f) =
        .ready (buf, g.record buf) (.error (.io .unexpectedEof)) := by
      simp only [ReadExact.step, ReadBuf.remaining_new, if_pos hn, hread, if_pos h0]
    obtain ⟨-, h⟩ := (drives_iff_of_ready hready).1 H
    cases h
  · have hstep : ReadExact.step (.new n, f) = .again (buf, g.record buf) := by
      simp only [ReadExact.step, ReadBuf.remaining_new, if_pos hn, hread, if_neg h0]
    rw [replay_iff_of_again (.inl hstep) (by rw [isSome_record]; exact hm') hcap
      (by rw [hfill]; exact fun h => h0 (by rw [h]; rfl))
      (by rw [marked_record hm', marked, hmark, ← marked]) H, backed_record, hg, hfill]
    rw [List.drop_eq_nil_iff, List.length_take]
    exact and_congr_right fun _ => by omega

/-- At the end of the stream a buffer that is not full stays so. -/
theorem not_drives_of_end (hb : g.backedBuf = none) (hin : g.target.incoming = [])
    (hrem : buf.remaining ≠ 0) : ¬ Drives ReadExact.step (buf, g) s (.ok ()) := by
  intro H
  refine H.post (Q := fun _ r => r ≠ .ok ()) (I := fun s =>
    s.2.backedBuf = none ∧ s.2.target.incoming = [] ∧ s.1.remaining ≠ 0) ?_ ⟨hb, hin, hrem⟩ rfl
  rintro ⟨buf, g⟩ ⟨hb, hin, hrem⟩
  obtain ⟨reads, buf', poll, hread, hfill, hpoll⟩ := Duplex.pollRead_end hin buf
  have hcap : buf'.capacity = buf.capacity := Duplex.capacity_pollRead hread
  have hrem' : buf'.remaining ≠ 0 := by
    rw [ReadBuf.remaining] at hrem ⊢
    rw [hfill, hcap]
    exact hrem
  simp only [Goes, ReadExact.step, if_pos hrem, pollRead_none hb, hread]
  obtain rfl | ⟨k, rfl⟩ := hpoll
  · exact .inl ⟨_, .inr rfl, hb, hin, hrem'⟩
  · dsimp only
    split
    · refine .inr ⟨_, _, rfl, fun hok => ?_⟩
      cases hok
    · exact .inl ⟨_, .inl rfl, hb, hin, hrem'⟩

/-- Without answers the read waits for ever. -/
theorem not_drives_of_nil (hb : f.backedBuf = none) (hr : f.target.reads = []) (hn : n ≠ 0) :
    ¬ Drives ReadExact.step (.new n, f) s r := by
  intro H
  refine H.post (Q := fun _ _ => False) (I := fun s =>
    s.1 = .new n ∧ s.2.backedBuf = none ∧ s.2.target.reads = []) ?_ ⟨rfl, hb, hr⟩
  rintro ⟨_, g⟩ ⟨rfl, hb, hr⟩
  have hrem : (ReadBuf.new n).remaining ≠ 0 := hn
  have hread := Duplex.pollRead_nil hr hrem
  have hstep : ReadExact.step (.new n, g) = .pending (.new n, g) := by
    simp only [ReadExact.step, if_pos hrem, pollRead_none hb, hread]
  exact .inl ⟨(.new n, g), .inr hstep, rfl, hb, hr⟩

theorem replay_iff_of_upTo (hb : f.backedBuf = none) (hm : f.markedBuf.isSome) (hn : n ≠ 0)
    (hr : f.target.reads = .upTo k :: reads)
    (H : Drives ReadExact.step (.new n, f) (buf', f') (.ok ())) :
    f'.backward.backed = buf'.filled ↔ f.marked = [] ∧ n ≤ k + 1 := by
  have hrem : (ReadBuf.new n).remaining ≠ 0 := hn
  obtain ⟨buf, hfill, hread⟩ := Duplex.pollRead_upTo hr hn
  have hcap : buf.capacity = n := Duplex.capacity_pollRead hread
  have hlen : (f.target.delivered k n).length = min (min (k + 1) n) f.target.incoming.length :=
    f.target.length_delivered
  let g : Fallback Duplex :=
    { f with target := f.target.behind reads (f.target.delivered k n) }
  by_cases h0 : (f.target.delivered k n).length = 0
  · have hready : ReadExact.step (.new n, f) =
        .ready (buf, g.record buf) (.error (.io .unexpectedEof)) := by
      simp only [ReadExact.step, if_pos hrem, pollRead_none hb, hread, if_pos h0, g]
    obtain ⟨-, h⟩ := (drives_iff_of_ready hready).1 H
    cases h
  · have hstep : ReadExact.step (.new n, f) = .again (buf, g.record buf) := by
      simp only [ReadExact.step, if_pos hrem, pollRead_none hb, hread, if_neg h0, g]
    rw [replay_iff_of_again (.inl hstep) (by rw [isSome_record]; exact hm) hcap
      (by rw [hfill]; exact fun h => h0 (by rw [h]; rfl)) (marked_record hm _) H, hfill,
      backed_record]
    refine and_congr_right fun _ => ⟨fun h => by have := h.2; omega, fun hle => ?_⟩
    refine ⟨by simp [backed, g, hb], ?_⟩
    -- A stream that ends within the buffer would never fill it.
    by_contra hlt
    refine not_drives_of_end (g := g.record buf) hb ?_ ?_ ((drives_iff_of_goes (.inl hstep)).1 H)
    · exact List.drop_eq_nil_of_le (by omega)
    · rw [ReadBuf.remaining, hfill, hcap]
      omega

theorem replay_iff_of_none (hb : f.backedBuf = none) (hm : f.markedBuf.isSome) (hn : n ≠ 0)
    (H : Drives ReadExact.step (.new n, f) (buf', f') (.ok ())) :
    f'.backward.backed = buf'.filled ↔
      f.marked = [] ∧ ∃ k, (sizes f.target.reads).head? = some k ∧ n ≤ k := by
  induction hr : f.target.reads generalizing f with
  | nil => exact absurd H (not_drives_of_nil hb hr hn)
  | cons a reads ih =>
    cases a with
    | pending =>
      have hrem : (ReadBuf.new n).remaining ≠ 0 := hn
      have hread := Duplex.pollRead_pending hr hrem
      have hstep : ReadExact.step (.new n, f) =
          .pending (.new n, { f with target := { f.target with reads } }) := by
        simp only [ReadExact.step, if_pos hrem, pollRead_none hb, hread]
      exact ih (f := { f with target := { f.target with reads } }) hb hm
        ((drives_iff_of_goes (.inr hstep)).1 H) rfl
    | upTo k =>
      rw [replay_iff_of_upTo hb hm hn hr H]
      simp [sizes]

/-- The `n` bytes can be had by one read. -/
def AtOnce (f : Fallback Duplex) (n : Nat) : Prop :=
  if n = 0 then f.backed = []
  else match f.backedBuf with
  | some backed => backed.contents.length = n
  | none => ∃ k, (sizes f.target.reads).head? = some k ∧ n ≤ k

/-- What `ReadExact` read from a marked stream is readable again as it was read if and only if
nothing had been recorded before and it was read at once. -/
theorem readExact_iff (H : Drives ReadExact.step (.new n, f.mark) (buf, f') (.ok ())) :
    f'.backward.backed = buf.filled ↔ f.marked = [] ∧ f.AtOnce n := by
  have hm := f.isSome_mark
  rw [AtOnce]
  split
  · next hn =>
    have hrem : (ReadBuf.new n).remaining = 0 := hn
    obtain ⟨rfl, hback⟩ := replay_of_done hm hrem H
    rw [hback, backed_mark, marked_mark, ReadBuf.filled_new, List.append_eq_nil_iff, and_comm]
  · next hn =>
    cases hb : f.backedBuf with
    | some b =>
      rw [replay_iff_of_some (by rw [backedBuf_mark, hb]) hm hn H, marked_mark]
    | none =>
      rw [replay_iff_of_none (by rw [backedBuf_mark, hb]) hm hn H, marked_mark, target_mark]

/-- Two bytes that are read at once. -/
theorem replay_two : ∃ buf f',
    Drives ReadExact.step (.new 2, (new (⟨[1, 2], [.upTo 7], [], [], []⟩ : Duplex) false).mark)
      (buf, f') (.ok ()) ∧ f'.backward.backed = buf.filled := by
  have H := (drives_of_run (n := 2) rfl : Drives ReadExact.step
    (.new 2, (new (⟨[1, 2], [.upTo 7], [], [], []⟩ : Duplex) false).mark) _ (.ok ()))
  exact ⟨_, _, H, (readExact_iff H).2 ⟨rfl, 8, rfl, by decide⟩⟩

/-- Two bytes that are read one by one. -/
theorem not_readExact : ¬ ∀ (d : Duplex) (strict : Bool) n buf f',
    Drives ReadExact.step (.new n, (new d strict).mark) (buf, f') (.ok ()) →
      f'.backward.backed = buf.filled := by
  intro h
  have H := (drives_of_run (n := 3) rfl : Drives ReadExact.step
    (.new 2, (new (⟨[1, 2], [.upTo 0, .upTo 0], [], [], []⟩ : Duplex) false).mark) _ (.ok ()))
  exact absurd (h _ _ _ _ _ H) (by decide)

end Fallback
end Fuso

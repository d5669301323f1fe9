import Fuso.Async.ReadExact
import Fuso.Async.Source
import Fuso.Theory.Seq

/-!
# `ReadExact` on a source

`ReadExact` goes on reading into the buffer it has begun to fill. A reader for which that is like
reading into a fresh buffer and putting the bytes behind the others is `Fresh`; on such a reader it
takes just as many bytes from the front as the buffer holds (`Source.readExact_step`), and when they
are there it does so (`Source.exists_readExact`).
-/

namespace Fuso
open Turn

namespace ReadBuf

/-- A result, with what was put into a fresh buffer behind what is in `b`. -/
def behind (b : ReadBuf) (r : ReadBuf × α) : ReadBuf × α := (b.put r.1.filled, r.2)

theorem put_nil (b : ReadBuf) : b.put [] = b := by
  obtain ⟨capacity, filled, fits⟩ := b
  simp [put]

theorem behind_new (b : ReadBuf) (n : Nat) (a : α) : b.behind (.new n, a) = (b, a) := by
  rw [behind, filled_new, put_nil]

end ReadBuf

/-- Only the room that is left in a buffer matters. -/
structure Fresh (R : Type u) [AsyncRead R] : Prop where
  pending : ∀ (r : R) buf {r' data}, pollRead r (.new buf.remaining) = (r', data, .pending) →
    pollRead r buf = (r', buf, .pending)
  ready : ∀ (r : R) buf {r' data n}, pollRead r (.new buf.remaining) = (r', data, .ready (.ok n)) →
    pollRead r buf = (r', buf.put data.filled, .ready (.ok n))
  failed : ∀ (r : R) buf {r' data e},
    pollRead r (.new buf.remaining) = (r', data, .ready (.error e)) →
    ∃ buf', pollRead r buf = (r', buf', .ready (.error e))

/-- `buf` is the beginning of a buffer of `n` bytes that are read from the front of `b`. -/
structure Filling [AsyncRead R] (S : Source R) (n : Nat) (b : Bytes) (s : ReadBuf × R) : Prop where
  capacity : s.1.capacity = n
  left : ∃ rest, b = s.1.filled ++ rest ∧ S.Left s.2 rest

namespace Source
variable {R : Type u} [AsyncRead R] {S : Source R} {n : Nat} {b : Bytes} {buf : ReadBuf} {r r' : R}

/-- A turn of `ReadExact`: it is over, it waits, it goes on with more bytes, or there are too few.
-/
theorem readExact_step (hR : Fresh R) (h : Filling S n b (buf, r)) :
    (buf.filled.length = n ∧ ReadExact.step (buf, r) = .ready (buf, r) (.ok ())) ∨
    (buf.filled.length < n ∧ ∃ buf' r', Filling S n b (buf', r') ∧
      ((ReadExact.step (buf, r) = .pending (buf', r') ∧ buf'.filled = buf.filled ∧
          (S.live r → n ≤ b.length → S.live r' ∧ S.answers r' < S.answers r)) ∨
        (ReadExact.step (buf, r) = .again (buf', r') ∧ buf.filled.length < buf'.filled.length ∧
          (S.live r → S.live r' ∧ S.answers r' ≤ S.answers r)))) ∨
    (b.length < n ∧ ∃ s e, ReadExact.step (buf, r) = .ready s (.error e)) := by
  obtain ⟨hcap, rest, rfl, hleft⟩ := h
  dsimp only at hcap hleft ⊢
  have hfits := buf.fits
  by_cases hfull : buf.filled.length = n
  · refine .inl ⟨hfull, ?_⟩
    have hrem : buf.remaining = 0 := by rw [ReadBuf.remaining]; omega
    simp only [ReadExact.step, hrem, ne_eq, not_true_eq_false, if_false]
  have hrem : buf.remaining ≠ 0 := by rw [ReadBuf.remaining]; omega
  have hlt : buf.filled.length < n := by omega
  obtain ⟨r', data, ⟨hread, hleft', hans⟩ | ⟨hread, hne, hle, rest', rfl, hleft', hans⟩ |
    ⟨rfl, hread⟩⟩ := S.read r rest buf.remaining hleft (Nat.pos_of_ne_zero hrem)
  · refine .inr (.inl ⟨hlt, buf, r', ⟨hcap, rest, rfl, hleft'⟩, .inl ⟨?_, rfl, fun hlive hn => ?_⟩⟩)
    · simp only [ReadExact.step, ne_eq, hrem, not_false_eq_true, if_true, hR.pending r buf hread]
    · refine (fun h => ⟨h.1, h.2 ?_⟩) (hans hlive)
      rintro rfl
      rw [List.append_nil] at hn
      omega
  · have hput : (buf.put data.filled).filled = buf.filled ++ data.filled := ReadBuf.filled_put hle
    have hpos := List.length_pos_iff.2 hne
    refine .inr (.inl ⟨hlt, buf.put data.filled, r', ⟨hcap, rest', ?_, hleft'⟩,
      .inr ⟨?_, ?_, hans⟩⟩)
    · rw [hput, List.append_assoc]
    · simp only [ReadExact.step, ne_eq, hrem, not_false_eq_true, if_true, hR.ready r buf hread,
        Nat.ne_of_gt hpos, if_false]
    · rw [hput, List.length_append]
      omega
  · refine .inr (.inr ⟨by rwa [List.append_nil], ?_⟩)
    rcases hread with hread | ⟨e, hread⟩
    · exact ⟨_, _, by simp only [ReadExact.step, ne_eq, hrem, not_false_eq_true, if_true,
        hR.ready r buf hread]; rfl⟩
    · obtain ⟨buf', hread⟩ := hR.failed r buf hread
      exact ⟨_, _,
        by simp only [ReadExact.step, ne_eq, hrem, not_false_eq_true, if_true, hread]; rfl⟩

theorem filling_of_goes (hR : Fresh R) (h : Filling S n b (buf, r))
    (hg : Goes ReadExact.step (buf, r) (buf', r')) : Filling S n b (buf', r') := by
  rcases readExact_step hR h with ⟨-, hstep⟩ | ⟨-, buf₁, r₁, h', hgoes⟩ | ⟨-, s, e, hstep⟩
  · rcases hg with hg | hg <;> rw [hstep] at hg <;> cases hg
  · have hg' : Goes ReadExact.step (buf, r) (buf₁, r₁) :=
      hgoes.elim (fun h => .inr h.1) fun h => .inl h.1
    cases hg.unique hg'
    exact h'
  · rcases hg with hg | hg <;> rw [hstep] at hg <;> cases hg

/-- With answers enough the bytes are read. -/
theorem exists_readExact (hR : Fresh R) (hleft : S.Left r b) (hlive : S.live r)
    (hn : n ≤ b.length) : ∃ buf r', Drives ReadExact.step (.new n, r) (buf, r') (.ok ()) ∧
      buf.filled = b.take n ∧ S.Left r' (b.drop n) ∧ S.live r' := by
  let I : ReadBuf × R → Prop := fun s => Filling S n b s ∧ S.live s.2
  have hstart : I (.new n, r) := ⟨⟨rfl, b, rfl, hleft⟩, hlive⟩
  have hI : ∀ s, I s → (∃ s', Goes ReadExact.step s s' ∧ I s' ∧
      S.answers s'.2 + (n - s'.1.filled.length) < S.answers s.2 + (n - s.1.filled.length)) ∨
      ReadExact.step s = .ready s (.ok ()) ∧ s.1.filled.length = n := by
    rintro ⟨buf, r⟩ ⟨h, hlive⟩
    rcases readExact_step hR h with ⟨hlen, hstep⟩ |
      ⟨hlt, buf', r', h', ⟨hstep, heq, hans⟩ | ⟨hstep, hmore, hans⟩⟩ | ⟨hlt, -⟩
    · exact .inr ⟨hstep, hlen⟩
    · obtain ⟨hlive', hless⟩ := hans hlive hn
      refine .inl ⟨_, .inr hstep, ⟨h', hlive'⟩, ?_⟩
      dsimp only
      rw [heq]
      omega
    · obtain ⟨hlive', hle⟩ := hans hlive
      refine .inl ⟨_, .inl hstep, ⟨h', hlive'⟩, ?_⟩
      dsimp only
      omega
    · omega
  obtain ⟨s', res, H⟩ := exists_drives (fun s => S.answers s.2 + (n - s.1.filled.length))
    (fun s hs => (hI s hs).imp_right fun h => ⟨_, _, h.1⟩) hstart
  have hQ : res = .ok () ∧ I s' ∧ s'.1.filled.length = n := by
    refine H.post (I := I) (Q := fun s res => res = .ok () ∧ I s ∧ s.1.filled.length = n)
      (fun s hs => ?_) hstart
    rcases hI s hs with ⟨s', hg, h', -⟩ | ⟨hstep, hlen⟩
    · exact .inl ⟨s', hg, h'⟩
    · exact .inr ⟨_, _, hstep, rfl, hs, hlen⟩
  obtain ⟨rfl, ⟨⟨-, rest, rfl, hleft'⟩, hlive'⟩, hlen⟩ := hQ
  refine ⟨s'.1, s'.2, H, ?_, ?_, hlive'⟩
  · rw [← hlen, List.take_left]
  · rwa [← hlen, List.drop_left]

end Source

namespace ReadExact
variable {R : Type u} [AsyncRead R] {J : R → Prop}

/-- A turn on any reader, and what every read keeps. -/
theorem step_cases (hR : Fresh R) (hJ : ∀ r buf, J r → J (pollRead r buf).1) {r : R} (hr : J r)
    (buf : ReadBuf) :
    (buf.filled.length = buf.capacity ∧ step (buf, r) = .ready (buf, r) (.ok ())) ∨
      (∃ buf' r', Goes step (buf, r) (buf', r') ∧ buf'.capacity = buf.capacity ∧ J r') ∨
      ∃ buf' r' e, step (buf, r) = .ready (buf', r') (.error e) ∧ J r' := by
  by_cases hrem : buf.remaining = 0
  · have hfits := buf.fits
    rw [ReadBuf.remaining] at hrem
    refine .inl ⟨by omega, ?_⟩
    simp only [step, ReadBuf.remaining, hrem, ne_eq, not_true_eq_false, if_false]
  have hread := hJ r buf hr
  obtain ⟨⟨r', data, answer⟩, hpoll⟩ : ∃ p, pollRead r (.new buf.remaining) = p := ⟨_, rfl⟩
  rcases answer with _ | ⟨e | k⟩
  · have heq := hR.pending r buf hpoll
    rw [heq] at hread
    refine .inr (.inl ⟨buf, r', .inr ?_, rfl, hread⟩)
    simp only [step, ne_eq, hrem, not_false_eq_true, if_true, heq]
  · obtain ⟨buf', heq⟩ := hR.failed r buf hpoll
    rw [heq] at hread
    refine .inr (.inr ⟨buf', r', e, ?_, hread⟩)
    simp only [step, ne_eq, hrem, not_false_eq_true, if_true, heq]
  · have heq := hR.ready r buf hpoll
    rw [heq] at hread
    by_cases hk : k = 0
    · refine .inr (.inr ⟨buf.put data.filled, r', .io .unexpectedEof, ?_, hread⟩)
      simp only [step, ne_eq, hrem, not_false_eq_true, if_true, heq, hk]
    · refine .inr (.inl ⟨buf.put data.filled, r', .inl ?_, ReadBuf.capacity_put buf, hread⟩)
      simp only [step, ne_eq, hrem, not_false_eq_true, if_true, heq, hk, if_false]

/-- What every read keeps a run keeps. -/
theorem keeps (hR : Fresh R) (hJ : ∀ r buf, J r → J (pollRead r buf).1) {s s' : ReadBuf × R}
    (hs : J s.2) (H : Drives step s s' res) : J s'.2 := by
  refine H.post (I := fun s => J s.2) (Q := fun s _ => J s.2) ?_ hs
  rintro ⟨buf, r⟩ hr
  rcases step_cases hR hJ hr buf with ⟨-, hstep⟩ | ⟨buf', r', hg, -, hr'⟩ |
    ⟨buf', r', e, hstep, hr'⟩
  · exact .inr ⟨_, _, hstep, hr⟩
  · exact .inl ⟨_, hg, hr'⟩
  · exact .inr ⟨_, _, hstep, hr'⟩

end ReadExact
end Fuso

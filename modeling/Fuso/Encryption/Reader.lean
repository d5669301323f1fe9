import Mathlib.Data.List.Forall2
import Fuso.Async.Unframe
import Fuso.Encryption.Decrypt

/-!
# The reads of an encryptor

`poll_read` of an encryptor takes a stream of messages apart (`Encryptor.unframer`), so it delivers
what they decrypt to, wherever the stream is cut and whatever the sizes of the buffers
(`Encryptor.reader`).
-/

namespace Fuso
open Turn

namespace Encryptor
variable {G : Type} {C : Cipher G}

/-- The state in which the loop of a `poll_read` starts. -/
def enter (this : Encryptor C Duplex) : Encryptor C Duplex × Bytes :=
  ({ this with rbuf := none }, this.rbuf.getD (.replicate 4 0))

def delivered : ReadBuf × Result Nat → Exit Bytes
  | (buf, .ok n) => .ret (.ok (buf.filled.take n))
  | (_, .error e) => .ret (.error e)

/-- A turn of a `poll_read`; at its end the state is the one the next poll starts in. -/
def turn (cap : Nat) (s : Encryptor C Duplex × Bytes) :
    Turn (Encryptor C Duplex × Bytes) (Exit Bytes) :=
  if s.1.cache.isEmpty then (readStep (.new cap) s).settle (enter ·.1) delivered
  else
    .ready ({ s.1 with cache := (s.1.cache.readToBuffer cap).2 }, s.2)
      (.ret (.ok (s.1.cache.readToBuffer cap).1))

/-- What is known in the loop: `cache` is held back, `got` has arrived, and `frames` are messages
that decrypt to `ms`. -/
structure Holds (s : Encryptor C Duplex × Bytes) (cache got : Bytes) (frames ms : List Bytes) :
    Prop where
  cache : s.1.cache.contents = cache
  got : s.1.got s.2 = got
  rbuf : s.1.rbuf = none
  size : if s.1.dinit then 0 < s.2.length ∧ s.2.length < 2 ^ 32 else s.2.length = 4
  pos : s.1.rpos ≤ s.2.length
  opens : List.Forall₂ C.Opens frames ms

variable {this : Encryptor C Duplex} {rbuf cache got more : Bytes} {frames ms : List Bytes}

theorem Holds.stream (h : Holds (this, rbuf) cache got frames ms)
    (hwire : got ++ (this.target.incoming ++ more) = frames.flatten) :
    messageFormat.Stream frames (got ++ (this.target.incoming ++ more)) := by
  have hs := stream_messages h.opens (Format.open_nil (F := messageFormat) (by decide))
  rwa [List.append_nil, ← hwire] at hs

/-- The reader as it were if `more` was there already. -/
theorem Holds.reading (h : Holds (this, rbuf) cache got frames ms)
    (hwire : got ++ (this.target.incoming ++ more) = frames.flatten) :
    Reading Duplex.source ms.flatten
      ({ this with
        target := { this.target with incoming := this.target.incoming ++ more } } : Encryptor C _)
      rbuf :=
  ⟨h.size, h.pos, frames, ms, this.target.incoming ++ more, h.opens, rfl, h.got ▸ h.stream hwire,
    rfl⟩

/-- A message that is not complete is no message. -/
theorem Holds.eq_nil (h : Holds (this, rbuf) cache got frames ms)
    (hwire : got ++ (this.target.incoming ++ more) = frames.flatten) (hlt : this.rpos < rbuf.length)
    (hall : got = frames.flatten) : frames = [] := by
  have hopen := (h.reading hwire).open_got hlt
  change messageFormat.Open (this.got rbuf) at hopen
  rw [h.got] at hopen
  have hs := stream_messages h.opens (Format.open_nil (F := messageFormat) (by decide))
  rw [List.append_nil, ← hall] at hs
  exact hs.eq_nil hopen

theorem Holds.rounds_lt (h : Holds s cache got frames ms) : rounds s < 2 ^ 32 + 8 := by
  have hsize := h.size
  unfold rounds
  split at hsize
  · rw [if_pos ‹_›]
    omega
  · rw [if_neg ‹_›]
    omega

/-- Where nothing of a message has arrived. -/
theorem Holds.of_got_nil (h : Holds (this, rbuf) cache [] frames ms) :
    this.dinit = false ∧ this.rpos = 0 := by
  have hgot := h.got
  have hsize := h.size
  have hpos := h.pos
  dsimp only at hgot hsize hpos
  rw [Encryptor.got, List.append_eq_nil_iff] at hgot
  cases hd : this.dinit with
  | true => simp [hd, toLeBytes] at hgot
  | false =>
    simp only [hd, Bool.false_eq_true, if_false] at hsize
    refine ⟨rfl, (List.take_eq_nil_iff.1 hgot.2).resolve_right fun hnil => ?_⟩
    rw [hnil] at hsize
    cases hsize

/-- The round that decrypts. -/
theorem Holds.decrypt (h : Holds (this, rbuf) [] got frames ms)
    (hwire : got ++ (this.target.incoming ++ more) = frames.flatten)
    (hpos : this.rpos = rbuf.length) (hd : this.dinit = true) (cap : Nat) :
    Unframing (·.1.target) rounds Holds cap (this, rbuf) [] got frames ms
      (turn cap (this, rbuf)) := by
  have hsize := h.size
  simp only [hd, if_true] at hsize
  have hgot : got = toLeBytes rbuf.length ++ rbuf := by
    rw [← h.got]
    simp [Encryptor.got, hd, hpos]
  obtain ⟨frames', rfl, -⟩ := (hgot ▸ h.stream hwire).next (frame_message hsize.2)
  rw [← hgot] at h hwire ⊢
  obtain _ | @⟨_, m, _, ms', ⟨c, hc, -, -, hdec, hne⟩, hopens⟩ := h.opens
  have heq : toLeBytes rbuf.length ++ rbuf = toLeBytes c.length ++ c := hgot ▸ hc
  obtain rfl : rbuf = c := (List.append_inj heq rfl).2
  have hempty : this.cache.isEmpty = true := this.cache.isEmpty_iff.2 h.cache
  have hrbuf : this.rbuf = none := h.rbuf
  by_cases hle : m.length ≤ cap
  · have hfill : ((ReadBuf.new cap).put m).filled = m := ReadBuf.filled_put hle
    have hturn : turn cap (this, rbuf) =
        .ready ({ this with rpos := 0, dinit := false, rbuf := none }, .replicate 4 0)
          (.ret (.ok (m.take cap))) := by
      simp [turn, hempty, readStep, hpos, hd, hdec, hle, settle, enter, delivered, hfill, hrbuf,
        List.take_of_length_le hle]
    rw [hturn]
    exact .opened hne rfl
      ⟨by simp [h.cache, List.drop_eq_nil_of_le hle], by simp [Encryptor.got], rfl, by simp,
        Nat.zero_le _, hopens⟩
  · have hlen : (m.take cap).length = cap := by rw [List.length_take]; omega
    have hfill : ((ReadBuf.new cap).put (m.take cap)).filled = m.take cap :=
      ReadBuf.filled_put (Nat.le_of_eq hlen)
    have hturn : turn cap (this, rbuf) =
        .ready ({ this with rpos := 0, dinit := false, rbuf := none,
                            cache := this.cache.pushBack (m.drop cap) }, .replicate 4 0)
          (.ret (.ok (m.take cap))) := by
      simp [turn, hempty, readStep, hpos, hd, hdec, hle, settle, enter, delivered, hfill, hrbuf]
    rw [hturn]
    exact .opened hne rfl
      ⟨by simpa using h.cache, by simp [Encryptor.got], rfl, by simp, Nat.zero_le _, hopens⟩

/-- The round that reads. -/
theorem Holds.read (h : Holds (this, rbuf) [] got frames ms)
    (hwire : got ++ (this.target.incoming ++ more) = frames.flatten) (hlt : this.rpos < rbuf.length)
    (cap : Nat) :
    Unframing (·.1.target) rounds Holds cap (this, rbuf) [] got frames ms
      (turn cap (this, rbuf)) := by
  have hempty : this.cache.isEmpty = true := this.cache.isEmpty_iff.2 h.cache
  have hrbuf : this.rbuf = none := h.rbuf
  have hne := Nat.ne_of_lt hlt
  have hin := Nat.lt_asymm hlt
  obtain ⟨d', buf, ⟨hread, -, hwaits⟩ | ⟨hread, hle, hgives⟩⟩ :=
    this.target.pollRead_room (rbuf.length - this.rpos) (by omega)
  · have hturn : turn cap (this, rbuf) =
        .pending ({ this with target := d', rbuf := none }, rbuf) := by
      simp [turn, hempty, readStep, hne, hin, hread, settle, enter]
    rw [hturn]
    exact .waits hwaits (h.eq_nil hwire hlt) ⟨h.cache, h.got, rfl, h.size, h.pos, h.opens⟩
  by_cases h0 : buf.filled = []
  · have hturn : turn cap (this, rbuf) =
        .ready ({ this with target := d', rbuf := none }, .replicate 4 0) (.ret (.ok [])) := by
      simp [turn, hempty, readStep, hne, hin, hread, h0, settle, enter, delivered, hrbuf]
    rw [hturn]
    refine .ended (h0 ▸ hgives) (h.eq_nil hwire hlt) fun hgot => ?_
    subst hgot
    obtain ⟨hd, hp⟩ := h.of_got_nil
    exact ⟨h.cache, by simp [Encryptor.got, hd, hp], rfl, by simp [hd], by simp [hp], .nil⟩
  · have hlen : buf.filled.length ≠ 0 := by simpa using h0
    have hfit : this.rpos + buf.filled.length ≤ rbuf.length := by omega
    have hturn : turn cap (this, rbuf) =
        .again ({ this with target := d', rpos := this.rpos + buf.filled.length },
          overwrite rbuf this.rpos buf.filled) := by
      simp [turn, hempty, readStep, hne, hin, hread, h0, settle]
    rw [hturn]
    refine .filled hgives h0 ⟨h.cache, ?_, hrbuf, ?_, ?_, h.opens⟩ ?_
    · exact (got_fill this hfit d').trans (by rw [h.got])
    · simpa only [length_overwrite rbuf buf.filled hfit] using h.size
    · rwa [length_overwrite rbuf buf.filled hfit]
    · have hsize := h.size
      simp only [rounds, length_overwrite rbuf buf.filled hfit]
      cases hd : this.dinit <;>
        simp only [hd, Bool.false_eq_true, if_false, if_true] at hsize ⊢ <;> omega

theorem Holds.turn {s : Encryptor C Duplex × Bytes} (h : Holds s cache got frames ms)
    (hwire : got ++ (s.1.target.incoming ++ more) = frames.flatten) (cap : Nat) :
    Unframing (·.1.target) rounds Holds cap s cache got frames ms (turn cap s) := by
  obtain ⟨this, rbuf⟩ := s
  have hpos := h.pos
  dsimp only at hpos hwire
  by_cases hcache : cache = []
  · subst hcache
    by_cases hfull : this.rpos = rbuf.length
    · cases hd : this.dinit with
      | true => exact h.decrypt hwire hfull hd cap
      | false =>
        -- the loop goes on as if the length had been there from the start
        let this' : Encryptor C Duplex := { this with rpos := 0, dinit := true }
        have hlen : rbuf.length = 4 := by simpa [hd] using h.size
        have hinit := (h.reading hwire).init hfull hd
        have hsize : 0 < fromLeBytes rbuf ∧ fromLeBytes rbuf < 2 ^ 32 := by simpa using hinit.size
        have hgot : this'.got (.replicate (fromLeBytes rbuf) 0) = got := by
          rw [← h.got]
          simp [Encryptor.got, this', hd, hfull, toLeBytes_fromLeBytes hlen]
        have hstep : Encryptor.turn cap (this, rbuf) =
            Encryptor.turn cap (this', .replicate (fromLeBytes rbuf) 0) := by
          have hempty : this.cache.isEmpty = true := this.cache.isEmpty_iff.2 h.cache
          simp [Encryptor.turn, hempty, readStep, this', hfull, hd, hsize.1.ne]
        have hholds : Holds (this', .replicate (fromLeBytes rbuf) 0) [] got frames ms :=
          ⟨h.cache, hgot, h.rbuf, hinit.size, hinit.pos, h.opens⟩
        rw [hstep]
        refine (hholds.read hwire (by simpa [this'] using hsize.1) cap).from rfl ?_
        simp only [rounds, this', hd, if_true, Bool.false_eq_true, if_false, List.length_replicate]
        omega
    · exact h.read hwire (by omega) cap
  · have hempty : this.cache.isEmpty = false := by
      rw [Bool.eq_false_iff, Ne, this.cache.isEmpty_iff, h.cache]
      exact hcache
    have hturn : Encryptor.turn cap (this, rbuf) =
        .ready ({ this with cache := (this.cache.readToBuffer cap).2 }, rbuf)
          (.ret (.ok (cache.take cap))) := by
      simp [Encryptor.turn, hempty, h.cache]
    rw [hturn]
    exact .cached hcache rfl ⟨by simp [h.cache], h.got, h.rbuf, h.size, h.pos, h.opens⟩

/-- A `poll_read` takes messages apart. -/
def unframer (C : Cipher G) : Unframer (σ := Encryptor C Duplex × Bytes) turn where
  stream s := s.1.target
  rank := rounds
  Holds := Holds
  length_eq h := h.opens.length_eq
  turn {s} _ got frames _ h hwire cap := by
    have hwire' : got ++ (s.1.target.incoming ++ []) = frames.flatten := by rwa [List.append_nil]
    exact h.turn hwire' cap

/-! ## A whole poll -/

theorem cache_readStep {buf : ReadBuf} {s s' : Encryptor C Duplex × Bytes}
    (h : readStep buf s = .again s') : s'.1.cache = s.1.cache := by
  obtain ⟨this, rbuf⟩ := s
  simp only [readStep] at h
  split at h
  · split at h
    · cases h
    · split at h <;> cases h
  · by_cases hpos : this.rpos = rbuf.length
    all_goals
      simp only [hpos, if_true, if_false] at h
      split at h
      · cases h
      · split at h
        · cases h
        · cases h
        · split at h <;> cases h
          rfl

/-- A `poll_read` is the loop of these turns. -/
theorem poll_turn (this : Encryptor C Duplex) (cap : Nat) :
    (∀ s, poll (turn cap) (2 ^ 32 + 8) (enter this) = .pending s →
      ∃ this', pollInto this cap = (this', .pending) ∧ enter this' = s) ∧
    ∀ s e, poll (turn cap) (2 ^ 32 + 8) (enter this) = .ready s e →
      ∃ this', pollInto this cap = (this', .ready e) ∧ enter this' = s := by
  cases hc : this.cache.isEmpty with
  | false =>
    have hpoll : poll (turn cap) (2 ^ 32 + 7 + 1) (enter this) =
        .ready (enter { this with cache := (this.cache.readToBuffer cap).2 })
          (.ret (.ok (this.cache.contents.take cap))) := by
      simp [poll, turn, enter, hc]
    have hle : (this.cache.contents.take cap).length ≤ cap := List.length_take_le _ _
    have hfill : ((ReadBuf.new cap).put (this.cache.contents.take cap)).filled =
        this.cache.contents.take cap := ReadBuf.filled_put hle
    refine ⟨fun s h => ?_, fun s e h => ?_⟩
    · rw [hpoll] at h
      cases h
    · rw [hpoll] at h
      cases h
      refine ⟨{ this with cache := (this.cache.readToBuffer cap).2 }, ?_, rfl⟩
      simp only [pollInto, AsyncRead.pollRead, pollRead, hc, Bool.not_false, if_true,
        Buffer.readToBuffer_fst, ReadBuf.remaining_new, hfill, List.take_length]
  | true =>
    have hpoll : poll (turn cap) (2 ^ 32 + 8) (enter this) =
        (poll (readStep (.new cap)) (2 ^ 32 + 8) (enter this)).settle (enter ·.1) delivered := by
      refine poll_settle (I := fun s => s.1.cache.isEmpty = true) (fun s s' hs hstep => ?_)
        (fun s hs => by rw [turn, if_pos hs]) hc _
      rw [cache_readStep hstep]
      exact hs
    have hinto : AsyncRead.pollRead this (.new cap) = this.pollDecryptRead (.new cap) := by
      simp only [AsyncRead.pollRead, pollRead, hc, Bool.not_true, Bool.false_eq_true, if_false]
    rw [hpoll]
    refine ⟨fun s h => ?_, fun s e h => ?_⟩
    · cases hrun : poll (readStep (.new cap)) (2 ^ 32 + 8) (enter this) with
      | again u => rw [hrun] at h; cases h
      | ready u r => rw [hrun] at h; cases h
      | pending u =>
        rw [hrun] at h
        cases h
        refine ⟨u.1, ?_, rfl⟩
        rw [enter] at hrun
        simp only [pollInto, hinto, pollDecryptRead, hrun]
    · cases hrun : poll (readStep (.new cap)) (2 ^ 32 + 8) (enter this) with
      | again u => rw [hrun] at h; cases h
      | pending u => rw [hrun] at h; cases h
      | ready u r =>
        rw [hrun] at h
        cases h
        refine ⟨u.1, ?_, rfl⟩
        rw [enter] at hrun
        obtain ⟨buf, r⟩ := r
        cases r <;> simp only [pollInto, hinto, pollDecryptRead, hrun, delivered]

/-- The reads of an encryptor over a stream. -/
def reader (C : Cipher G) : Supply (pollInto (R := Encryptor C Duplex)) where
  Left this b := (unframer C).Left (enter this) b
  live this := this.target.Live
  answers this := this.target.reads.length
  read := by
    intro this b cap hleft
    have hrank : (unframer C).rank (enter this) < 2 ^ 32 + 8 := by
      obtain ⟨cache, got, frames, ms, h, -⟩ := hleft
      exact h.rounds_lt
    obtain ⟨hpend, hready⟩ := poll_turn this cap
    rcases Unframer.poll_cases hleft hrank cap with
      ⟨s', hs, ⟨⟨rest, rfl, hleft'⟩, hlive⟩, huses⟩ |
      ⟨s', data, hs, ⟨⟨rest, rfl, hleft'⟩, hlive⟩, hne⟩
    · obtain ⟨this', hpoll, rfl⟩ := hpend s' hs
      exact ⟨this', .inl ⟨hpoll, hleft', fun hl => ⟨(hlive hl).1, huses hl⟩⟩⟩
    · obtain ⟨this', hpoll, rfl⟩ := hready s' _ hs
      exact ⟨this', .inr ⟨data, rest, hpoll, rfl, hne, hleft', hlive⟩⟩

/-- A fresh encryptor at a stream of messages. -/
theorem left_new (hopens : List.Forall₂ C.Opens frames ms) (reads : List Answer) (rng : G) :
    (reader C).Left (new ⟨frames.flatten, reads, [], [], []⟩ rng) ms.flatten :=
  ⟨[], [], frames, ms, ⟨rfl, rfl, rfl, rfl, Nat.zero_le _, hopens⟩, rfl, rfl⟩

end Encryptor
end Fuso

import Fuso.Async.Truncate
import Fuso.Encryption.Transparent

/-!
# Encrypted streams that end inside of a message

An encryptor that meets the end of its target reads 0 bytes wherever it is in a message
(`Encryptor.endsCleanly`).
-/

namespace Fuso
open Turn

namespace Encryptor
variable {G : Type} {C : Cipher G} {cache got : Bytes}

theorem asks_turn (cap : Nat) (s : Encryptor C Duplex × Bytes) :
    Asks (·.1.target) s (turn cap s) := by
  obtain ⟨this, rbuf⟩ := s
  cases hc : this.cache.isEmpty with
  | false =>
    simp only [turn, hc]
    exact .ready
  | true =>
    simp only [turn, hc, if_true, readStep]
    split
    · split
      · exact .ready
      · split <;> exact .ready
    · by_cases hfull : this.rpos = rbuf.length
      all_goals
        simp only [hfull, if_true, if_false]
        split
        · exact .ready
        · split
          · exact .ready
          · next hread => exact .waits hread
          · next hread =>
            split
            · exact .ready
            · exact .read hread

/-- No more than one message has arrived at any time. -/
theorem Holds.length_got {s : Encryptor C Duplex × Bytes}
    (h : Holds s cache got (f :: frames) ms) (hwire : got ++ rest = (f :: frames).flatten) :
    got.length ≤ f.length := by
  obtain _ | @⟨_, m, _, ms, hf, _⟩ := h.opens
  refine hf.frame.length_le hwire fun hle => ?_
  have hgot := h.got
  have hsize := h.size
  have hpos := h.pos
  rw [Encryptor.got] at hgot
  cases hd : s.1.dinit with
  | false =>
    simp only [hd, Bool.false_eq_true, if_false, List.nil_append] at hgot hsize
    rw [← hgot, List.length_take]
    simp only [messageFormat]
    omega
  | true =>
    simp only [hd, if_true] at hgot hsize
    rw [← hgot, body_message hsize.2]
    simp only [messageFormat, List.length_append, length_toLeBytes, List.length_take]
    omega

theorem truncatable (C : Cipher G) : (unframer C).Truncatable where
  turn h hwire cap := h.turn hwire cap
  asks := asks_turn
  bound h hwire := h.length_got hwire

/-- The reads of an encryptor over a stream that ends inside of a message. -/
def shortage (C : Cipher G) : Shortage (pollInto (R := Encryptor C Duplex)) where
  Left this b := (unframer C).Cut (enter this) b ∧ this.target.Ends
  answers this := this.target.reads.length
  read := by
    intro this b cap hleft hcap
    obtain ⟨hcut, hends⟩ := hleft
    have hrank : (unframer C).rank (enter this) < 2 ^ 32 + 8 := by
      obtain ⟨cache, got, frames, ms, f, m, more, h, -⟩ := hcut
      exact h.rounds_lt
    obtain ⟨hpend, hready⟩ := poll_turn this cap
    rcases Unframer.poll_cut (truncatable C) hcut hends hcap hrank with
      ⟨s', hs, ⟨⟨rest, rfl, hcut'⟩, hends', -⟩, hans⟩ |
      ⟨s', data, hs, ⟨hdata, ⟨rest, rfl, hcut'⟩, hends', hans⟩ | ⟨rfl, hb⟩⟩
    · obtain ⟨this', hpoll, rfl⟩ := hpend s' hs
      exact ⟨this', .inl ⟨hpoll, ⟨hcut', hends'⟩, hans⟩⟩
    · obtain ⟨this', hpoll, rfl⟩ := hready s' _ hs
      exact ⟨this', .inr (.inl ⟨data, rest, hpoll, hdata, rfl, ⟨hcut', hends'⟩, hans⟩)⟩
    · obtain ⟨this', hpoll, rfl⟩ := hready s' _ hs
      exact ⟨this', .inr (.inr ⟨hpoll, hb⟩)⟩

/-- Behind the messages that are complete the end of the stream is read, as if it were theirs. -/
theorem endsCleanly (hopens : List.Forall₂ C.Opens frames ms) (hf : C.Opens f m)
    (hpart : part <+: f) (hnil : part ≠ []) (hne : part ≠ f) {reads : List Answer}
    (hreads : (frames.flatten ++ part).length < (sizes reads).length) (rng : G) :
    EndsCleanly pollInto (readEnd C (frames.flatten ++ part) reads rng) ms.flatten := by
  obtain ⟨more, rfl⟩ := hpart
  refine (shortage C).endsCleanly ⟨⟨[], [], frames, ms, part ++ more, m, more, ?_, ?_, ?_, ?_, rfl⟩,
    hreads⟩
  · exact ⟨rfl, rfl, rfl, rfl, Nat.zero_le _, List.rel_append hopens (.cons hf .nil)⟩
  · simp [unframer, enter, readEnd, new]
  · rintro rfl
    exact hne (List.append_nil part).symm
  · have := List.length_pos_iff.2 hnil
    simp only [List.length_append]
    omega

/-- A cut inside of a message is never reported. -/
theorem reports_iff (hopens : List.Forall₂ C.Opens frames ms) (hwire : wire <+: frames.flatten)
    {reads : List Answer} (hreads : wire.length < (sizes reads).length) (rng : G) :
    Reports pollInto (readEnd C wire reads rng) (AtBoundary frames wire) ↔
      AtBoundary frames wire := by
  refine reports_iff_of_endsCleanly fun hcut => ?_
  obtain ⟨n, part, hn, rfl, hpart, hnil, hne⟩ := (atBoundary_or_inside hwire).resolve_left hcut
  have hn' : n < ms.length := hopens.length_eq ▸ hn
  exact ⟨_, endsCleanly (List.forall₂_take n hopens) (hopens.get hn hn') hpart hnil hne hreads rng⟩

end Encryptor
end Fuso

import Fuso.Compress.Lz4Lossless
import Fuso.Encryption.Truncated

/-!
# Compressed streams that end inside of a frame

A compressed stream that meets the end of the one below reads 0 bytes wherever it is in a frame
(`Lz4Compress.endsCleanly`), as the encryptors do: a cut is reported by none of the three
(`truncation_reported_iff`).
-/

namespace Fuso
open Turn

namespace Lz4Compress
open Lz4
variable {E D : Type} {lib : Lz4 E D} {cache got : Bytes}

theorem asks_turnInto (cap : Nat) (m : Lz4Compress Duplex E D) :
    Asks lz4Stream m (turnInto lib cap m) := by
  simp only [turnInto, readTurn]
  split
  · exact .ready
  split
  · exact .ready
  split
  · exact .silent rfl
  split
  · simp only [sizeTurn]
    split
    · exact .ready
    · exact .silent rfl
  split
  · simp only [decodeTurn]
    split
    · exact .ready
    · split <;> exact .ready
  · simp only [fillTurn]
    split
    · exact .ready
    split
    · next hread => exact .waits hread
    · exact .ready
    · next hread =>
      split
      · exact .ready
      · exact .read hread

/-- No more than one frame has arrived at any time. -/
theorem Holds.length_got {m : Lz4Compress Duplex E D} {blocks : List Bytes}
    (h : Holds lib m cache got (f :: frames) blocks)
    (hwire : got ++ rest = (f :: frames).flatten) : got.length ≤ f.length := by
  obtain ⟨d, -, hnext⟩ := h.next
  have hf : messageFormat.Frame f := (stream_frames hnext).frame f List.mem_cons_self
  refine hf.length_le hwire fun hle => ?_
  have hgot := h.got
  have hphase := h.phase
  rw [Lz4Compress.got] at hgot
  cases hdbuf : m.lz4Dbuf with
  | none =>
    simp only [hdbuf] at hgot
    subst hgot
    exact Nat.zero_le _
  | some dbuf =>
    simp only [hdbuf] at hgot
    simp only [Phase, hdbuf] at hphase
    cases hd : m.lz4Dinit with
    | false =>
      simp only [hd, Bool.false_eq_true, if_false, List.nil_append] at hgot hphase
      rw [← hgot, List.length_take]
      simp only [messageFormat]
      omega
    | true =>
      simp only [hd, if_true] at hgot hphase
      rw [← hgot, body_message (by omega)]
      simp only [messageFormat, List.length_append, length_toLeBytes, List.length_take]
      omega

theorem truncatable (lib : Lz4 E D) : (unframer lib).Truncatable where
  turn h hwire cap := h.turn hwire cap
  asks := asks_turnInto
  bound h hwire := h.length_got hwire

/-- The reads of a compressed stream that ends inside of a frame. -/
def shortage (lib : Lz4 E D) : Shortage (pollInto lib) where
  Left m b := (unframer lib).Cut m b ∧ m.lz4Stream.Ends
  answers m := m.lz4Stream.reads.length
  read := by
    intro m b cap hleft hcap
    obtain ⟨hcut, hends⟩ := hleft
    have hrank : (unframer lib).rank m < 2048 := by
      obtain ⟨cache, got, frames, ms, f, msg, more, h, -⟩ := hcut
      exact h.phase.rank_lt
    rcases Unframer.poll_cut (truncatable lib) hcut hends hcap hrank with
      ⟨m', hs, ⟨⟨rest, rfl, hcut'⟩, hends', -⟩, hans⟩ |
      ⟨m', data, hs, ⟨hdata, ⟨rest, rfl, hcut'⟩, hends', hans⟩ | ⟨rfl, hb⟩⟩
    · exact ⟨m', .inl ⟨by simp only [pollInto, hs], ⟨hcut', hends'⟩, hans⟩⟩
    · exact ⟨m', .inr (.inl ⟨data, rest, by simp only [pollInto, hs], hdata, rfl, ⟨hcut', hends'⟩,
        hans⟩)⟩
    · exact ⟨m', .inr (.inr ⟨by simp only [pollInto, hs], hb⟩)⟩

/-- Behind the blocks that are complete the end of the stream is read, as if it were theirs. -/
theorem endsCleanly (h : DecodesNew lib (pairs ++ [pair])) (hpart : part <+: frame pair)
    (hnil : part ≠ []) (hne : part ≠ frame pair) {reads : List Answer}
    (hreads : ((pairs.map frame).flatten ++ part).length < (sizes reads).length) :
    EndsCleanly (pollInto lib) (readEnd lib ((pairs.map frame).flatten ++ part) reads)
      (pairs.map Prod.snd).flatten := by
  obtain ⟨more, hmore⟩ := hpart
  have hholds := h.holds ⟨(pairs.map frame).flatten ++ part, reads, [], [], []⟩
  rw [List.map_append, List.map_append] at hholds
  refine (shortage lib).endsCleanly ⟨⟨[], [], pairs.map frame, pairs.map Prod.snd, frame pair,
    pair.2, more, hholds, ?_, ?_, ?_, rfl⟩, hreads⟩
  · simp [unframer, readEnd, new, hmore]
  · rintro rfl
    exact hne (by rwa [List.append_nil] at hmore)
  · have := List.length_pos_iff.2 hnil
    rw [← hmore, List.length_append]
    omega

/-- A cut inside of a frame is never reported. -/
theorem reports_iff (h : DecodesNew lib pairs) (hwire : wire <+: (pairs.map frame).flatten)
    {reads : List Answer} (hreads : wire.length < (sizes reads).length) :
    Reports (pollInto lib) (readEnd lib wire reads) (AtBoundary (pairs.map frame) wire) ↔
      AtBoundary (pairs.map frame) wire := by
  refine reports_iff_of_endsCleanly fun hcut => ?_
  obtain ⟨n, part, hn, rfl, hpart, hnil, hne⟩ := (atBoundary_or_inside hwire).resolve_left hcut
  rw [List.length_map] at hn
  rw [List.getElem_map] at hpart hne
  rw [← List.map_take] at hreads ⊢
  have htake : pairs.take n ++ [pairs[n]] ++ pairs.drop (n + 1) = pairs := by
    rw [List.take_concat_get', List.take_append_drop]
  rw [← htake] at h
  exact ⟨_, endsCleanly h.of_append hpart hnil hne hreads⟩

end Lz4Compress

/-- Wherever a stream of frames is cut, however it is fragmented behind that and whatever the
buffers are, the readers report the cut if and only if there is none to report. -/
theorem truncation_reported_iff (aes : AesCrate) (iv key : Bytes) (rsa : RsaCrate Publ Priv G)
    (publ : Publ) (priv : Priv) (rng : G) (lib : Lz4 E D) :
    (∀ frames ms wire reads, List.Forall₂ (aesCipher aes iv key).Opens frames ms →
      wire <+: frames.flatten → wire.length < (sizes reads).length →
      (Reports pollInto (readEnd (aesCipher aes iv key) wire reads ()) (AtBoundary frames wire) ↔
        AtBoundary frames wire)) ∧
    (∀ frames ms wire reads, List.Forall₂ (rsaCipher rsa publ priv).Opens frames ms →
      wire <+: frames.flatten → wire.length < (sizes reads).length →
      (Reports pollInto (readEnd (rsaCipher rsa publ priv) wire reads rng)
          (AtBoundary frames wire) ↔ AtBoundary frames wire)) ∧
    ∀ pairs wire reads, Lz4Compress.DecodesNew lib pairs →
      wire <+: (pairs.map Lz4.frame).flatten → wire.length < (sizes reads).length →
      (Reports (Lz4Compress.pollInto lib) (Lz4Compress.readEnd lib wire reads)
          (AtBoundary (pairs.map Lz4.frame) wire) ↔ AtBoundary (pairs.map Lz4.frame) wire) := by
  refine ⟨?_, ?_, ?_⟩
  · intro frames ms wire reads hopens hwire hreads
    exact Encryptor.reports_iff hopens hwire hreads ()
  · intro frames ms wire reads hopens hwire hreads
    exact Encryptor.reports_iff hopens hwire hreads rng
  · intro pairs wire reads hdecodes hwire hreads
    exact Lz4Compress.reports_iff hdecodes hwire hreads

/-- A message that is complete. -/
theorem truncation_reported_whole : ∃ f, (aesCipher paddingAes [] []).Opens f [1, 2, 3] ∧
    ∀ reads, f.length < (sizes reads).length →
      Reports pollInto (readEnd (aesCipher paddingAes [] []) f reads ()) (AtBoundary [f] f) := by
  have hne : ([1, 2, 3] : Bytes) ≠ [] := List.cons_ne_nil _ _
  obtain ⟨f, -, hf, -⟩ := (pkcs7_paddingAes [] []).message hne (by simp)
  refine ⟨f, hf, fun reads hreads => ?_⟩
  have hf' : [f].flatten = f := List.flatten_singleton
  refine ((truncation_reported_iff paddingAes [] [] paddingRsa1024 () () ()
    Lz4Compress.stored).1 [f] [[1, 2, 3]] f reads (.cons hf .nil) ?_ hreads).2
    ⟨1, hf'.symm⟩
  rw [hf']

/-- A message of which one byte has arrived. -/
theorem not_truncation_reported : ¬ ∀ frames ms wire reads,
    List.Forall₂ (aesCipher paddingAes [] []).Opens frames ms → wire <+: frames.flatten →
    wire.length < (sizes reads).length →
    Reports pollInto (readEnd (aesCipher paddingAes [] []) wire reads ())
      (AtBoundary frames wire) := by
  intro h
  have hne : ([1, 2, 3] : Bytes) ≠ [] := List.cons_ne_nil _ _
  obtain ⟨f, -, hf, hlen⟩ := (pkcs7_paddingAes [] []).message hne (by simp)
  have hwire : f.take 1 <+: [f].flatten := by
    rw [List.flatten_singleton]
    exact List.take_prefix 1 f
  have hone : (f.take 1).length = 1 := by
    rw [List.length_take, hlen]
    rfl
  have hreads : (f.take 1).length < (sizes (.replicate 2 (.upTo 0))).length := by
    rw [hone]
    decide
  have hopens : List.Forall₂ (aesCipher paddingAes [] []).Opens [f] [[1, 2, 3]] := .cons hf .nil
  obtain ⟨n, hn⟩ := (Encryptor.reports_iff hopens hwire hreads ()).1 (h _ _ _ _ hopens hwire hreads)
  have hsize := congrArg List.length hn
  rw [hone] at hsize
  cases n with
  | zero => simp at hsize
  | succ n => simp [hlen, aesMessageLen] at hsize

end Fuso

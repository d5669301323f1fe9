import Fuso.Async.Outlet
import Fuso.Compress.Layer

/-!
# The two ends of a compressed stream

A compressed stream is an outlet that takes whole buffers (`Lz4Stream.outlet`), beside the source
that it is (`Lz4Stream.exchanges`). As long as what was taken is in a row in the rings of both ends,
which have room for 2028 bytes, what has arrived of its bytes makes the stream at the other end a
source of the beginning of what was taken, and of all of it when all has arrived
(`Lz4Stream.left_prefix`, `Lz4Stream.left_new`).
-/

namespace Fuso
open Turn Lz4

/-! ## Writing -/

namespace Lz4Compress
variable {E D : Type} {lib : Lz4 E D} {e₀ : E} {d₀ : D} {m m' : Lz4Compress Duplex E D}
  {done buf : Bytes} {rest : Nat} {L : Prop}

/-- How many turns of a poll are left at most. -/
def load (buf : Bytes) (m : Lz4Compress Duplex E D) : Nat :=
  m.unsent.length + 1050 * (buf.length - m.lz4CompressedOffset)

/-- A turn that is not the last one does a part of the work, or it waits. -/
theorem Writing.load_of_goes (h : Writing lib e₀ done buf rest L m) (hlib : Coder lib e₀ d₀)
    (hle : m.unsent.length ≤ 1048) (hgoes : Goes (·.writeTurn lib buf) m m') :
    m'.unsent.length ≤ 1048 ∧ (m.writeTurn lib buf = .again m' → load buf m' < load buf m) := by
  cases hebuf : m.lz4Ebuf with
  | none =>
    obtain ⟨hw, hlt⟩ := h.of_none hebuf
    obtain ⟨e, e', compressed, data, hins, hcall, ⟨hpos, hbound⟩, -⟩ :=
      h.encoding.compress hlib hebuf hw hlt
    have hlen := compressLen_eq h.encoding.max buf
    obtain rfl := hgoes.unique (.inl (writeTurn_encode hins hebuf hlt hcall hpos))
    simp only [load, unsent, hw, hebuf, List.drop_zero, List.length_append, length_toLeBytes,
      List.length_nil]
    omega
  | some ebuf =>
    obtain ⟨pairs, e, hblocks⟩ := h.encoding.blocks
    have hins := hblocks.ins
    have hlt := h.of_some ebuf hebuf
    have hguard : ¬ ebuf.length < m.lz4Woffset := by omega
    have hunsent : m.unsent.length = ebuf.length - m.lz4Woffset := by
      rw [unsent, hebuf, List.length_drop]
    have hturn : m.writeTurn lib buf = m.flushTurn ebuf buf := by
      simp only [writeTurn, hins, hebuf]
    obtain ⟨d', ⟨hwrite, -, -⟩ | ⟨k, hk, hkle, hwrite, -, -⟩⟩ :=
      m.lz4Stream.pollWrite_takes (ebuf.drop m.lz4Woffset) (by simpa using hlt)
    · have hflush : m.writeTurn lib buf = .pending { m with lz4Stream := d' } := by
        simp only [hturn, flushTurn, if_neg hguard, hwrite]
      obtain rfl := hgoes.unique (.inr hflush)
      refine ⟨hle, fun hagain => ?_⟩
      rw [hflush] at hagain
      cases hagain
    · rw [List.length_drop] at hkle
      simp only [Goes, hturn, flushTurn, if_neg hguard, hwrite, Nat.ne_of_gt hk, if_false]
        at hgoes ⊢
      split at hgoes
      · rcases hgoes with hgoes | hgoes <;> cases hgoes
      split at hgoes
      · rcases hgoes with hgoes | hgoes <;> cases hgoes
        simp only [load, unsent, hebuf, List.length_nil, List.length_drop] at hle ⊢
        omega
      · rcases hgoes with hgoes | hgoes <;> cases hgoes
        simp only [load, unsent, hebuf, List.length_drop] at hle ⊢
        omega

end Lz4Compress

namespace Lz4Stream
variable {E D : Type} {lib : Lz4 E D} {e₀ : E} {d₀ : D} {this : Lz4Stream lib Duplex}
  {b buf : Bytes} {L : Prop} {n : Nat}

/-- A buffer is being written. -/
structure Sending (lib : Lz4 E D) (e₀ : E) (b buf : Bytes) (L : Prop) (n : Nat)
    (this : Lz4Stream lib Duplex) : Prop where
  writing : Lz4Compress.Writing lib e₀ b buf n L this.lz4
  le : this.lz4.unsent.length ≤ 1048

/-- A poll waits or has taken the whole buffer. -/
theorem Sending.poll (h : Sending lib e₀ b buf L n this) (hlib : Coder lib e₀ d₀) :
    ∃ this' : Lz4Stream lib Duplex,
      (AsyncWrite.pollWrite this buf = (this', .pending) ∧ Sending lib e₀ b buf L n this' ∧
        (L → this'.lz4.turns buf < this.lz4.turns buf)) ∨
      (AsyncWrite.pollWrite this buf = (this', .ready (.ok buf.length)) ∧
        Lz4Compress.Idle lib e₀ (b ++ buf) this'.lz4 ∧ (L → this'.lz4.lz4Stream.Roomy n)) := by
  have hpoll := poll_post (fun m : Lz4Compress Duplex E D => m.writeTurn lib buf) (s := this.lz4)
    (n := 1050 * (buf.length + 1))
    (I := fun m => Sending lib e₀ b buf L n ⟨m⟩ ∧ (L → m.turns buf ≤ this.lz4.turns buf))
    (P := fun m => Sending lib e₀ b buf L n ⟨m⟩ ∧ (L → m.turns buf < this.lz4.turns buf))
    (Q := fun m r => r = .ret (.ok buf.length) ∧ Lz4Compress.Idle lib e₀ (b ++ buf) m ∧
      (L → m.lz4Stream.Roomy n))
    (fun m => m.load buf) ?_ ⟨h, fun _ => Nat.le_refl _⟩ ?_
  · simp only [AsyncWrite.pollWrite, pollWrite]
    rcases hpoll with ⟨m', hs, hP⟩ | ⟨m', r, hs, rfl, hidle, hroom⟩
    · exact ⟨⟨m'⟩, .inl ⟨by rw [hs], hP⟩⟩
    · exact ⟨⟨m'⟩, .inr ⟨by rw [hs], hidle, hroom⟩⟩
  · rintro m ⟨⟨hwriting, hle⟩, hturns⟩
    rcases hwriting.turn hlib with ⟨m', hgoes, hm', hlt⟩ | ⟨m', hturn, hidle, hroom⟩
    · obtain ⟨hle', hload⟩ := hwriting.load_of_goes hlib hle hgoes
      have hturns' : L → m'.turns buf < this.lz4.turns buf := fun hL =>
        Nat.lt_of_lt_of_le (hlt hL) (hturns hL)
      rcases hgoes with hgoes | hgoes
      · exact .inl ⟨m', hgoes, ⟨⟨hm', hle'⟩, fun hL => Nat.le_of_lt (hturns' hL)⟩, hload hgoes⟩
      · exact .inr (.inl ⟨m', hgoes, ⟨hm', hle'⟩, hturns'⟩)
    · exact .inr (.inr ⟨m', _, hturn, rfl, hidle, hroom⟩)
  · have hle := h.le
    simp only [Lz4Compress.load]
    omega

/-- Every buffer is taken as a whole, and there is room for its blocks. -/
def outlet (hlib : Coder lib e₀ d₀) : Outlet (Lz4Stream lib Duplex) where
  fits _ := True
  cost len := 1048 * Lz4Compress.blockCount len
  Room n this := this.lz4.lz4Stream.Roomy n
  Sent bs this := Lz4Compress.Idle lib e₀ bs.flatten this.lz4
  Sending bs := Sending lib e₀ bs.flatten
  turns buf this := this.lz4.turns buf
  start h _ hne hroom := ⟨h.writing hne hroom, by
    rw [Lz4Compress.unsent, h.ebuf]
    exact Nat.zero_le _⟩
  poll h := by
    rw [List.flatten_append, List.flatten_singleton]
    exact h.poll hlib

end Lz4Stream

/-! ## Both -/

namespace Lz4Compress
variable {E D : Type} {lib : Lz4 E D} {e₀ : E} {m r : Lz4Compress Duplex E D} {cache got : Bytes}

theorem Encoding.withReads (h : Encoding lib e₀ total m) (r : Lz4Compress Duplex E D) :
    Encoding lib e₀ total (m.withReads r) :=
  ⟨h.blocks.imp fun _ => Exists.imp fun _ h => ⟨h.ins, h.compresses, h.row, h.total, h.sent⟩, h.max,
    h.ring, h.offset, h.row⟩

theorem Idle.withReads (h : Idle lib e₀ total m) (r : Lz4Compress Duplex E D) :
    Idle lib e₀ total (m.withReads r) :=
  ⟨h.encoding.withReads r, h.ebuf, h.woffset, h.compressed⟩

theorem Writing.withReads (h : Writing lib e₀ done buf rest L m) (r : Lz4Compress Duplex E D) :
    Writing lib e₀ done buf rest L (m.withReads r) :=
  ⟨h.encoding.withReads r, h.le, h.of_some, h.of_none, h.room⟩

theorem Holds.withReads (h : Holds lib r cache got frames blocks) (m : Lz4Compress Duplex E D) :
    Holds lib { m.withReads r with lz4CompressMaxBytes := r.lz4CompressMaxBytes } cache got frames
      blocks :=
  ⟨h.cache, h.got, h.phase, h.next, h.max⟩

theorem rest_withReads (h : (unframer lib).Rest r b) (m : Lz4Compress Duplex E D) :
    (unframer lib).Rest
      { m.withReads r with lz4CompressMaxBytes := r.lz4CompressMaxBytes } b := by
  rcases h with ⟨cache, got, frames, ms, hholds, h⟩ |
    ⟨cache, got, frames, ms, f, msg, more, hholds, h⟩
  · exact .inl ⟨cache, got, frames, ms, hholds.withReads m, h⟩
  · exact .inr ⟨cache, got, frames, ms, f, msg, more, hholds.withReads m, h⟩

end Lz4Compress

namespace Lz4Stream
variable {E D : Type} {lib : Lz4 E D} {e₀ : E} {d₀ : D}

theorem exchanges (hlib : Coder lib e₀ d₀) : Exchanges (source lib) (outlet hlib) where
  sent_read {_ this buf} h := by
    simp only [outlet] at h ⊢
    rw [this.state_pollRead buf]
    exact h.withReads _
  sending_read {_ _ _ _ this buf} h := by
    have hle : (AsyncRead.pollRead this buf).1.lz4.unsent.length ≤ 1048 := by
      rw [this.state_pollRead buf]
      exact h.le
    refine ⟨?_, hle⟩
    rw [this.state_pollRead buf]
    exact h.writing.withReads _
  room_read {_ this buf} h := by
    simp only [outlet] at h ⊢
    rw [this.state_pollRead buf]
    exact h
  left_write {this _ buf} h := by
    simp only [source] at h ⊢
    rw [this.state_pollWrite buf]
    exact Lz4Compress.rest_withReads h _
  live_write {this buf} h := by
    simp only [source] at h ⊢
    rw [this.state_pollWrite buf]
    exact h

end Lz4Stream
/-! ## From one end to the other -/

namespace Lz4Compress
variable {E D : Type} {lib : Lz4 E D} {pairs : List (Bytes × Bytes)} {d : Duplex}

/-- All the frames have arrived. -/
theorem rest_all (h : DecodesNew lib pairs) (hwire : d.incoming = (pairs.map frame).flatten) :
    (unframer lib).Rest (new lib d) (pairs.map Prod.snd).flatten :=
  .inl ⟨[], [], pairs.map frame, pairs.map Prod.snd, h.holds d, hwire, rfl⟩

/-- The beginning of the last frame has arrived. -/
theorem rest_inside (h : DecodesNew lib (pairs ++ [pair])) {part more : Bytes}
    (hwire : d.incoming = (pairs.map frame).flatten ++ part) (hframe : part ++ more = frame pair)
    (hpart : part ≠ []) (hmore : more ≠ []) :
    (unframer lib).Rest (new lib d) (pairs.map Prod.snd).flatten := by
  have hholds := h.holds d
  rw [List.map_append, List.map_append] at hholds
  refine .inr ⟨[], [], pairs.map frame, pairs.map Prod.snd, frame pair, pair.2, more, hholds, ?_,
    hmore, ?_, rfl⟩
  · simp only [unframer, new, hwire, List.nil_append, List.append_assoc, hframe,
      List.flatten_append, List.flatten_singleton]
  · have := List.length_pos_iff.2 hpart
    rw [← hframe, List.length_append]
    omega

/-- A part of the frames has arrived. -/
theorem rest_prefix (h : DecodesNew lib pairs) (hwire : d.incoming <+: (pairs.map frame).flatten) :
    ∃ b, b <+: (pairs.map Prod.snd).flatten ∧ (unframer lib).Rest (new lib d) b := by
  have hsplit : ∀ n, ((pairs.take n).map Prod.snd).flatten <+: (pairs.map Prod.snd).flatten :=
    fun n => ((List.take_prefix n pairs).map Prod.snd).flatten
  rcases atBoundary_or_inside hwire with ⟨n, hn⟩ | ⟨n, part, hn, heq, ⟨more, hmore⟩, hnil, hne⟩
  · rw [← List.map_take] at hn
    have htake : pairs.take n ++ pairs.drop n = pairs := List.take_append_drop n pairs
    rw [← htake] at h
    exact ⟨_, hsplit n, rest_all h.of_append hn⟩
  · rw [List.length_map] at hn
    rw [List.getElem_map] at hmore hne
    rw [← List.map_take] at heq
    have htake : pairs.take n ++ [pairs[n]] ++ pairs.drop (n + 1) = pairs := by
      rw [List.take_concat_get', List.take_append_drop]
    rw [← htake] at h
    refine ⟨_, hsplit n, rest_inside h.of_append heq hmore hnil ?_⟩
    rintro rfl
    exact hne (by rwa [List.append_nil] at hmore)

end Lz4Compress

namespace Lz4Stream
variable {E D : Type} {lib : Lz4 E D} {e₀ : E} {d₀ : D} {this : Lz4Stream lib Duplex}
  {bs : List Bytes} {d : Duplex}

theorem sent_new (hlib : Coder lib e₀ d₀) (hs : d.sent = []) :
    (outlet hlib).Sent [] (new lib d) :=
  Lz4Compress.idle_new hlib hs

/-- What is read at one end is what was taken at the other one, when all has arrived. -/
theorem left_new (hlib : RowCodec lib e₀ d₀) (h : (outlet hlib.toCoder).Sent bs this)
    (hle : bs.flatten.length ≤ 2028) (hwire : d.incoming = this.lz4.lz4Stream.sent) :
    (source lib).Left (new lib d) bs.flatten := by
  obtain ⟨pairs, e, -, -, hrow, htotal, hsent⟩ := h.encoding.blocks
  rw [Lz4Compress.unsent, h.ebuf, List.append_nil] at hsent
  have hdecodes := Lz4Compress.decodesNew_row hlib (hrow (by omega)) (htotal ▸ hle)
  rw [← htotal]
  exact Lz4Compress.rest_all hdecodes (hwire.trans hsent)

/-- It is the beginning of that, when not all has. -/
theorem left_prefix (hlib : RowCodec lib e₀ d₀) (h : (outlet hlib.toCoder).Took bs this)
    (hle : bs.flatten.length ≤ 2028) (hwire : d.incoming <+: this.lz4.lz4Stream.sent) :
    ∃ b, b <+: bs.flatten ∧ (source lib).Left (new lib d) b := by
  obtain ⟨total, hprefix, hencoding⟩ : ∃ total, total <+: bs.flatten ∧
      Lz4Compress.Encoding lib e₀ total this.lz4 := by
    rcases h with h | ⟨bs', buf, L, n, rfl, h⟩
    · exact ⟨bs.flatten, List.prefix_rfl, h.encoding⟩
    · rw [List.flatten_append, List.flatten_singleton]
      exact ⟨_, List.prefix_append_right_inj _ |>.2 (List.take_prefix _ _), h.writing.encoding⟩
  have hle' := Nat.le_trans hprefix.length_le hle
  obtain ⟨pairs, e, -, -, hrow, htotal, hsent⟩ := hencoding.blocks
  have hdecodes := Lz4Compress.decodesNew_row hlib (hrow (by omega)) (htotal ▸ hle')
  obtain ⟨b, hb, hrest⟩ := Lz4Compress.rest_prefix hdecodes
    (hwire.trans (hsent ▸ List.prefix_append _ _))
  exact ⟨b, hb.trans (htotal ▸ hprefix), hrest⟩

end Lz4Stream
end Fuso

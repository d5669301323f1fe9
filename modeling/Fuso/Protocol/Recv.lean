import Fuso.Async.Source
import Fuso.Protocol.Packet

/-!
# What `recv_packet` receives

`RecvPacket` over any source: it is ready with a packet exactly when the bytes left begin with the
encoding of one, takes these bytes and no other (`recv_ok`, `recv_sound`), and does not wait for
ever when there are answers enough (`exists_recv`). A peer that calls `recv_packet` again and again
therefore gets the packets its stream is made of (`decodes_of_stream`).
-/

namespace Fuso
open Turn

namespace RecvPacket

/-- The bytes of the packet that have arrived. -/
def got (this : RecvPacket) : Bytes :=
  match this.state with
  | .none | .head => this.buf.take this.offset
  | .body => MAGIC ++ toLeBytes this.buf.length ++ this.buf.take this.offset

def Valid (this : RecvPacket) : Prop :=
  match this.state with
  | .none => this.buf = [] ∧ this.offset = 0 ∨ this.buf.length = headSize ∧ this.offset ≤ headSize
  | .head => this.buf.length = headSize ∧ this.offset = headSize
  | .body => 0 < this.buf.length ∧ this.buf.length < 2 ^ 32 ∧ this.offset ≤ this.buf.length

theorem valid_new : new.Valid := .inl ⟨rfl, rfl⟩

/-- What has arrived of a packet whose end is missing is no packet. -/
theorem open_got {this : RecvPacket} (h : this.Valid) (hlt : this.offset < this.buf.length) :
    packetFormat.Open this.got := by
  refine Format.open_of_short fun hle => ?_
  obtain ⟨buf, state, offset⟩ := this
  cases state with
  | none =>
    have := h.resolve_left (by rintro ⟨rfl, rfl⟩; exact absurd hlt (Nat.lt_irrefl 0))
    simp only [got, packetFormat, List.length_take] at *
    omega
  | head =>
    obtain ⟨hlen, hoff⟩ := h
    dsimp only at *
    omega
  | body =>
    have hhead : (got ⟨buf, .body, offset⟩).take headSize = MAGIC ++ toLeBytes buf.length :=
      List.take_left' rfl
    have hbody : packetFormat.body (MAGIC ++ toLeBytes buf.length) = buf.length :=
      fromLeBytes_toLeBytes h.2.1
    rw [show packetFormat.head = headSize from rfl, hhead, hbody]
    simp only [got, MAGIC, headSize, List.length_append, List.length_take, length_toLeBytes,
      List.length_cons, List.length_nil]
    dsimp only at hlt
    omega

/-- A header that begins with the magic is determined by its length. -/
theorem head_eq {buf : Bytes} (hlen : buf.length = headSize) (hmagic : buf.take 4 = MAGIC) :
    buf = MAGIC ++ toLeBytes (fromLeBytes (buf.drop 4)) := by
  have hdrop : (buf.drop 4).length = 4 := by rw [List.length_drop, hlen]; decide
  rw [toLeBytes_fromLeBytes hdrop, ← hmagic, List.take_append_drop]

theorem look_head {buf : Bytes} (hlen : buf.length = headSize) (hmagic : buf.take 4 = MAGIC) :
    look ⟨buf, .head, headSize⟩ =
      if fromLeBytes (buf.drop 4) = 0 then .break (.ok emptyPacket)
      else .read ⟨.replicate (fromLeBytes (buf.drop 4)) 0, .body, 0⟩ := by
  have hdrop : (buf.drop 4).take 4 = buf.drop 4 :=
    List.take_of_length_le (by rw [List.length_drop, hlen]; decide)
  simp [look, hlen, hmagic, goodPacket, hdrop]

/-- A packet begins with the magic. -/
theorem take_magic {p : Packet} {buf : Bytes} (hlen : buf.length = headSize) (hp : p.WellFormed)
    (h : buf ++ b = p.encode ++ b') : buf.take 4 = MAGIC := by
  have := congrArg (List.take 4) h
  rw [List.take_append_of_le_length (by rw [hlen]; decide), hp.encode_eq, List.append_assoc,
    List.append_assoc] at this
  exact this

/-- What the match on the state does: the bytes that have arrived stay, and a packet that is there
is all of them. -/
theorem look_cases {this : RecvPacket} (h : this.Valid) :
    (∃ this', this.look = .continue this' ∧ this'.Valid ∧ this'.got = this.got ∧
      this.state = .none ∧ this'.state ≠ .none) ∨
    (∃ p : Packet, this.look = .break (.ok p) ∧ p.WellFormed ∧ this.got = p.encode) ∨
    (∃ e, this.look = .break (.error e) ∧
      ∀ (p : Packet) (b b' : Bytes), p.WellFormed → this.got ++ b ≠ p.encode ++ b') ∨
    (∃ this', this.look = .read this' ∧ this'.Valid ∧ this'.got = this.got ∧
      this'.offset < this'.buf.length ∧ (this'.state = .none → this.state = .none)) := by
  obtain ⟨buf, state, offset⟩ := this
  cases state with
  | none =>
    by_cases hoff : offset = headSize
    · have hlen : buf.length = headSize := by
        rcases h with ⟨-, h0⟩ | ⟨hlen, -⟩
        · exact absurd (hoff.symm.trans h0) (by decide)
        · exact hlen
      exact .inl ⟨⟨buf, .head, offset⟩, by simp [look, hoff], ⟨hlen, hoff⟩, rfl, rfl, by simp⟩
    · refine .inr (.inr (.inr ?_))
      rcases h with ⟨hbuf, h0⟩ | ⟨hlen, hle⟩
      · obtain rfl : buf = [] := hbuf
        obtain rfl : offset = 0 := h0
        exact ⟨⟨.replicate headSize 0, .none, 0⟩, by simp [look, hoff], .inr ⟨by simp, by simp⟩,
          by simp [got], by simp [headSize], id⟩
      · dsimp only at hlen hle
        have hne : buf.isEmpty = false := by cases buf <;> simp_all [headSize]
        exact ⟨⟨buf, .none, offset⟩, by simp [look, hoff, hne], .inr ⟨hlen, hle⟩, rfl,
          by dsimp only; omega, id⟩
  | head =>
    obtain ⟨hlen, hoff⟩ := h
    dsimp only at hlen hoff
    subst hoff
    have htake : buf.take headSize = buf := List.take_of_length_le (Nat.le_of_eq hlen)
    by_cases hmagic : buf.take 4 = MAGIC
    · have hbuf := head_eq hlen hmagic
      have hlook := look_head hlen hmagic
      by_cases h0 : fromLeBytes (buf.drop 4) = 0
      · refine .inr (.inl ⟨emptyPacket, by rw [hlook, if_pos h0], ?_, ?_⟩)
        · rw [emptyPacket_eq]
          exact wellFormed_makePacket (by simp)
        · rw [emptyPacket_eq, encode_makePacket (by simp)]
          simp only [got, htake]
          rw [hbuf, h0]
          simp
      · refine .inr (.inr (.inr ⟨⟨.replicate (fromLeBytes (buf.drop 4)) 0, .body, 0⟩,
          by rw [hlook, if_neg h0], ?_, ?_, ?_, by simp⟩))
        · have hlt := fromLeBytes_lt (buf.drop 4)
          rw [List.length_drop, hlen, headSize] at hlt
          simp only [Valid, List.length_replicate]
          omega
        · simp only [got, htake, List.length_replicate, List.take_zero, List.append_nil]
          exact hbuf.symm
        · simp only [List.length_replicate]
          omega
    · refine .inr (.inr (.inl ⟨.packet (buf.take 4), ?_, fun p b b' hp heq => hmagic ?_⟩))
      · simp [look, hlen, hmagic, goodPacket]
      · simp only [got, htake] at heq
        exact take_magic hlen hp heq
  | body =>
    obtain ⟨hpos, hlt, hle⟩ := h
    dsimp only at hpos hlt hle
    by_cases hoff : offset = buf.length
    · refine .inr (.inl ⟨makePacket buf, by simp [look, hoff], wellFormed_makePacket hlt, ?_⟩)
      simp only [got, hoff, List.take_length, encode_makePacket hlt]
    · exact .inr (.inr (.inr ⟨⟨buf, .body, offset⟩, by simp [look, hoff], ⟨hpos, hlt, hle⟩, rfl,
        by dsimp only; omega, by simp⟩))

/-- The receiver behind a read. -/
def fill (this : RecvPacket) (data : Bytes) : RecvPacket :=
  { this with buf := overwrite this.buf this.offset data, offset := this.offset + data.length }

theorem fill_spec {this : RecvPacket} {data : Bytes} (h : this.Valid)
    (hlt : this.offset < this.buf.length) (hle : data.length ≤ this.buf.length - this.offset) :
    (this.fill data).Valid ∧ (this.fill data).got = this.got ++ data := by
  have hfit : this.offset + data.length ≤ this.buf.length := by omega
  have hlen := length_overwrite this.buf data hfit
  have htake := take_overwrite this.buf data hfit
  obtain ⟨buf, state, offset⟩ := this
  dsimp only at *
  cases state with
  | none =>
    have := h.resolve_left (by rintro ⟨rfl, rfl⟩; exact absurd hlt (Nat.lt_irrefl 0))
    exact ⟨.inr ⟨hlen.trans this.1, by dsimp only [fill] at *; omega⟩, htake⟩
  | head =>
    obtain ⟨hbuf, hoff⟩ := h
    dsimp only at hbuf hoff
    omega
  | body =>
    obtain ⟨hpos, hshort, -⟩ := h
    refine ⟨⟨by rwa [fill, hlen], by rwa [fill, hlen], by rw [fill, hlen]; exact hfit⟩, ?_⟩
    simp only [got, fill, hlen, htake, List.append_assoc]

section
variable [AsyncRead R] (S : Source R)

/-- What has arrived and what is left are `total`. While `L` holds there are answers enough. -/
structure Reads (total : Bytes) (L : Prop) (s : RecvPacket × R) : Prop where
  valid : s.1.Valid
  left : ∃ b, S.Left s.2 b ∧ total = s.1.got ++ b
  live : L → S.live s.2

/-- The outcome of a `recv_packet` of which `total` was left. -/
def Received (total : Bytes) (L : Prop) (reader : R) : Result Packet → Prop
  | .ok p => p.WellFormed ∧ (∃ b, S.Left reader b ∧ total = p.encode ++ b) ∧ (L → S.live reader)
  | .error _ => ∀ (p : Packet) (b : Bytes), p.WellFormed → total ≠ p.encode ++ b

/-- How many turns are left. -/
def turns (total : Bytes) (s : RecvPacket × R) : Nat :=
  S.answers s.2 + (total.length - s.1.got.length) + if s.1.state = .none then 1 else 0

variable {S} {total : Bytes} {L : Prop} {s : RecvPacket × R} {r : R} {p : Packet}

/-- A turn keeps what has arrived and what is left. Where a packet is to come it also brings the end
nearer. -/
theorem step_reads (h : Reads S total L s) :
    (∃ s', Goes step s s' ∧ Reads S total L s' ∧
      (L → ∀ (p : Packet) (b : Bytes), p.WellFormed → total = p.encode ++ b →
        turns S total s' < turns S total s)) ∨
    ∃ s' r, step s = .ready s' r ∧ Received S total L s'.2 r := by
  obtain ⟨this, reader⟩ := s
  obtain ⟨hvalid, ⟨b, hleft, rfl⟩, hlive⟩ := h
  dsimp only at *
  rcases look_cases hvalid with ⟨this', hlook, hvalid', hgot, hnone, hsome⟩ |
    ⟨p, hlook, hp, hgot⟩ | ⟨e, hlook, hno⟩ | ⟨this', hlook, hvalid', hgot, hlt, hstate⟩
  · refine .inl ⟨(this', reader), .inl (by simp only [step, hlook]),
      ⟨hvalid', ⟨b, hleft, by rw [hgot]⟩, hlive⟩, fun _ _ _ _ _ => ?_⟩
    simp [turns, hgot, hnone, hsome]
  · exact .inr ⟨(this, reader), .ok p, by simp only [step, hlook], hp, ⟨b, hleft, by rw [hgot]⟩,
      hlive⟩
  · exact .inr ⟨(this, reader), .error e, by simp only [step, hlook],
      fun p b' hp => hno p b b' hp⟩
  · have hopen := open_got hvalid' hlt
    rw [hgot] at hopen
    -- without a byte left the packet cannot be completed
    have hmore : ∀ (p : Packet) (b' : Bytes), p.WellFormed → this.got ++ b = p.encode ++ b' →
        b ≠ [] := by
      rintro p b' hp heq rfl
      exact hopen _ hp.frame ⟨b', by simpa using heq.symm⟩
    have hphase : (if this'.state = .none then 1 else 0) ≤ if this.state = .none then 1 else 0 := by
      by_cases h : this'.state = .none
      · rw [if_pos h, if_pos (hstate h)]
      · rw [if_neg h]
        exact Nat.zero_le _
    obtain ⟨reader', buf, ⟨hread, hleft', hans⟩ | ⟨hread, hne, hcap, rest, rfl, hleft', hans⟩ |
      ⟨rfl, hend⟩⟩ := S.read reader b (this'.buf.length - this'.offset) hleft (by omega)
    · refine .inl ⟨(this', reader'), .inr (by simp only [step, hlook, hread]), ⟨hvalid',
        ⟨b, hleft', by rw [hgot]⟩, fun hL => (hans (hlive hL)).1⟩, fun hL p b' hp heq => ?_⟩
      have := (hans (hlive hL)).2 (hmore p b' hp heq)
      simp only [turns, hgot]
      omega
    · obtain ⟨hfill, hgot'⟩ := fill_spec hvalid' hlt hcap
      have hpos := List.length_pos_iff.2 hne
      refine .inl ⟨(this'.fill buf.filled, reader'), .inl ?_, ⟨hfill,
        ⟨rest, hleft', by rw [hgot', hgot, List.append_assoc]⟩, fun hL => (hans (hlive hL)).1⟩,
        fun hL p b' hp heq => ?_⟩
      · simp only [step, hlook, hread, if_neg (Nat.ne_of_gt hpos)]
        rfl
      · have := (hans (hlive hL)).2
        have hst : (this'.fill buf.filled).state = this'.state := rfl
        simp only [turns, hgot', hgot, hst, List.length_append]
        omega
    · have hno : ∀ (p : Packet) (b' : Bytes), p.WellFormed → this.got ++ [] ≠ p.encode ++ b' :=
        fun p b' hp heq => hmore p b' hp heq rfl
      rcases hend with hread | ⟨e, hread⟩
      · exact .inr ⟨(this', reader'), .error (.io .connectionReset),
          by simp only [step, hlook, hread, if_true], hno⟩
      · exact .inr ⟨(this', reader'), .error e, by simp only [step, hlook, hread], hno⟩

theorem reads_new (h : S.Left r total) (hL : L → S.live r) : Reads S total L (new, r) :=
  ⟨valid_new, ⟨total, h, rfl⟩, hL⟩

theorem received (h : S.Left r total) (hL : L → S.live r) (H : Drives step (new, r) s res) :
    Received S total L s.2 res := by
  refine H.post (I := Reads S total L) (Q := fun s res => Received S total L s.2 res)
    (fun s hs => ?_) (reads_new h hL)
  rcases step_reads hs with ⟨s', hg, hs', -⟩ | hready
  · exact .inl ⟨s', hg, hs'⟩
  · exact .inr hready

/-- A packet that is received is what the bytes left begin with. -/
theorem recv_sound (h : S.Left r total) (H : Drives step (new, r) s (.ok p)) :
    p.WellFormed ∧ ∃ b, S.Left s.2 b ∧ total = p.encode ++ b :=
  have hr := received (L := False) h nofun H
  ⟨hr.1, hr.2.1⟩

/-- A packet that the bytes left begin with is received. -/
theorem recv_ok (hp : p.WellFormed) (h : S.Left r (p.encode ++ b))
    (H : Drives step (new, r) s res) :
    res = .ok p ∧ S.Left s.2 b ∧ (S.live r → S.live s.2) := by
  have hr := received (L := S.live r) h id H
  cases res with
  | error e => exact absurd rfl (hr p b hp)
  | ok q =>
    obtain ⟨hq, ⟨b', hleft, heq⟩, hlive⟩ := hr
    obtain ⟨rfl, rfl⟩ := hp.encode_inj hq heq
    exact ⟨rfl, hleft, hlive⟩

/-- It does not wait for ever when there are answers enough. -/
theorem exists_recv (hp : p.WellFormed) (h : S.Left r (p.encode ++ b)) (hlive : S.live r) :
    ∃ s res, Drives step (new, r) s res := by
  refine exists_drives (I := Reads S (p.encode ++ b) True) (turns S (p.encode ++ b))
    (fun s hs => ?_)
    (reads_new h fun _ => hlive)
  rcases step_reads hs with ⟨s', hg, hs', hlt⟩ | ⟨s', res, hready, -⟩
  · exact .inl ⟨s', hg, hs', hlt trivial p b hp rfl⟩
  · exact .inr ⟨s', res, hready⟩

end
end RecvPacket

/-! ## A peer that receives again and again -/

/-- The packets that one `recv_packet` after the other is ready with. -/
inductive Receives [AsyncRead R] : R → List Packet → R → Prop where
  | nil : Receives reader [] reader
  | cons : Drives RecvPacket.step (.new, reader) (this, reader₁) (.ok p) →
      Receives reader₁ ps reader' → Receives reader (p :: ps) reader'

/-- However its reads are cut, the peer receives `ps`: never anything else, and all of them when
there are answers enough. `peer` is what it reads from, given the bytes on the wire and the answers.
-/
def Decodes [AsyncRead R] (peer : Bytes → List Answer → R) (wire : Bytes) (ps : List Packet) :
    Prop :=
  ∀ reads, (∀ qs reader, Receives (peer wire reads) qs reader → qs <+: ps) ∧
    (wire.length ≤ (sizes reads).length → ∃ reader, Receives (peer wire reads) ps reader)

section
variable [AsyncRead R] {S : Source R} {r : R}

theorem Receives.isPrefix (hps : ∀ p ∈ ps, p.WellFormed)
    (hs : packetFormat.Stream (ps.map Packet.encode) b)
    (h : S.Left r b) (H : Receives r qs r') : qs <+: ps := by
  induction H generalizing ps b with
  | nil => exact List.nil_prefix
  | cons H _ ih =>
    obtain ⟨hp, b', hleft, rfl⟩ := RecvPacket.recv_sound h H
    obtain ⟨frames, hframes, hs'⟩ := hs.next hp.frame
    cases ps with
    | nil => cases hframes
    | cons q ps =>
      obtain ⟨heq, rfl⟩ := List.cons.inj hframes
      obtain rfl := hp.eq_of_encode (hps q (by simp)) heq.symm
      exact List.prefix_cons_inj _ |>.2 (ih (fun p hp => hps p (by simp [hp])) hs' hleft)

theorem exists_receives (hps : ∀ p ∈ ps, p.WellFormed)
    (h : S.Left r ((ps.map Packet.encode).flatten ++ part)) (hlive : S.live r) :
    ∃ r', Receives r ps r' := by
  induction ps generalizing r with
  | nil => exact ⟨r, .nil⟩
  | cons p ps ih =>
    have hp := hps p (by simp)
    rw [List.map_cons, List.flatten_cons, List.append_assoc] at h
    obtain ⟨⟨this, r₁⟩, res, H⟩ := RecvPacket.exists_recv hp h hlive
    obtain ⟨rfl, hleft, hlive'⟩ := RecvPacket.recv_ok hp h H
    obtain ⟨r', hr⟩ := ih (fun p hp => hps p (by simp [hp])) hleft (hlive' hlive)
    exact ⟨r', .cons H hr⟩

theorem stream_packets {ps : List Packet} (hps : ∀ p ∈ ps, p.WellFormed)
    (hpart : packetFormat.Open part) :
    packetFormat.Stream (ps.map Packet.encode) ((ps.map Packet.encode).flatten ++ part) := by
  refine ⟨fun f hf => ?_, part, hpart, rfl⟩
  obtain ⟨p, hp, rfl⟩ := List.mem_map.1 hf
  exact (hps p hp).frame

/-- A peer whose source has a stream of packets left decodes them. -/
theorem decodes_of_stream {peer : Bytes → List Answer → R} (hps : ∀ p ∈ ps, p.WellFormed)
    (hs : packetFormat.Stream (ps.map Packet.encode) b)
    (hleft : ∀ reads, S.Left (peer wire reads) b)
    (hlive : ∀ reads, wire.length ≤ (sizes reads).length → S.live (peer wire reads)) :
    Decodes peer wire ps := by
  refine fun reads => ⟨fun qs r H => H.isPrefix hps hs (hleft reads), fun hle => ?_⟩
  obtain ⟨-, part, -, heq⟩ := hs
  exact exists_receives hps (heq ▸ hleft reads) (hlive reads hle)

/-- With a read for every byte. -/
theorem Decodes.receives {peer : Bytes → List Answer → R} (h : Decodes peer wire ps) :
    ∃ reader, Receives (peer wire (.replicate wire.length (.upTo 0))) ps reader :=
  (h _).2 (Nat.le_of_eq (length_sizes_replicate _ _).symm)

/-- A wire has one decoding. -/
theorem Decodes.unique {peer : Bytes → List Answer → R} (h : Decodes peer wire ps)
    (h' : Decodes peer wire qs) : ps = qs := by
  obtain ⟨_, H⟩ := h.receives
  obtain ⟨_, H'⟩ := h'.receives
  exact ((h' _).1 _ _ H).eq_of_length_le ((h _).1 _ _ H').length_le

end
end Fuso

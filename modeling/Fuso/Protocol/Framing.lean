import Fuso.Protocol.Recv

/-!
# Packets and byte streams

`Packet.decode` says what the next packet of a whole stream is: the packet it begins with, the four
bytes that are not the magic number, or nothing because the stream ends. `recv_packet` on a stream
computes just that, however its reads are cut (`RecvPacket.decode_of_drives`), and comes to an end
when there are answers enough (`RecvPacket.exists_drives_duplex`).
-/

namespace Fuso
open Turn

/-- What a stream begins with, and what is behind it. -/
def Packet.decode (s : Bytes) : Result Packet × Bytes :=
  if s.length < headSize then (.error (.io .connectionReset), [])
  else if s.take 4 ≠ MAGIC then (.error (.packet (s.take 4)), s.drop headSize)
  else if s.length < headSize + packetFormat.body (s.take headSize) then
    (.error (.io .connectionReset), [])
  else
    (.ok (makePacket ((s.drop headSize).take (packetFormat.body (s.take headSize)))),
      s.drop (headSize + packetFormat.body (s.take headSize)))

namespace Packet
variable {s : Bytes} {p : Packet}

theorem decode_head (h : headSize ≤ s.length) (hm : s.take 4 ≠ MAGIC) :
    decode s = (.error (.packet (s.take 4)), s.drop headSize) := by
  rw [decode, if_neg (Nat.not_lt.2 h), if_pos hm]

/-- The stream ends before the packet does. -/
theorem decode_short (h : s.length < headSize ∨ s.take 4 = MAGIC ∧
    s.length < headSize + packetFormat.body (s.take headSize)) :
    decode s = (.error (.io .connectionReset), []) := by
  rw [decode]
  rcases h with hlt | ⟨hmagic, hlt⟩
  · rw [if_pos hlt]
  · rw [if_neg (not_not.2 hmagic), if_pos hlt, ite_self]

/-- The stream ends inside a packet. -/
theorem decode_open (h : packetFormat.Open s) (hm : headSize ≤ s.length → s.take 4 = MAGIC) :
    decode s = (.error (.io .connectionReset), []) := by
  refine decode_short ?_
  by_cases hlt : s.length < headSize
  · exact .inl hlt
  · have hle : headSize ≤ s.length := Nat.le_of_not_lt hlt
    refine .inr ⟨hm hle, Nat.lt_of_not_le fun hbody => ?_⟩
    -- otherwise the announced body is there, and with its head it is a frame
    have htake : (s.take (headSize + packetFormat.body (s.take headSize))).take headSize =
        s.take headSize := by
      rw [List.take_take, Nat.min_eq_left (Nat.le_add_right _ _)]
    refine h (s.take (headSize + packetFormat.body (s.take headSize))) ⟨?_, ?_⟩
      (List.take_prefix _ _)
    · rw [List.length_take, Nat.min_eq_left hbody]
      exact Nat.le_add_right _ _
    · rw [show packetFormat.head = headSize from rfl, htake, List.length_take,
        Nat.min_eq_left hbody]

theorem WellFormed.decode_append (hp : p.WellFormed) (b : Bytes) :
    decode (p.encode ++ b) = (.ok p, b) := by
  have hlen := hp.length_encode
  have hhead : (p.encode ++ b).take headSize = MAGIC ++ toLeBytes p.payload.length := by
    rw [hp.encode_eq, List.append_assoc]
    exact List.take_left' rfl
  have hbody : packetFormat.body ((p.encode ++ b).take headSize) = p.payload.length := by
    rw [hhead]
    exact fromLeBytes_toLeBytes hp.short
  have hmagic : (p.encode ++ b).take 4 = MAGIC := by
    rw [hp.encode_eq, List.append_assoc, List.append_assoc]
    exact List.take_left' rfl
  have hpay : (p.encode ++ b).drop headSize = p.payload ++ b := by
    rw [hp.encode_eq, List.append_assoc]
    exact List.drop_left' rfl
  rw [decode, hbody, hpay, if_neg (by rw [List.length_append]; omega), if_neg (not_not.2 hmagic),
    if_neg (by rw [List.length_append]; omega), List.take_left' rfl, ← hp.made]
  exact congrArg _ (List.drop_left' hlen)

end Packet

namespace RecvPacket
variable {this : RecvPacket} {d : Duplex}

/-- A packet is refused for its first four bytes, once its head is there. -/
theorem look_error (h : this.Valid) (hlook : this.look = .break (.error e)) :
    this.got.length = headSize ∧ this.got.take 4 ≠ MAGIC ∧ e = .packet (this.got.take 4) := by
  obtain ⟨buf, state, offset⟩ := this
  cases state with
  | none =>
    simp only [look] at hlook
    split at hlook
    · cases hlook
    · split at hlook <;> cases hlook
  | body =>
    simp only [look] at hlook
    split at hlook <;> cases hlook
  | head =>
    obtain ⟨hlen, hoff⟩ := h
    dsimp only at hlen hoff
    subst hoff
    have htake : buf.take headSize = buf := List.take_of_length_le (Nat.le_of_eq hlen)
    simp only [look, hlen, if_true] at hlook
    by_cases hmagic : buf.take 4 = MAGIC
    · simp only [hmagic, goodPacket, beq_self_eq_true, Bool.not_true, Bool.false_eq_true,
        if_false] at hlook
      split at hlook <;> cases hlook
    · have hbad : goodPacket (buf.take 4) = false := by simpa [goodPacket] using hmagic
      simp only [hbad, Bool.not_false, if_true] at hlook
      cases hlook
      simp only [got, htake]
      exact ⟨hlen, hmagic, trivial⟩

/-- Behind its head a packet is read only when the magic number is right. -/
theorem magic_got (h : this.Valid) (hlt : this.offset < this.buf.length)
    (hle : headSize ≤ this.got.length) : this.got.take 4 = MAGIC := by
  obtain ⟨buf, state, offset⟩ := this
  cases state with
  | none =>
    have := h.resolve_left (by rintro ⟨rfl, rfl⟩; exact absurd hlt (Nat.lt_irrefl 0))
    simp only [got, List.length_take] at *
    omega
  | head =>
    obtain ⟨hlen, hoff⟩ := h
    dsimp only at *
    omega
  | body =>
    simp only [got, List.append_assoc]
    exact List.take_left' rfl

/-- A `recv_packet` that fails finds no packet. -/
theorem step_error {s : RecvPacket × Duplex} (h : Reads Duplex.source total L s)
    (hstep : step s = .ready s' (.error e)) : Packet.decode total = (.error e, s'.2.incoming) := by
  obtain ⟨this, d⟩ := s
  obtain ⟨hvalid, ⟨b, hleft, rfl⟩, -⟩ := h
  obtain rfl : d.incoming = b := hleft
  dsimp only at hvalid ⊢
  rcases look_cases hvalid with ⟨this', hlook, -⟩ | ⟨p, hlook, -⟩ | ⟨e', hlook, -⟩ |
    ⟨this', hlook, hvalid', hgot, hlt, -⟩
  · simp only [step, hlook] at hstep
    cases hstep
  · simp only [step, hlook] at hstep
    cases hstep
  · obtain ⟨hlen, hmagic, rfl⟩ := look_error hvalid hlook
    simp only [step, hlook] at hstep
    cases hstep
    have htake : (this.got ++ d.incoming).take 4 = this.got.take 4 :=
      List.take_append_of_le_length (hlen ▸ by decide)
    rw [Packet.decode_head (by rw [List.length_append, hlen]; exact Nat.le_add_right _ _)
      (htake ▸ hmagic), htake, ← hlen, List.drop_left' rfl]
  · obtain ⟨reads, buf, rest, hin, ⟨hread, -⟩ | ⟨hread, hnil⟩⟩ :=
      d.pollRead_new (this'.buf.length - this'.offset)
    · simp only [step, hlook, hread] at hstep
      cases hstep
    · by_cases h0 : buf.filled = []
      · have hend : d.incoming = [] := (hnil h0).resolve_left (by omega)
        have hrest : rest = [] := by simpa [h0, hend, eq_comm] using hin
        simp only [step, hlook, hread, h0, List.length_nil, if_true] at hstep
        cases hstep
        rw [hend, List.append_nil, hrest, ← hgot]
        exact Packet.decode_open (open_got hvalid' hlt) (magic_got hvalid' hlt)
      · have hlen : buf.filled.length ≠ 0 := by simpa using h0
        simp only [step, hlook, hread, if_neg hlen] at hstep
        cases hstep

/-- `recv_packet` decodes the stream, however its reads are cut. -/
theorem decode_of_drives (H : Drives step (new, d) s res) :
    Packet.decode d.incoming = (res, s.2.incoming) := by
  refine H.post (I := Reads Duplex.source d.incoming False)
    (Q := fun s res => Packet.decode d.incoming = (res, s.2.incoming)) (fun s hs => ?_)
    (reads_new rfl nofun)
  rcases step_reads hs with ⟨s', hg, hs', -⟩ | ⟨s', res, hready, hres⟩
  · exact .inl ⟨s', hg, hs'⟩
  · refine .inr ⟨s', res, hready, ?_⟩
    cases res with
    | error e => exact step_error hs hready
    | ok p =>
      obtain ⟨hp, ⟨b, hleft, heq⟩, -⟩ := hres
      rw [heq, hp.decode_append, ← show s'.2.incoming = b from hleft]

/-- It comes to an end when there is an answer for every byte and one for the end. -/
theorem exists_drives_duplex (h : d.incoming.length < (sizes d.reads).length) :
    ∃ s res, Drives step (new, d) s res := by
  refine exists_drives
    (I := fun s => s.1.Valid ∧ s.2.incoming.length < (sizes s.2.reads).length)
    (fun s => s.2.reads.length + if s.1.state = .none then 1 else 0) ?_ ⟨valid_new, h⟩
  rintro ⟨this, d⟩ ⟨hvalid, hans⟩
  dsimp only at hvalid hans
  rcases look_cases hvalid with ⟨this', hlook, hvalid', -, hnone, hsome⟩ | ⟨p, hlook, -⟩ |
    ⟨e, hlook, -⟩ | ⟨this', hlook, hvalid', -, hlt, hstate⟩
  · refine .inl ⟨(this', d), .inl (by simp only [step, hlook]), ⟨hvalid', hans⟩, ?_⟩
    simp [hnone, hsome]
  · exact .inr ⟨_, _, by simp only [step, hlook]; rfl⟩
  · exact .inr ⟨_, _, by simp only [step, hlook]; rfl⟩
  have hphase : (if this'.state = .none then 1 else 0) ≤ if this.state = .none then 1 else 0 := by
    by_cases h : this'.state = .none
    · rw [if_pos h, if_pos (hstate h)]
    · rw [if_neg h]
      exact Nat.zero_le _
  have hcap : this'.buf.length - this'.offset ≠ 0 := by omega
  cases hr : d.reads with
  | nil => simp [hr, sizes] at hans
  | cons a reads =>
    cases a with
    | pending =>
      have hread : pollRead d (.new (this'.buf.length - this'.offset)) =
          ({ d with reads }, .new (this'.buf.length - this'.offset), .pending) :=
        Duplex.pollRead_pending hr hcap
      refine .inl ⟨(this', { d with reads }), .inr (by simp only [step, hlook, hread]),
        ⟨hvalid', by simpa [hr, sizes] using hans⟩, ?_⟩
      simp only [List.length_cons]
      omega
    | upTo n =>
      obtain ⟨buf, hfill, hread⟩ := Duplex.pollRead_upTo hr hcap
      by_cases h0 : (d.delivered n (this'.buf.length - this'.offset)).length = 0
      · exact .inr ⟨_, _, by simp only [step, hlook, hread, h0, if_true]; rfl⟩
      · have hlen : (d.delivered n (this'.buf.length - this'.offset)).length =
            min (min (n + 1) (this'.buf.length - this'.offset)) d.incoming.length :=
          Duplex.length_delivered
        have hle : buf.filled.length ≤ this'.buf.length - this'.offset := by
          rw [hfill]
          omega
        obtain ⟨hvalid'', -⟩ := fill_spec hvalid' hlt hle
        refine .inl ⟨(this'.fill buf.filled, d.behind reads buf.filled), .inl ?_,
          ⟨hvalid'', ?_⟩, ?_⟩
        · simp only [step, hlook, hread, if_neg h0, fill, hfill]
        · simp only [Duplex.behind, hr, sizes, List.length_cons, List.length_drop, hfill] at *
          omega
        · have hst : (this'.fill buf.filled).state = this'.state := rfl
          simp only [Duplex.behind, hst, List.length_cons]
          omega

end RecvPacket

/-! ## One call after the other -/

/-- One `recv_packet` after the other, with its outcome and the reader it leaves. -/
inductive Calls [AsyncRead R] : R → List (Result Packet × R) → Prop where
  | nil : Calls reader []
  | cons : Drives RecvPacket.step (.new, reader) (this, reader₁) res → Calls reader₁ outs →
      Calls reader ((res, reader₁) :: outs)

/-- What the payloads come back as from a stream of their packets, and what is left behind each of
them: eight bytes and the payload are gone. -/
def arrivals : Bytes → List Bytes → List (Result Packet × Bytes)
  | _, [] => []
  | s, buf :: payloads =>
    (.ok (makePacket buf), s.drop (headSize + buf.length)) ::
      arrivals (s.drop (headSize + buf.length)) payloads

/-- The encodings of the packets of the payloads, one behind the other. -/
def encodeAll (payloads : List Bytes) : Bytes :=
  (payloads.map fun buf => (makePacket buf).encode).flatten

section
variable {d : Duplex} {buf : Bytes} {payloads : List Bytes}

/-- A `recv_packet` at a packet takes it and no byte behind it. -/
theorem RecvPacket.recv_encode (hbuf : buf.length < 2 ^ 32)
    (hin : d.incoming = (makePacket buf).encode ++ rest) (H : Drives step (new, d) s res) :
    res = .ok (makePacket buf) ∧ s.2.incoming = d.incoming.drop (headSize + buf.length) ∧
      s.2.incoming = rest := by
  have hp := wellFormed_makePacket hbuf
  have hdec := decode_of_drives H
  rw [hin, hp.decode_append] at hdec
  obtain ⟨hres, hrest⟩ := Prod.mk.inj hdec
  have hdrop : d.incoming.drop (headSize + buf.length) = rest := by
    rw [hin]
    exact List.drop_left' hp.length_encode
  exact ⟨hres.symm, by rw [hdrop, hrest], hrest.symm⟩

theorem Calls.arrivals (hbuf : ∀ buf ∈ payloads, buf.length < 2 ^ 32)
    (hin : d.incoming = encodeAll payloads ++ tail) (H : Calls d outs)
    (hlen : outs.length ≤ payloads.length) :
    outs.map (fun o => (o.1, o.2.incoming)) = (arrivals d.incoming payloads).take outs.length := by
  induction payloads generalizing d outs with
  | nil =>
    obtain rfl : outs = [] := List.length_eq_zero_iff.1 (Nat.le_zero.1 hlen)
    rfl
  | cons buf payloads ih =>
    cases H with
    | nil => rfl
    | cons H Hs =>
      have hin' : d.incoming = (makePacket buf).encode ++ (encodeAll payloads ++ tail) := by
        rw [hin, encodeAll, encodeAll, List.map_cons, List.flatten_cons, List.append_assoc]
      obtain ⟨rfl, hdrop, hrest⟩ := RecvPacket.recv_encode (hbuf buf (by simp)) hin' H
      have htail := ih (fun b hb => hbuf b (by simp [hb])) hrest Hs (Nat.le_of_succ_le_succ hlen)
      simp only [List.map_cons, Fuso.arrivals, List.length_cons, List.take_succ_cons]
      rw [htail, hdrop]

theorem exists_calls (hbuf : ∀ buf ∈ payloads, buf.length < 2 ^ 32)
    (hin : d.incoming = encodeAll payloads ++ tail) (hlive : d.Live) :
    ∃ outs, Calls d outs ∧ outs.length = payloads.length := by
  induction payloads generalizing d with
  | nil => exact ⟨[], .nil, rfl⟩
  | cons buf payloads ih =>
    have hp := wellFormed_makePacket (hbuf buf (by simp))
    have hin' : d.incoming = (makePacket buf).encode ++ (encodeAll payloads ++ tail) := by
      rw [hin, encodeAll, encodeAll, List.map_cons, List.flatten_cons, List.append_assoc]
    obtain ⟨⟨this, d'⟩, res, H⟩ := RecvPacket.exists_recv (S := Duplex.source) hp hin' hlive
    obtain ⟨-, hleft, hlive'⟩ := RecvPacket.recv_ok (S := Duplex.source) hp hin' H
    obtain ⟨outs, Hs, hlen⟩ := ih (fun b hb => hbuf b (by simp [hb])) hleft (hlive' hlive)
    exact ⟨(res, d') :: outs, .cons H Hs, by rw [List.length_cons, hlen, List.length_cons]⟩

end

/-- The packets of the payloads come back in order, each for its own bytes; and from any stream a
`recv_packet` is ready with a packet only for the encoding of it, with its first four bytes when
these are not the magic number, and with `ConnectionReset` when the stream ends before that. -/
theorem recv_packet_framing :
    (∀ (payloads : List Bytes) (tail : Bytes) (d : Duplex),
      (∀ buf ∈ payloads, buf.length < 2 ^ 32) → d.incoming = encodeAll payloads ++ tail →
      (∀ outs, Calls d outs → outs.length ≤ payloads.length →
        outs.map (fun o => (o.1, o.2.incoming)) =
          (arrivals d.incoming payloads).take outs.length) ∧
      (d.Live → ∃ outs, Calls d outs ∧ outs.length = payloads.length)) ∧
    (∀ (d d' : Duplex) (this : RecvPacket) (res : Result Packet),
      Drives RecvPacket.step (.new, d) (this, d') res →
      (∀ p, res = .ok p → d.incoming = p.encode ++ d'.incoming) ∧
      (headSize ≤ d.incoming.length → d.incoming.take 4 ≠ MAGIC →
        res = .error (.packet (d.incoming.take 4)) ∧ d'.incoming = d.incoming.drop headSize) ∧
      (d.incoming.length < headSize ∨ d.incoming.take 4 = MAGIC ∧
          d.incoming.length < headSize + fromLeBytes ((d.incoming.drop 4).take 4) →
        res = .error (.io .connectionReset))) ∧
    ∀ d : Duplex, d.incoming.length < (sizes d.reads).length →
      ∃ s res, Drives RecvPacket.step (.new, d) s res := by
  refine ⟨fun payloads tail d hbuf hin => ⟨fun outs H => H.arrivals hbuf hin,
    exists_calls hbuf hin⟩, fun d d' this res H => ?_, fun d => RecvPacket.exists_drives_duplex⟩
  have hdec := RecvPacket.decode_of_drives H
  refine ⟨?_, fun hle hmagic => ?_, fun hend => ?_⟩
  · rintro p rfl
    obtain ⟨-, b, hleft, heq⟩ := RecvPacket.recv_sound (S := Duplex.source) rfl H
    rw [heq, show d'.incoming = b from hleft]
  · rw [Packet.decode_head hle hmagic] at hdec
    obtain ⟨rfl, hrest⟩ := Prod.mk.inj hdec
    exact ⟨rfl, hrest.symm⟩
  · have hbody : packetFormat.body (d.incoming.take headSize) =
        fromLeBytes ((d.incoming.drop 4).take 4) := by
      rw [show packetFormat.body (d.incoming.take headSize) =
        fromLeBytes ((d.incoming.take headSize).drop 4) from rfl, List.drop_take]
      rfl
    rw [Packet.decode_short (hbody ▸ hend)] at hdec
    exact (Prod.mk.inj hdec).1.symm

/-- A packet of one byte and an empty one, read byte by byte. -/
theorem recv_packet_framing_two : ∃ outs,
    Calls (⟨encodeAll [[1], []], .replicate 17 (.upTo 0), [], [], []⟩ : Duplex) outs ∧
      outs.map (fun o => (o.1, o.2.incoming)) =
        [(.ok (makePacket [1]), (makePacket []).encode), (.ok (makePacket []), [])] := by
  obtain ⟨hall, hex⟩ := recv_packet_framing.1 [[1], []] []
    ⟨encodeAll [[1], []], .replicate 17 (.upTo 0), [], [], []⟩ (by decide) (by decide)
  obtain ⟨outs, H, hlen⟩ := hex (by unfold Duplex.Live; decide)
  exact ⟨outs, H, (hall outs H (Nat.le_of_eq hlen)).trans (by rw [hlen]; decide)⟩

end Fuso

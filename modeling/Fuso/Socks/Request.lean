import Fuso.Socks.Runs

/-!
# Requests of RFC 1928

The exchange of a client without authentication, delivered so that every read fills the buffer it is
given. The handshake resolves to the requested socket and takes exactly the bytes of the exchange
if its replies can be written and the name of the destination does not have 254 or 255 bytes, and
only then (`request_iff`): the `u8` addition that turns the length of the name into the length of
the rest overflows there.
-/

namespace Fuso.Socks5
open Turn

/-- The greeting and the request of a client. -/
def exchange (methods : Bytes) (cmd rsv : UInt8) (dst : Dst) : Bytes :=
  [0x05, .ofNat methods.length] ++ methods ++ [0x05, cmd, rsv, dst.atyp] ++ dst.encode

/-- The lengths of the messages DST.ADDR and DST.PORT are read in. -/
def Dst.messages : Dst → List Nat
  | .domain host _ => [1, host.length + 2]
  | dst => [dst.body.length]

/-- The first reads can fill buffers of the given lengths. -/
def Fills (lens : List Nat) (reads : List Answer) : Prop :=
  ∃ now later, sizes reads = now ++ later ∧ List.Forall₂ (· ≤ ·) lens now

theorem Fills.cons (h : Fills (len :: lens) reads) :
    ∃ n cuts, sizes reads = n :: cuts ∧ len ≤ n ∧
      ∀ reads', sizes reads' = cuts → Fills lens reads' := by
  obtain ⟨now, later, hs, hle⟩ := h
  cases hle with
  | cons hle hrest => exact ⟨_, _, hs, hle, fun reads' h => ⟨_, later, h, hrest⟩⟩

variable {m : Socks5 Duplex}

/-- The handshake resolves to `socket` and leaves `rest`. -/
def Resolves (oc : Bool) (socket : Socket) (rest : Bytes) (s : Pc × Socks5 Duplex) : Prop :=
  ∃ t, Drives (step oc) s t (.ret (.ok socket)) ∧ t.2.stream.incoming = rest

theorem resolves_congr (h : ∀ t r, Drives (step oc) s t r ↔ Drives (step oc) s₁ t r) :
    Resolves oc socket rest s ↔ Resolves oc socket rest s₁ :=
  exists_congr fun t => and_congr_left' (h t _)

theorem resolves_of_goes (hg : Goes (step oc) s s₁) :
    Resolves oc socket rest s ↔ Resolves oc socket rest s₁ :=
  resolves_congr fun _ _ => drives_iff_of_goes hg

/-- The handshake in a new state with the message it asked for. -/
def holding (m : Socks5 Duplex) (st : State) (data rx : Bytes) (reads : List Answer) :
    Socks5 Duplex :=
  { m with
    state := st, readBuf := data, readOffset := data.length
    stream := { m.stream with incoming := rx, reads } }

/-- One message that is there in full. -/
theorem resolves_expect (data rx : Bytes) (hw : m.writeBuf = []) (hlen : data.length = len)
    (hst : st.Asks len) (hpos : 0 < len) (hin : m.stream.incoming = data ++ rx)
    (hf : Fills (len :: lens) m.stream.reads)
    (h : ∀ reads, Fills lens reads →
      (Resolves oc socket tail (.select, m.holding st data rx reads) ↔ p)) :
    Resolves oc socket tail (.write, m.expect st len) ↔ p := by
  obtain ⟨n, cuts, hcuts, hle, hrest⟩ := hf.cons
  obtain ⟨reads, hreads, hdrives⟩ := (awaits_expect hw hst hpos).reads oc rfl hcuts
    (by simpa [Socks5.expect] using hle) (by simp [Socks5.expect, hin, hlen])
  have hm : (m.expect st len).received reads = m.holding st data rx reads := by
    simp [received, Socks5.expect, holding, hin, ← hlen]
  rw [hm] at hdrives
  exact (resolves_congr hdrives).trans (h reads (hrest reads hreads))

/-- One of the answers takes the whole reply to the request, if it has one. -/
def Replies (cmd : UInt8) (sizes : List Nat) : Prop := cmd = 0x01 → ∃ n ∈ sizes, 10 ≤ n

/-- The answers to the writes take the two bytes of the reply to the greeting, and then one of them
takes the whole reply to the request. -/
def Answered (cmd : UInt8) (writes : List Answer) : Prop :=
  ∃ a b, sizes writes = a ++ b ∧ 2 ≤ a.sum ∧ Replies cmd b

theorem Replies.of_suffix (hsuf : b <:+ b') (h : Replies cmd b) : Replies cmd b' := by
  intro hcmd
  obtain ⟨n, hn, hle⟩ := h hcmd
  exact ⟨n, hsuf.subset hn, hle⟩

theorem isUdp_socket {dst : Dst} : (dst.socket cmd).isUdp = true ↔ cmd ≠ 0x01 := by
  unfold Dst.socket
  split <;> simp_all [Socket.isUdp, Socket.tcp, Socket.udp]

/-- The address. -/
theorem resolves_address {dst : Dst} (hcmd : cmd = 0x01 ∨ cmd = 0x03) (hw : m.writeBuf = [])
    (hin : m.stream.incoming = dst.body ++ tail) (hlen : dst.body.length = len)
    (hdom : dst.atyp = 0x03 → len ≠ 1) (hf : Fills [len] m.stream.reads) :
    Resolves oc (dst.socket cmd) tail
      (.write, m.expect (.request 0x05 cmd rsv dst.atyp len) len) ↔
      Replies cmd (sizes m.stream.writes) := by
  refine resolves_expect dst.body tail hw hlen asks_request (hlen ▸ dst.length_body_pos) hin hf
    fun reads _ => ?_
  let m₁ := m.holding (.request 0x05 cmd rsv dst.atyp len) dst.body tail reads
  have hne := dst.atyp_ne_zero
  have hstep : step oc (.select, m₁) = m₁.onAddress cmd rsv dst.atyp := by
    simp only [m₁, step, select, holding]
    rw [if_neg (by tauto), if_neg (by tauto), if_pos (by simp [hlen])]
  have hparse : parseAddress cmd rsv dst.atyp m₁.readBuf = .ret (.ok (dst.socket cmd)) :=
    dst.parseAddress_body hcmd
  simp only [onAddress, hparse] at hstep
  split at hstep
  · next hudp =>
    refine ((resolves_of_goes (.inl hstep)).trans
      (Finishing.resolves_iff oc ⟨rfl, rfl, by simp, rfl, by simp⟩)).trans ?_
    exact iff_of_true (.inl rfl) fun h => absurd h (isUdp_socket.1 hudp)
  · next hudp =>
    refine ((resolves_of_goes (.inl hstep)).trans
      (Finishing.resolves_iff oc ⟨rfl, rfl, by simp, rfl, by simp⟩)).trans ?_
    have hcmd : cmd = 0x01 := not_not.1 (mt isUdp_socket.2 hudp)
    simp [Taken, Replies, hcmd, m₁, holding, reply]

/-- The length of a name, when the addition of 2 does not overflow. -/
theorem addTwo_eq {len : Nat} (h : len < 254) :
    addTwo oc (.ofNat len) = some (.ofNat (len + 2)) := by
  have hlen : (UInt8.ofNat len).toNat = len := by simp; omega
  rw [addTwo, if_neg (by omega)]
  congr 1
  apply UInt8.toNat.inj
  simp

/-- The name is one of those whose length overflows. -/
def LongName : Dst → Prop
  | .domain host _ => 254 ≤ host.length
  | _ => False

/-- The address with the length octet of a name. -/
theorem resolves_dst {dst : Dst} (hcmd : cmd = 0x01 ∨ cmd = 0x03) (hdst : dst.WellFormed)
    (hlong : ¬LongName dst) (hw : m.writeBuf = []) (hin : m.stream.incoming = dst.encode ++ tail)
    (hat : atypeLen dst.atyp = some len) (hf : Fills (Dst.messages dst) m.stream.reads) :
    Resolves oc (dst.socket cmd) tail
      (.write, m.expect (.request 0x05 cmd rsv dst.atyp len) len) ↔
      Replies cmd (sizes m.stream.writes) := by
  cases dst with
  | v4 ip port =>
    have hlen : (Dst.v4 ip port).body.length = len := by
      simp_all [Dst.body, Dst.atyp, atypeLen]
    exact resolves_address hcmd hw hin hlen (by simp [Dst.atyp]) (hlen ▸ hf)
  | v6 ip port =>
    have hlen : (Dst.v6 ip port).body.length = len := by
      simp_all [Dst.body, Dst.atyp, atypeLen]
    exact resolves_address hcmd hw hin hlen (by simp [Dst.atyp]) (hlen ▸ hf)
  | domain host port =>
    obtain rfl : 1 = len := by simpa [Dst.atyp, atypeLen] using hat
    have hlt : host.length < 254 := Nat.not_le.1 hlong
    refine resolves_expect [.ofNat host.length] (host ++ toBeBytes port ++ tail) hw rfl
      asks_request Nat.one_pos (by simpa [Dst.encode] using hin) hf fun reads hf₁ => ?_
    let m₁ := m.holding (.request 0x05 cmd rsv 0x03 1) [.ofNat host.length]
      (host ++ toBeBytes port ++ tail) reads
    have hlen : (Dst.domain host port).body.length = (UInt8.ofNat (host.length + 2)).toNat := by
      simp [Dst.body]
      omega
    have hstep : step oc (.select, m₁) = m₁.onDomain oc cmd rsv := by
      simp [m₁, step, select, holding]
    simp only [onDomain, m₁, holding, addTwo_eq hlt] at hstep
    have hne : (UInt8.ofNat (host.length + 2)).toNat ≠ 1 := by
      rw [← hlen]
      simp [Dst.body]
    have hf₂ : Fills [(Dst.domain host port).body.length] reads := by simpa [Dst.body] using hf₁
    exact (resolves_of_goes (.inl hstep)).trans (resolves_address (m := m₁) hcmd hw rfl hlen
      (fun _ => hne) (hlen ▸ hf₂))

/-- The request. -/
theorem resolves_request {dst : Dst} (hcmd : cmd = 0x01 ∨ cmd = 0x03) (hdst : dst.WellFormed)
    (hlong : ¬LongName dst) (hw : m.writeBuf = [])
    (hin : m.stream.incoming = [0x05, cmd, rsv, dst.atyp] ++ (dst.encode ++ tail))
    (hf : Fills (4 :: Dst.messages dst) m.stream.reads) :
    Resolves oc (dst.socket cmd) tail (.write, m.expect (.request 0x05 0 0 0 4) 4) ↔
      Replies cmd (sizes m.stream.writes) := by
  refine resolves_expect [0x05, cmd, rsv, dst.atyp] (dst.encode ++ tail) hw rfl asks_request
    (by omega) hin hf fun reads hf₁ => ?_
  let m₁ := m.holding (.request 0x05 0 0 0 4) [0x05, cmd, rsv, dst.atyp] (dst.encode ++ tail) reads
  have hstep : step oc (.select, m₁) = m₁.onRequest := by simp [m₁, step, select, holding]
  obtain ⟨len, hat⟩ : ∃ len, atypeLen dst.atyp = some len := by
    cases dst <;> exact ⟨_, rfl⟩
  simp only [onRequest, m₁, holding, hat] at hstep
  exact (resolves_of_goes (.inl hstep)).trans
    (resolves_dst (m := m₁) hcmd hdst hlong hw rfl hat hf₁)

/-- The exchange. -/
theorem resolves_exchange {dst : Dst} {methods : Bytes} {d : Duplex}
    (hm : 1 ≤ methods.length ∧ methods.length ≤ 255) (hcmd : cmd = 0x01 ∨ cmd = 0x03)
    (hdst : dst.WellFormed) (hlong : ¬LongName dst)
    (hin : d.incoming = exchange methods cmd rsv dst ++ tail)
    (hf : Fills (2 :: methods.length :: 4 :: Dst.messages dst) d.reads) :
    Resolves oc (dst.socket cmd) tail (.select, new .newSkip d) ↔ Answered cmd d.writes := by
  have hnm : (UInt8.ofNat methods.length).toNat = methods.length := by simp; omega
  let rx := methods ++ ([0x05, cmd, rsv, dst.atyp] ++ (dst.encode ++ tail))
  refine (resolves_of_goes (.inl select_new)).trans
    (resolves_expect [0x05, .ofNat methods.length] rx rfl rfl asks_handshake (by omega)
      (by simp [rx, new, hin, exchange]) hf fun reads hf₁ => ?_)
  let m₁ := (new .newSkip d).holding .handshake [0x05, .ofNat methods.length] rx reads
  have hstep : step oc (.select, m₁) =
      .again (.write, m₁.expect (.authentication methods.length) methods.length) := by
    simp [m₁, step, select, holding, onHead, Head.tryFrom, hnm]
  refine (resolves_of_goes (.inl hstep)).trans
    (resolves_expect methods _ rfl rfl asks_authentication hm.1 rfl hf₁ fun reads hf₂ => ?_)
  let m₂ := m₁.holding (.authentication methods.length) methods
    ([0x05, cmd, rsv, dst.atyp] ++ (dst.encode ++ tail)) reads
  have hsel : step oc (.select, m₂) = .again (.auth .write, m₂) := by
    simp [m₂, step, select, holding]
  refine (resolves_of_goes (.inl hsel)).trans ?_
  have hsizes : sizes m₂.stream.writes = sizes d.writes := rfl
  rcases Skipping.drives oc .write (m := m₂) ⟨rfl, rfl, Nat.two_pos⟩ with
    ⟨auth, writes, sent, hiff, ⟨a, ha, hsum⟩, hsuf⟩ | ⟨hno, hsum⟩
  · rw [resolves_congr hiff, resolves_request hcmd hdst hlong
      (m := { m₂ with auth, stream := { m₂.stream with writes, sent } }) rfl rfl hf₂]
    constructor
    · exact fun h => ⟨a, sizes writes, by rw [← hsizes, ha], by omega, h⟩
    · rintro ⟨a, b, hab, hsum, h⟩
      exact h.of_suffix (hsuf a b hab (by omega))
  · refine iff_of_false ?_ ?_
    · rintro ⟨t, H, -⟩
      exact hno _ _ H
    · rintro ⟨a, b, hab, ha, -⟩
      rw [hsizes, hab, List.sum_append] at hsum
      omega

/-! ## Names that are too long -/

theorem parse_exchange_ok {host : Bytes} (hm : methods.length ≤ 255)
    (h : (parse oc (exchange methods cmd rsv (.domain host port) ++ tail)).out =
      .ret (.ok socket)) :
    (parseDomain oc cmd rsv ((Dst.domain host port).encode ++ tail)).out = .ret (.ok socket) := by
  have hnm : (UInt8.ofNat methods.length).toNat = methods.length := by simp; omega
  have h₁ := (Parsed.message_out h nofun).2
  simp only [exchange, List.cons_append, List.nil_append, List.append_assoc, List.take_succ_cons,
    List.take_zero, List.drop_succ_cons, List.drop_zero, parseMethods, Head.tryFrom, ne_eq,
    not_true_eq_false, if_false] at h₁
  have h₂ := (Parsed.message_out h₁ nofun).2
  rw [hnm, List.drop_left] at h₂
  have h₃ := (Parsed.message_out h₂ nofun).2
  simpa [parseRequestHead, Dst.atyp, atypeLen] using h₃

theorem parseAddress_domain (h : parseAddress cmd rsv 0x03 data = .ret (.ok socket)) :
    2 ≤ data.length ∧
      ∃ port, socket.target = .domain (fromUtf8Lossy (data.take (data.length - 2))) port := by
  unfold parseAddress parseAddr at h
  by_cases hlen : 2 ≤ data.length
  · simp only [hlen, if_true, dif_pos] at h
    split at h
    · exact nomatch h
    · simp at h
      split at h
      · cases h; exact ⟨hlen, _, rfl⟩
      · split at h
        · cases h; exact ⟨hlen, _, rfl⟩
        · exact nomatch h
  · simp [hlen] at h
    split at h <;> exact nomatch h

theorem parseDomain_ok (h : (parseDomain oc cmd rsv (b :: rx)).out = .ret (.ok socket)) :
    ∃ len, addTwo oc b = some len ∧
      if len = 1 then (parseDomain oc cmd rsv rx).out = .ret (.ok socket)
      else parseAddress cmd rsv 0x03 (rx.take len.toNat) = .ret (.ok socket) := by
  rw [parseDomain_eq] at h
  have h₁ := (Parsed.message_out h nofun).2
  simp only [List.take_succ_cons, List.take_zero, List.drop_succ_cons, List.drop_zero] at h₁
  cases hlen : addTwo oc b with
  | none =>
    simp only [hlen] at h₁
    exact nomatch h₁
  | some len =>
    simp only [hlen] at h₁
    refine ⟨len, rfl, ?_⟩
    split at h₁
    · next h1 => rwa [if_pos h1]
    · next h1 =>
      rw [if_neg h1]
      exact (Parsed.message_out h₁ nofun).2

/-- With a length octet that overflows, what is parsed is not the name: the octet 254 leaves no
bytes for the name and the port, and the octet 255 makes its first byte the length. -/
theorem parseDomain_long {host : Bytes} (hlen : host.length = 254 ∨ host.length = 255)
    (hascii : IsAscii host) :
    (parseDomain oc cmd rsv ((Dst.domain host port).encode ++ tail)).out ≠
      .ret (.ok ((Dst.domain host port).socket c)) := by
  intro h
  have hrx : (Dst.domain host port).encode ++ tail =
      .ofNat host.length :: (host ++ toBeBytes port ++ tail) := rfl
  rw [hrx] at h
  obtain ⟨len, hadd, h₁⟩ := parseDomain_ok h
  rcases hlen with hlen | hlen
  · cases oc with
    | true => simp [addTwo, hlen] at hadd
    | false =>
      obtain rfl : (0 : UInt8) = len := by simpa [addTwo, hlen] using hadd
      exact absurd (parseAddress_domain h₁).1 (by simp)
  · cases oc with
    | true => simp [addTwo, hlen] at hadd
    | false =>
      obtain rfl : (1 : UInt8) = len := by simpa [addTwo, hlen] using hadd
      obtain ⟨b, host', rfl⟩ : ∃ b host', host = b :: host' := by
        cases host with
        | nil => cases hlen
        | cons b host' => exact ⟨b, host', rfl⟩
      have hb : b.toNat < 128 := hascii b List.mem_cons_self
      have hhost' : host'.length = 254 := by simpa using hlen
      rw [if_pos rfl, List.cons_append, List.cons_append] at h₁
      obtain ⟨len, hadd, h₂⟩ := parseDomain_ok h₁
      obtain rfl : b + 2 = len := by simpa [addTwo] using hadd
      have hlen' : (b + 2).toNat = b.toNat + 2 := by
        rw [UInt8.toNat_add, Nat.mod_eq_of_lt (by simp; omega)]
        rfl
      rw [if_neg fun h => by simp [h] at hlen'] at h₂
      obtain ⟨-, p, hp⟩ := parseAddress_domain h₂
      -- what is taken for the name is a part of it, at most 127 bytes long
      have hpart : ((host' ++ toBeBytes port ++ tail).take (b + 2).toNat) =
          host'.take (b.toNat + 2) := by
        rw [hlen', List.append_assoc, List.take_append_of_le_length (by omega)]
      have htarget : ((Dst.domain (b :: host') port).socket c).target =
          .domain (fromUtf8Lossy (b :: host')) port := by
        unfold Dst.socket
        split <;> rfl
      rw [hpart, htarget] at hp
      have hname := congrArg String.length (Addr.domain.inj hp).1
      rw [length_fromUtf8Lossy hascii, length_fromUtf8Lossy] at hname
      · simp [hhost'] at hname
        omega
      · exact fun x hx => hascii x (List.mem_cons_of_mem _
          (List.mem_of_mem_take (List.mem_of_mem_take hx)))

theorem not_resolves_long {dst : Dst} {d : Duplex} (hm : methods.length ≤ 255)
    (hdst : dst.WellFormed) (hlong : LongName dst)
    (hin : d.incoming = exchange methods cmd rsv dst ++ tail) :
    ¬Resolves oc (dst.socket cmd) rest (.select, new .newSkip d) := by
  rintro ⟨t, H, -⟩
  cases dst with
  | domain host port =>
    have hout := Conforms.out_eq (hin ▸ conforms_parse H) (by simp)
    have hlen := hdst.2.1
    exact parseDomain_long (by simp only [LongName] at hlong; omega) hdst.2.2
      (parse_exchange_ok hm hout)
  | _ => exact hlong

/-- The handshake resolves to the destination of the request and takes the bytes of the exchange
exactly when the name is not one of those whose length overflows and the answers to the writes take
its replies. -/
theorem request_iff {oc : Bool} {dst : Dst} {methods tail : Bytes} {d : Duplex}
    (hm : 1 ≤ methods.length ∧ methods.length ≤ 255) (hcmd : cmd = 0x01 ∨ cmd = 0x03)
    (hdst : dst.WellFormed) (hin : d.incoming = exchange methods cmd rsv dst ++ tail)
    (hf : Fills (2 :: methods.length :: 4 :: Dst.messages dst) d.reads) :
    (∃ t, Drives (step oc) (.select, new .newSkip d) t (.ret (.ok (dst.socket cmd))) ∧
      t.2.stream.incoming = tail) ↔ ¬LongName dst ∧ Answered cmd d.writes := by
  constructor
  · intro h
    have hlong : ¬LongName dst := fun hlong => not_resolves_long hm.2 hdst hlong hin h
    exact ⟨hlong, (resolves_exchange hm hcmd hdst hlong hin hf).1 h⟩
  · rintro ⟨hlong, hwrites⟩
    exact (resolves_exchange hm hcmd hdst hlong hin hf).2 hwrites

/-- A client that asks for a name of `len` letters, and a server that can read and write at once. -/
def naming (len : Nat) : Duplex :=
  { incoming := exchange [0x00] 0x01 0x00 (.domain (.replicate len 97) 80)
    reads := .replicate 5 (.upTo 300), writes := .replicate 2 (.upTo 9), closes := [], sent := [] }

/-- The destination that `naming len` asks for. -/
def named (len : Nat) : Dst := .domain (.replicate len 97) 80

theorem naming_incoming (len : Nat) :
    (naming len).incoming = exchange [0x00] 0x01 0x00 (named len) ++ [] := (List.append_nil _).symm

theorem named_wellFormed (h : 1 ≤ len ∧ len ≤ 255) : (named len).WellFormed := by
  refine ⟨?_, ?_, fun b hb => by rw [List.eq_of_mem_replicate hb]; decide⟩
  · rw [List.length_replicate]
    exact h.1
  · rw [List.length_replicate]
    exact h.2

theorem naming_fills (h : len ≤ 255) :
    Fills (2 :: ([0x00] : Bytes).length :: 4 :: Dst.messages (named len)) (naming len).reads := by
  have hlen : (List.replicate len (97 : UInt8)).length + 2 ≤ 301 := by
    rw [List.length_replicate]
    omega
  exact ⟨.replicate 5 301, [], rfl, .cons (by decide) (.cons (by decide) (.cons (by decide)
    (.cons (by decide) (.cons hlen .nil))))⟩

theorem naming_writes (len : Nat) : Answered 0x01 (naming len).writes :=
  ⟨[10], [10], rfl, by decide, fun _ => ⟨10, List.mem_singleton_self _, Nat.le_refl _⟩⟩

theorem request_iff_naming : ∃ t, Drives (step false) (.select, new .newSkip (naming 11)) t
      (.ret (.ok ((named 11).socket 0x01))) ∧ t.2.stream.incoming = [] :=
  (request_iff (by decide) (by decide) (named_wellFormed (by decide)) (naming_incoming 11)
    (naming_fills (by decide))).2 ⟨by simp [LongName, named], naming_writes 11⟩

/-- A name of 254 letters is not resolved. -/
theorem not_request_covered : ¬∀ (oc : Bool) (dst : Dst) (methods tail : Bytes) (cmd rsv : UInt8)
    (d : Duplex), 1 ≤ methods.length ∧ methods.length ≤ 255 → cmd = 0x01 ∨ cmd = 0x03 →
    dst.WellFormed → d.incoming = exchange methods cmd rsv dst ++ tail →
    Fills (2 :: methods.length :: 4 :: Dst.messages dst) d.reads →
    Answered cmd d.writes →
    ∃ t, Drives (step oc) (.select, new .newSkip d) t (.ret (.ok (dst.socket cmd))) ∧
      t.2.stream.incoming = tail := by
  intro h
  have hlong : LongName (named 254) := by
    rw [named, LongName, List.length_replicate]
  have hname : (named 254).WellFormed := named_wellFormed (by decide)
  exact not_resolves_long (by decide) hname hlong (naming_incoming 254)
    (h false (named 254) [0x00] [] 0x01 0x00 (naming 254) (by decide) (by decide) hname
      (naming_incoming 254) (naming_fills (by decide)) (naming_writes 254))

end Fuso.Socks5

import Fuso.Socks.UdpHeader

/-!
# The SOCKS5 UDP relay

What `parse_and_forward_data` does with a datagram. Its address and its data are both cut out of the
bytes behind the header, and for a name the address is all of them: the data of a name is sent with
the port in front of it (`ForwardData.forwards_packed_iff`). The raw casts and the slice trust the
datagram (`ForwardData.crashFree_iff`).
-/

namespace Fuso
open Turn

namespace ForwardData
variable {serialize : Addr → Bytes} {addr : Addr} {size : Nat} {data rest buf : Bytes} {d : Duplex}
  {t : ForwardData × Duplex} {r : Exit Addr}

/-! ## The two writes -/

theorem length_encode (buf : Bytes) : (makePacket buf).encode.length = 8 + buf.length := by
  simp [Packet.encode, makePacket, putU32]
  omega

theorem encode_ne_nil (buf : Bytes) : (makePacket buf).encode ≠ [] := by
  apply List.ne_nil_of_length_pos
  rw [length_encode]
  omega

/-- The packet with the address and the packet with the data. -/
def forwarded (serialize : Addr → Bytes) (addr : Addr) (data : Bytes) : Bytes :=
  (makePacket (serialize addr)).encode ++ (makePacket data).encode

theorem drives_payload (hne : buf ≠ [])
    (H : Drives (step serialize) (.payload addr (buf, 0), d) t r) :
    r = .ret (.ok addr) ∧ t.2.sent = d.sent ++ buf := by
  obtain ⟨t₁, t₂, r', H₁, hready, H₂⟩ := Drives.nested WriteAll.step
    (fun s => (ForwardData.payload addr s.1, s.2)) (t := ((buf, 0), d))
    (fun s s' h => by simp only [step, h])
    (fun s s' h => ⟨_, by simp only [step, h], .inl rfl⟩) H
  obtain ⟨rfl, hsent⟩ := WriteAll.drives hne H₁
  have hlast : step serialize (.payload addr t₁.1, t₁.2) =
      .ready (.payload addr t₂.1, t₂.2) (.ret (.ok addr)) := by
    simp only [step, hready]
  obtain ⟨rfl, rfl⟩ := (drives_iff_of_ready hlast).1 H₂
  exact ⟨rfl, hsent⟩

/-- Behind the first packet the data is cut out, or the slice panics. -/
theorem drives_message (hne : buf ≠ [])
    (H : Drives (step serialize) (.message addr size rest (buf, 0), d) t r) :
    ∃ d' : Duplex, d'.sent = d.sent ++ buf ∧
      if size ≤ rest.length then
        Drives (step serialize) (.payload addr ((makePacket (rest.drop size)).encode, 0), d') t r
      else r = .panic := by
  obtain ⟨t₁, t₂, r', H₁, hready, H₂⟩ := Drives.nested WriteAll.step
    (fun s => (ForwardData.message addr size rest s.1, s.2)) (t := ((buf, 0), d))
    (fun s s' h => by simp only [step, h])
    (fun s s' h => ⟨_, by simp only [step, h], .inl rfl⟩) H
  obtain ⟨rfl, hsent⟩ := WriteAll.drives hne H₁
  refine ⟨t₂.2, hsent, ?_⟩
  split
  · next hle =>
    have hnext : step serialize (.message addr size rest t₁.1, t₁.2) =
        .again (.payload addr ((makePacket (rest.drop size)).encode, 0), t₂.2) := by
      simp only [step, hready, if_pos hle]
    exact (drives_iff_of_goes (.inl hnext)).1 H₂
  · next hgt =>
    have hlast : step serialize (.message addr size rest t₁.1, t₁.2) =
        .ready (.message addr size rest t₂.1, t₂.2) .panic := by
      simp only [step, hready, if_neg hgt]
    exact ((drives_iff_of_ready hlast).1 H₂).2

/-- What a datagram with a header leads to. -/
theorem drives_start (h : parseHeader data = .ret (.ok (addr, size, rest)))
    (H : Drives (step serialize) (.start data, d) t r) :
    if size ≤ rest.length then
      r = .ret (.ok addr) ∧ t.2.sent = d.sent ++ forwarded serialize addr (rest.drop size)
    else r = .panic := by
  have hstep : step serialize (.start data, d) =
      .again (.message addr size rest ((makePacket (serialize addr)).encode, 0), d) := by
    simp only [step, h]
  obtain ⟨d', hsent, hrest⟩ :=
    drives_message (encode_ne_nil _) ((drives_iff_of_goes (.inl hstep)).1 H)
  split
  · next hle =>
    rw [if_pos hle] at hrest
    obtain ⟨rfl, hsent'⟩ := drives_payload (encode_ne_nil _) hrest
    exact ⟨rfl, by rw [hsent', hsent, forwarded, List.append_assoc]⟩
  · next hgt =>
    rw [if_neg hgt] at hrest
    exact hrest

/-- With an answer for every byte `parse_and_forward_data` becomes ready. -/
theorem exists_drives (h : parseHeader data = .ret (.ok (addr, size, rest)))
    (hans : (forwarded serialize addr (rest.drop size)).length ≤ (sizes d.writes).length) :
    ∃ t r, Drives (step serialize) (.start data, d) t r := by
  rw [forwarded, List.length_append] at hans
  have hmessage := List.length_pos_iff.2 (encode_ne_nil (serialize addr))
  have hpayload := List.length_pos_iff.2 (encode_ne_nil (rest.drop size))
  obtain ⟨w₁, d₁, H₁, hle⟩ := WriteAll.exists_drives hmessage (d := d) (by omega)
  obtain ⟨w₂, d₂, H₂, -⟩ := WriteAll.exists_drives hpayload (d := d₁) (by omega)
  have hstep : step serialize (.start data, d) =
      .again (.message addr size rest ((makePacket (serialize addr)).encode, 0), d) := by
    simp only [step, h]
  have Hp : Drives (step serialize)
      (.payload addr ((makePacket (rest.drop size)).encode, 0), d₁) (.payload addr w₂, d₂)
      (.ret (.ok addr)) :=
    H₂.embed (fun s => (ForwardData.payload addr s.1, s.2)) (fun s s' h => by simp only [step, h])
      (fun s s' h => by simp only [step, h]) (fun s h => .ready (by simp only [step, h]))
  by_cases hle : size ≤ rest.length
  · exact ⟨_, _, .again hstep (H₁.embed (fun s => (ForwardData.message addr size rest s.1, s.2))
      (fun s s' h => by simp only [step, h]) (fun s s' h => by simp only [step, h])
      (fun s h => .again (by simp only [step, h, if_pos hle]) Hp))⟩
  · exact ⟨(.message addr size rest w₁, d₁), .panic, .again hstep
      (H₁.embed (fun s => (ForwardData.message addr size rest s.1, s.2))
        (fun s s' h => by simp only [step, h]) (fun s s' h => by simp only [step, h])
        (fun s h => .ready (by simp only [step, h, if_neg hle])))⟩

/-! ## Taking apart what was packed -/

/-- A header whose parts can be read. -/
theorem parseHeader_eq {a b atype : UInt8} {body : Bytes} (hbody : 2 ≤ body.length)
    (hsplit : splitHeader atype (a :: b :: 0 :: atype :: body) (by simp; omega) =
      some (size, rest))
    (haddr : parseAddr atype rest = .ret (.ok addr)) :
    parseHeader (a :: b :: 0 :: atype :: body) = .ret (.ok (addr, size, rest)) := by
  have hlen : ¬ (a :: b :: 0 :: atype :: body).length < 6 := by simp; omega
  simp only [parseHeader, dif_neg hlen]
  simp [hsplit, parseAddress, haddr, Socket.udp]

theorem parseAddr_v4 (ip : List.Vector UInt8 4) (port : UInt16) (data : Bytes) :
    parseAddr 0x01 (ip.toList ++ toBeBytes port ++ data) = .ret (.ok (.socket (.v4 ip port))) := by
  have hip : ip.toList.length = 4 := ip.toList_length
  simp [parseAddr, toBeBytes, hip, fromBeBytes_toBeBytes]
  omega

theorem parseAddr_v6 (ip : List.Vector UInt8 16) (port : UInt16) (data : Bytes) :
    parseAddr 0x04 (ip.toList ++ toBeBytes port ++ data) = .ret (.ok (.socket (.v6 ip port))) := by
  have hip : ip.toList.length = 16 := ip.toList_length
  simp [parseAddr, toBeBytes, hip, fromBeBytes_toBeBytes]
  omega

/-- An IP address is told from the data behind it. -/
theorem parseHeader_socket (s : SocketAddr) (data : Bytes) :
    ∃ size rest, parseHeader (packedUdpForward (.socket s) data) =
      .ret (.ok (.socket s, size, rest)) ∧ size ≤ rest.length ∧ rest.drop size = data := by
  cases s with
  | v4 ip port =>
    have hip : (ip.toList ++ toBeBytes port).length = 6 := by simp
    refine ⟨6, ip.toList ++ toBeBytes port ++ data, ?_, ?_, List.drop_left' hip⟩
    · exact parseHeader_eq (by simp; omega) rfl (parseAddr_v4 ip port data)
    · rw [List.length_append, hip]
      exact Nat.le_add_right _ _
  | v6 ip port =>
    have hip : (ip.toList ++ toBeBytes port).length = 18 := by simp
    refine ⟨18, ip.toList ++ toBeBytes port ++ data, ?_, ?_, List.drop_left' hip⟩
    · exact parseHeader_eq (by simp; omega) rfl (parseAddr_v6 ip port data)
    · rw [List.length_append, hip]
      exact Nat.le_add_right _ _

/-- The data of a name keeps the port in front of it. -/
theorem parseHeader_domain (host : String) (port : UInt16) (data : Bytes) :
    ∃ addr size rest, parseHeader (packedUdpForward (.domain host port) data) =
      .ret (.ok (addr, size, rest)) ∧ size ≤ rest.length ∧
        data.length < (rest.drop size).length := by
  let domain := host.toUTF8.data.toList
  let rest := domain ++ toBeBytes port ++ data
  have hrest : rest.length = domain.length + 2 + data.length := by
    simp [rest]
    omega
  have hsize : (UInt8.ofNat domain.length).toNat ≤ domain.length := by
    rw [UInt8.toNat_ofNat']
    exact Nat.mod_le _ _
  have haddr : ∃ addr, parseAddr 0x03 rest = .ret (.ok addr) := by
    simp only [parseAddr, dif_pos (show 2 ≤ rest.length by omega)]
    exact ⟨_, rfl⟩
  obtain ⟨addr, haddr⟩ := haddr
  refine ⟨addr, _, rest, parseHeader_eq ?_ rfl haddr, ?_, ?_⟩
  · simp
    omega
  · exact Nat.le_trans hsize (by omega)
  · rw [List.length_drop]
    have : (UInt8.ofNat domain.length).toNat + data.length < rest.length := by omega
    exact Nat.lt_sub_of_add_lt (by rw [Nat.add_comm]; exact this)

/-- The datagram is forwarded as `bytes` and `addr` is returned, however the writes are cut, and
with an answer for every byte it is forwarded. -/
structure Forwards (serialize : Addr → Bytes) (datagram : Bytes) (addr : Addr) (bytes : Bytes) :
    Prop where
  safe : ∀ (d : Duplex) t r, Drives (step serialize) (.start datagram, d) t r →
    r = .ret (.ok addr) ∧ t.2.sent = d.sent ++ bytes
  live : ∀ d : Duplex, bytes.length ≤ (sizes d.writes).length →
    ∃ t r, Drives (step serialize) (.start datagram, d) t r

theorem not_forwards_domain (serialize : Addr → Bytes) (host : String) (port : UInt16)
    (data : Bytes) : ¬ Forwards serialize (packedUdpForward (.domain host port) data)
      (.domain host port) (forwarded serialize (.domain host port) data) := by
  obtain ⟨addr, size, rest, hparse, hle, hlt⟩ := parseHeader_domain host port data
  intro h
  let bytes := forwarded serialize addr (rest.drop size)
  let d : Duplex := ⟨[], [], .replicate bytes.length (.upTo 0), [], []⟩
  obtain ⟨t, r, H⟩ : ∃ t r, Drives (step serialize)
      (.start (packedUdpForward (.domain host port) data), d) t r :=
    exists_drives hparse (by rw [length_sizes_replicate])
  have hsent := drives_start hparse H
  rw [if_pos hle] at hsent
  obtain ⟨hr, hsent'⟩ := h.safe d t r H
  rw [hsent.1] at hr
  cases hr
  rw [hsent.2] at hsent'
  have hlen := congrArg List.length hsent'
  simp only [forwarded, List.length_append, length_encode] at hlen
  omega

/-- What was packed is forwarded with its address and its data, if and only if the address is an IP
address. -/
theorem forwards_packed_iff (serialize : Addr → Bytes) (addr : Addr) (data : Bytes) :
    Forwards serialize (packedUdpForward addr data) addr (forwarded serialize addr data) ↔
      ∃ s, addr = .socket s := by
  cases addr with
  | socket s =>
    obtain ⟨size, rest, hparse, hle, hdrop⟩ := parseHeader_socket s data
    refine iff_of_true ⟨fun d t r H => ?_, fun d hans => ?_⟩ ⟨s, rfl⟩
    · have h := drives_start hparse H
      rw [if_pos hle, hdrop] at h
      exact h
    · exact exists_drives hparse (by rw [hdrop]; exact hans)
  | domain host port => exact iff_of_false (not_forwards_domain serialize host port data) nofun

theorem isAscii_a : IsAscii "a".toUTF8.data.toList := by
  have hbytes : "a".toUTF8.data.toList = [97] := rfl
  rw [hbytes]
  intro b hb
  obtain rfl := List.mem_singleton.1 hb
  decide

/-- A name of one byte. -/
theorem not_forwards :
    ¬ ∀ (serialize : Addr → Bytes) (host : String) (port : UInt16) (data : Bytes),
    1 ≤ host.utf8ByteSize → host.utf8ByteSize ≤ 255 → IsAscii host.toUTF8.data.toList →
    Forwards serialize (packedUdpForward (.domain host port) data) (.domain host port)
      (forwarded serialize (.domain host port) data) :=
  fun h => not_forwards_domain (fun _ => []) "a" 53 [1]
    (h _ _ _ _ (by decide) (by decide) isAscii_a)

/-! ## Datagrams from anywhere -/

/-- `parse_and_forward_data` returns, if it becomes ready. -/
def CrashFree (serialize : Addr → Bytes) (data : Bytes) : Prop :=
  ∀ (d : Duplex) t r, Drives (step serialize) (.start data, d) t r → r ≠ .panic ∧ r ≠ .undefined

/-- The address that the header announces is there, and so is the name of the announced length. -/
def Complete (data : Bytes) : Prop :=
  6 ≤ data.length → data[2]? = some 0 →
    (data[3]? = some 0x01 → 10 ≤ data.length) ∧ (data[3]? = some 0x04 → 22 ≤ data.length) ∧
      (data[3]? = some 0x03 → 7 ≤ data.length ∧ ∀ len ∈ data[4]?, len.toNat ≤ data.length - 5)

/-- The header is read without a crash, and the slice behind it is there. -/
def Readable (data : Bytes) : Prop :=
  parseHeader data ≠ .panic ∧ parseHeader data ≠ .undefined ∧
    ∀ addr size rest, parseHeader data = .ret (.ok (addr, size, rest)) → size ≤ rest.length

theorem crashFree_iff_readable : CrashFree serialize data ↔ Readable data := by
  rw [Readable]
  let d : Duplex := ⟨[], [], [], [], []⟩
  match h : parseHeader data with
  | .panic =>
    have hstep : step serialize (.start data, d) = .ready (.start data, d) .panic := by
      simp only [step, h]
    exact iff_of_false (fun hc => (hc d _ _ (.ready hstep)).1 rfl) fun hc => hc.1 rfl
  | .undefined =>
    have hstep : step serialize (.start data, d) = .ready (.start data, d) .undefined := by
      simp only [step, h]
    exact iff_of_false (fun hc => (hc d _ _ (.ready hstep)).2 rfl) fun hc => hc.2.1 rfl
  | .ret (.error e) =>
    refine iff_of_true (fun d t r H => ?_) ⟨nofun, nofun, nofun⟩
    have hstep : step serialize (.start data, d) = .ready (.start data, d) (.ret (.error e)) := by
      simp only [step, h]
    obtain ⟨-, rfl⟩ := (drives_iff_of_ready hstep).1 H
    exact ⟨nofun, nofun⟩
  | .ret (.ok (addr, size, rest)) =>
    constructor
    · intro hc
      refine ⟨nofun, nofun, fun addr' size' rest' heq => ?_⟩
      cases heq
      by_contra hgt
      let bytes := forwarded serialize addr (rest.drop size)
      let d : Duplex := ⟨[], [], .replicate bytes.length (.upTo 0), [], []⟩
      obtain ⟨t, r, H⟩ : ∃ t r, Drives (step serialize) (.start data, d) t r :=
        exists_drives h (by rw [length_sizes_replicate])
      have hr := drives_start h H
      rw [if_neg hgt] at hr
      exact (hc d t r H).1 hr
    · rintro ⟨-, -, hle⟩ d t r H
      have hr := drives_start h H
      rw [if_pos (hle addr size rest rfl)] at hr
      rw [hr.1]
      exact ⟨nofun, nofun⟩

/-- A header with an address that takes `need` bytes. -/
theorem readable_iff (need : Nat) (h : ¬ data.length < 6) (hfrag : data[2]? = some 0)
    (hatype : data[3]? = some atype) (hsplit : splitHeader atype data h = some (size, rest))
    (hok : need ≤ rest.length → ∃ addr, parseAddr atype rest = .ret (.ok addr))
    (hcrash : rest.length < need →
      parseAddr atype rest = .panic ∨ parseAddr atype rest = .undefined) :
    Readable data ↔ need ≤ rest.length ∧ size ≤ rest.length := by
  obtain ⟨_, hfrag⟩ := List.getElem?_eq_some_iff.1 hfrag
  obtain ⟨_, rfl⟩ := List.getElem?_eq_some_iff.1 hatype
  rw [Readable]
  rcases Nat.lt_or_ge rest.length need with hlt | hge
  · refine iff_of_false ?_ fun hc => absurd hc.1 (Nat.not_le.2 hlt)
    rintro ⟨hp, hu, -⟩
    rcases hcrash hlt with hcrash | hcrash
    · exact hp (by simp [parseHeader, h, hfrag, hsplit, parseAddress, hcrash])
    · exact hu (by simp [parseHeader, h, hfrag, hsplit, parseAddress, hcrash])
  · obtain ⟨addr, haddr⟩ := hok hge
    have hparse : parseHeader data = .ret (.ok (addr, size, rest)) := by
      simp [parseHeader, h, hfrag, hsplit, parseAddress, haddr, Socket.udp]
    rw [hparse]
    constructor
    · rintro ⟨-, -, hle⟩
      exact ⟨hge, hle addr size rest rfl⟩
    · rintro ⟨-, hle⟩
      refine ⟨fun hp => ?_, fun hu => ?_, fun addr' size' rest' heq => ?_⟩
      · cases hp
      · cases hu
      · cases heq
        exact hle

section
variable (h : ¬ data.length < 6) (hfrag : data[2]? = some 0)
include h hfrag

theorem readable_v4 (ht : data[3]? = some 0x01) : Readable data ↔ 10 ≤ data.length := by
  have hok : 6 ≤ (data.drop 4).length → ∃ addr, parseAddr 0x01 (data.drop 4) = .ret (.ok addr) :=
    fun hle => by
      rw [parseAddr, if_pos rfl, dif_pos hle]
      exact ⟨_, rfl⟩
  have hcrash : (data.drop 4).length < 6 → parseAddr 0x01 (data.drop 4) = .undefined :=
    fun hlt => by rw [parseAddr, if_pos rfl, dif_neg (Nat.not_le.2 hlt)]
  rw [readable_iff 6 h hfrag ht rfl hok fun hlt => .inr (hcrash hlt), List.length_drop]
  omega

theorem readable_v6 (ht : data[3]? = some 0x04) : Readable data ↔ 22 ≤ data.length := by
  have hok : 18 ≤ (data.drop 4).length → ∃ addr, parseAddr 0x04 (data.drop 4) = .ret (.ok addr) :=
    fun hle => by
      rw [parseAddr, if_neg (by decide), if_pos rfl, dif_pos hle]
      exact ⟨_, rfl⟩
  have hcrash : (data.drop 4).length < 18 → parseAddr 0x04 (data.drop 4) = .undefined :=
    fun hlt => by rw [parseAddr, if_neg (by decide), if_pos rfl, dif_neg (Nat.not_le.2 hlt)]
  rw [readable_iff 18 h hfrag ht rfl hok fun hlt => .inr (hcrash hlt), List.length_drop]
  omega

theorem readable_domain (ht : data[3]? = some 0x03) (hlen : data[4]? = some len) :
    Readable data ↔ 7 ≤ data.length ∧ len.toNat ≤ data.length - 5 := by
  have hok : 2 ≤ (data.drop 5).length → ∃ addr, parseAddr 0x03 (data.drop 5) = .ret (.ok addr) :=
    fun hle => by
      rw [parseAddr, if_neg (by decide), if_neg (by decide), if_pos rfl, dif_pos hle]
      exact ⟨_, rfl⟩
  have hcrash : (data.drop 5).length < 2 → parseAddr 0x03 (data.drop 5) = .panic :=
    fun hlt => by
      rw [parseAddr, if_neg (by decide), if_neg (by decide), if_pos rfl,
        dif_neg (Nat.not_le.2 hlt)]
  obtain ⟨_, rfl⟩ := List.getElem?_eq_some_iff.1 hlen
  rw [readable_iff 2 h hfrag ht rfl hok fun hlt => .inl (hcrash hlt), List.length_drop]
  omega

theorem readable_other (h1 : data[3]? ≠ some 0x01) (h4 : data[3]? ≠ some 0x04)
    (h3 : data[3]? ≠ some 0x03) : Readable data := by
  have hlt : 3 < data.length := by omega
  rw [List.getElem?_eq_getElem hlt, Ne, Option.some.injEq] at h1 h4 h3
  obtain ⟨_, hfrag⟩ := List.getElem?_eq_some_iff.1 hfrag
  simp [Readable, parseHeader, h, hfrag, splitHeader, h1, h3, h4]

end

/-- No datagram crashes the relay but those whose address or name is cut off. -/
theorem crashFree_iff (serialize : Addr → Bytes) (data : Bytes) :
    CrashFree serialize data ↔ Complete data := by
  rw [crashFree_iff_readable, Complete]
  by_cases h : data.length < 6
  · refine iff_of_true ?_ fun h' => absurd h' (Nat.not_le.2 h)
    simp [Readable, parseHeader, h]
  have hle := Nat.not_lt.1 h
  by_cases hfrag : data[2]? = some 0
  · simp only [hle, hfrag, true_imp_iff]
    by_cases h1 : data[3]? = some 0x01
    · simp [readable_v4 h hfrag h1, h1]
    by_cases h4 : data[3]? = some 0x04
    · simp [readable_v6 h hfrag h4, h4]
    by_cases h3 : data[3]? = some 0x03
    · have hlen := List.getElem?_eq_getElem (Nat.lt_of_succ_lt hle)
      simp [readable_domain h hfrag h3 hlen, h3, hlen]
    · simp [readable_other h hfrag h1 h4 h3, h1, h4, h3]
  · refine iff_of_true ?_ fun _ h' => absurd h' hfrag
    rw [List.getElem?_eq_getElem (by omega), Option.some.injEq] at hfrag
    simp [Readable, parseHeader, h, hfrag]

/-- An IPv6 header of six bytes: the cast reads 16 bytes past its end. -/
theorem not_crashFree : ¬ ∀ (serialize : Addr → Bytes) (data : Bytes), data.length ≤ 1500 →
    CrashFree serialize data := by
  intro h
  have hstep : step (fun _ => []) (.start [0, 0, 0, 4, 0, 0], (⟨[], [], [], [], []⟩ : Duplex)) =
      .ready (.start [0, 0, 0, 4, 0, 0], ⟨[], [], [], [], []⟩) .undefined := rfl
  exact (h (fun _ => []) [0, 0, 0, 4, 0, 0] (by decide) _ _ _ (.ready hstep)).2 rfl

end ForwardData
end Fuso

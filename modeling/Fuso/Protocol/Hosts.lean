import Fuso.Compress.Lz4
import Fuso.Encryption.Encryptor
import Fuso.Protocol.Packet

/-!
# Length prefixes between hosts

The other modules model a little-endian host. Here the byte order of a host is a parameter, of the
encoders, which write a length with `to_le_bytes`, and of the decoders, which read it out of memory
as it lies there. The encoders write the same bytes everywhere; the decoders are those of the other
modules on little-endian hosts only, and `length_prefix_iff` says which lengths are read back.
-/

namespace Fuso
open Turn

inductive ByteOrder where
  | little
  | big
  deriving DecidableEq

/-- A host, by its byte order and the width of its `usize`. -/
structure Host where
  order : ByteOrder
  usizeBits : Nat
  wide : 32 ≤ usizeBits

namespace Host
variable (host : Host)

/-- The integer that lies in memory. -/
def load (bytes : Bytes) : Nat :=
  match host.order with
  | .little => fromLeBytes bytes
  | .big => u32FromBe bytes

/-- An integer in memory. -/
def store (n : Nat) : Bytes :=
  match host.order with
  | .little => Fuso.toLeBytes n
  | .big => putU32 n

def toLe (n : Nat) : Nat :=
  match host.order with
  | .little => n
  | .big => u32FromBe (Fuso.toLeBytes n)

def toLeBytes (n : Nat) : Bytes := host.store (host.toLe n)

/-- `as usize` of an `i32`, which extends the sign. -/
def i32AsUsize (n : Nat) : Nat := if n < 2 ^ 31 then n else n + (2 ^ host.usizeBits - 2 ^ 32)

/-- The host reads the length as it was written. -/
def ReadsBack (n : Nat) : Prop := host.order = .little ∨ Fuso.toLeBytes n = putU32 n

instance (n : Nat) : Decidable (host.ReadsBack n) := inferInstanceAs (Decidable (_ ∨ _))

variable {host}

/-- `to_le_bytes` is the same on all hosts. -/
@[simp] theorem toLeBytes_eq (n : Nat) : host.toLeBytes n = Fuso.toLeBytes n := by
  obtain ⟨order, bits, wide⟩ := host
  cases order with
  | little => rfl
  | big =>
    have h : Fuso.toLeBytes (u32FromBe (Fuso.toLeBytes n)) = (Fuso.toLeBytes n).reverse :=
      toLeBytes_fromLeBytes (by simp)
    simp only [toLeBytes, store, toLe, putU32, h, List.reverse_reverse]

theorem load_little (h : host.order = .little) (bytes : Bytes) :
    host.load bytes = fromLeBytes bytes := by
  simp only [load, h]

theorem load_iff (h : n < 2 ^ 32) : host.load (Fuso.toLeBytes n) = n ↔ host.ReadsBack n := by
  obtain ⟨order, bits, wide⟩ := host
  cases order with
  | little => exact ⟨fun _ => .inl rfl, fun _ => fromLeBytes_toLeBytes h⟩
  | big =>
    have hlen : (putU32 n).length = 4 := by simp [putU32]
    simp only [load, u32FromBe, ReadsBack, reduceCtorEq, false_or]
    constructor
    · intro hload
      have hback : fromLeBytes (putU32 n) = n := hload
      calc Fuso.toLeBytes n = Fuso.toLeBytes (fromLeBytes (putU32 n)) := by rw [hback]
        _ = putU32 n := toLeBytes_fromLeBytes hlen
    · intro heq
      calc fromLeBytes (putU32 n) = fromLeBytes (Fuso.toLeBytes n) := by rw [heq]
        _ = n := fromLeBytes_toLeBytes h

theorem i32AsUsize_iff (h : n < 2 ^ 31) : host.i32AsUsize m = n ↔ m = n := by
  have hpow : 2 ^ 32 ≤ 2 ^ host.usizeBits := Nat.pow_le_pow_right (by decide) host.wide
  rw [i32AsUsize]
  split <;> omega

end Host

/-! ## Packets -/

def Packet.encodeOn (host : Host) (p : Packet) : Bytes :=
  putU32 p.magic.toNat ++ host.toLeBytes p.dataLen.toNat ++ p.payload

theorem Packet.encodeOn_eq (host : Host) (p : Packet) : p.encodeOn host = p.encode := by
  rw [encodeOn, Host.toLeBytes_eq, encode]

namespace RecvPacket

/-- The field `data_len` of the `Head` that is laid over the buffer. -/
def dataLen (host : Host) (buf : Bytes) : Nat := host.load ((buf.drop 4).take 4)

def lookOn (host : Host) (this : RecvPacket) : Look :=
  match this.state with
  | .none =>
    if this.offset = headSize then .continue { this with state := .head }
    else if this.buf.isEmpty then .read { this with buf := .replicate headSize 0, offset := 0 }
    else .read this
  | .head =>
    if this.offset = this.buf.length then
      let magic := this.buf.take 4
      if !goodPacket magic then .break (.error (.packet magic))
      else
        let len := dataLen host this.buf
        if len = 0 then .break (.ok emptyPacket)
        else .read ⟨.replicate len 0, .body, 0⟩
    else .read this
  | .body =>
    if this.offset = this.buf.length then .break (.ok (makePacket this.buf)) else .read this

theorem lookOn_little {host : Host} (h : host.order = .little) (this : RecvPacket) :
    this.lookOn host = this.look := by
  simp only [lookOn, dataLen, Host.load_little h]
  rfl

theorem dataLen_iff {sender receiver : Host} {payload : Bytes} (h : payload.length < 2 ^ 32) :
    dataLen receiver (((makePacket payload).encodeOn sender).take headSize) = payload.length ↔
      receiver.ReadsBack payload.length := by
  have hhead : (((makePacket payload).encodeOn sender).take headSize).drop 4 =
      toLeBytes payload.length := by
    rw [Packet.encodeOn_eq, encode_makePacket h, List.append_assoc]
    rfl
  rw [dataLen, hhead, List.take_of_length_le (Nat.le_of_eq length_toLeBytes)]
  exact Host.load_iff h

/-- Behind the head of a packet the body that is to be read is as long as the payload if and only if
the length is read back. -/
theorem lookOn_iff {sender receiver : Host} {payload : Bytes} (hne : payload ≠ [])
    (h : payload.length < 2 ^ 32) :
    lookOn receiver ⟨((makePacket payload).encodeOn sender).take headSize, .head, headSize⟩ =
      .read ⟨.replicate payload.length 0, .body, 0⟩ ↔ receiver.ReadsBack payload.length := by
  have hlen : payload.length ≠ 0 := by simpa using hne
  have hiff : dataLen receiver (((makePacket payload).encodeOn sender).take headSize) =
      payload.length ↔ receiver.ReadsBack payload.length := dataLen_iff h
  have hhead : ((makePacket payload).encodeOn sender).take headSize =
      MAGIC ++ toLeBytes payload.length := by
    rw [Packet.encodeOn_eq, encode_makePacket h]
    rfl
  rw [hhead] at hiff ⊢
  have hfull : headSize = (MAGIC ++ toLeBytes payload.length).length := rfl
  have hgood : goodPacket ((MAGIC ++ toLeBytes payload.length).take 4) = true := rfl
  simp only [lookOn, ← hfull, hgood, if_true, Bool.not_true, Bool.false_eq_true, if_false]
  rw [← hiff]
  split
  · next h0 =>
    rw [h0]
    exact ⟨nofun, fun heq => absurd heq.symm hlen⟩
  · constructor
    · intro heq
      injection heq with heq
      injection heq with hbuf
      simpa using congrArg List.length hbuf
    · intro heq
      rw [heq]

end RecvPacket

/-! ## Encrypted messages -/

def rsaCipherOn (host : Host) (rsa : RsaCrate Publ Priv G) (rsaPubl : Publ) (rsaPriv : Priv) :
    Cipher G where
  encrypt rng buf :=
    match rsa.encrypt rsaPubl rng buf with
    | (none, rng) => (.error .rsa, rng)
    | (some encryptedData, rng) =>
      let encryptedLen := encryptedData.length % 2 ^ 32
      (.ok (host.toLeBytes encryptedLen ++ encryptedData), rng)
  decrypt rbuf :=
    match rsa.decrypt rsaPriv rbuf with
    | none => .error .rsa
    | some decrypted => .ok decrypted

def aesCipherOn (host : Host) (aes : AesCrate) (iv key : Bytes) : Cipher Unit where
  encrypt _ buf :=
    match aes.encryptPadded key iv buf with
    | none => (.error .aes, ())
    | some encrypted =>
      let encryptedLen := encrypted.length % 2 ^ 32
      (.ok ((host.toLeBytes encryptedLen ++ encrypted).take (encryptedLen + 4)), ())
  decrypt rbuf :=
    match aes.decryptPadded key iv rbuf with
    | none => .error .aes
    | some decrypted => .ok decrypted

theorem rsaCipherOn_eq (host : Host) (rsa : RsaCrate Publ Priv G) (rsaPubl : Publ)
    (rsaPriv : Priv) : rsaCipherOn host rsa rsaPubl rsaPriv = rsaCipher rsa rsaPubl rsaPriv := by
  simp only [rsaCipherOn, Host.toLeBytes_eq]
  rfl

theorem aesCipherOn_eq (host : Host) (aes : AesCrate) (iv key : Bytes) :
    aesCipherOn host aes iv key = aesCipher aes iv key := by
  simp only [aesCipherOn, Host.toLeBytes_eq]
  rfl

namespace Encryptor
variable {G : Type} {C : Cipher G} {T : Type}

/-- The `u32` at the beginning of `rbuf`. -/
def messageLen (host : Host) (rbuf : Bytes) : Nat := host.load rbuf

def readStepOn [AsyncRead T] (host : Host) (buf : ReadBuf) :
    Encryptor C T × Bytes → Turn (Encryptor C T × Bytes) (ReadBuf × Result Nat)
  | (this, rbuf) =>
    if this.rpos = rbuf.length ∧ this.dinit then
      let this : Encryptor C T := { this with rpos := 0, dinit := false }
      let rem := buf.remaining
      match C.decrypt rbuf with
      | .error e => .ready (this, rbuf) (buf, .error e)
      | .ok decrypted =>
        if decrypted.length ≤ rem then .ready (this, rbuf) (buf.put decrypted, .ok decrypted.length)
        else
          .ready ({ this with cache := this.cache.pushBack (decrypted.drop rem) }, rbuf)
            (buf.put (decrypted.take rem), .ok rem)
    else
      let (this, rbuf) : Encryptor C T × Bytes :=
        if this.rpos = rbuf.length then
          ({ this with rpos := 0, dinit := true }, List.replicate (messageLen host rbuf) 0)
        else (this, rbuf)
      if rbuf.length < this.rpos then .ready (this, rbuf) (buf, .error .panic)
      else match AsyncRead.pollRead this.target (.new (rbuf.length - this.rpos)) with
      | (target, _, .ready (.error e)) => .ready ({ this with target }, rbuf) (buf, .error e)
      | (target, _, .pending) => .pending ({ this with target, rbuf := some rbuf }, rbuf)
      | (target, data, .ready (.ok n)) =>
        if n = 0 then .ready ({ this with target }, rbuf) (buf, .ok 0)
        else
          .again ({ this with target, rpos := this.rpos + n },
            overwrite rbuf this.rpos data.filled)

theorem readStepOn_little [AsyncRead T] {host : Host} (h : host.order = .little) (buf : ReadBuf)
    (s : Encryptor C T × Bytes) : readStepOn host buf s = readStep buf s := by
  simp only [readStepOn, messageLen, Host.load_little h]
  rfl

/-- Behind the four bytes of a length the message that is to be read is as long as they say. -/
theorem readStepOn_size [AsyncRead T] {host : Host} {this : Encryptor C T} {rbuf : Bytes}
    (hfull : this.rpos = rbuf.length) (hd : this.dinit = false) (hlen : messageLen host rbuf ≠ 0)
    (buf : ReadBuf) : readStepOn host buf (this, rbuf) = readStepOn host buf
      ({ this with rpos := 0, dinit := true }, .replicate (messageLen host rbuf) 0) := by
  simp only [readStepOn, hfull, hd, hlen.symm, List.length_replicate, Bool.false_eq_true, and_false,
    false_and, if_true, if_false]

end Encryptor

/-! ## Compressed blocks -/

namespace Lz4Compress
variable {S E D : Type}

/-- The `i32` at the beginning of `lz4_dbuf`, as a size. -/
def needSize (host : Host) (dbuf : Bytes) : Nat := host.i32AsUsize (host.load (dbuf.take 4))

/-- The buffer that `poll_encode_write` writes for a block that was compressed. -/
def ebufOn (host : Host) (compressed : Bytes) : Bytes :=
  host.toLeBytes compressed.length ++ compressed

def sizeTurnOn (host : Host) (m : Lz4Compress S E D) (dbuf : Bytes) (buf : ReadBuf) :
    Turn (Lz4Compress S E D) (ReadBuf × Exit Nat) :=
  let maxBytes := compressBound m.lz4CompressMaxBytes
  if needSize host dbuf = 0 ∨ maxBytes < needSize host dbuf then
    .ready { m with lz4Dbuf := none } (buf, .ret (.error (.lz4 .decompress)))
  else .again { m with
    lz4Dneed := needSize host dbuf, lz4Doffset := 0, lz4Dinit := true
    lz4Dbuf := some (.replicate maxBytes 0) }

theorem sizeTurnOn_little {host : Host} (h : host.order = .little) (m : Lz4Compress S E D)
    (dbuf : Bytes) (buf : ReadBuf) : m.sizeTurnOn host dbuf buf = m.sizeTurn dbuf buf := by
  have hbound : compressBound m.lz4CompressMaxBytes < 2 ^ 31 := by
    rw [compressBound]
    split <;> omega
  simp only [sizeTurnOn, sizeTurn, needSize, Host.load_little h, Host.i32AsUsize]
  by_cases hlt : fromLeBytes (dbuf.take 4) < 2 ^ 31
  · simp only [if_pos hlt]
  · -- a negative size is refused, as its bytes are by themselves
    simp only [if_neg hlt]
    rw [if_pos (.inr (by omega)), if_pos (.inr (by omega))]

theorem needSize_iff {sender receiver : Host} {compressed : Bytes}
    (h : compressed.length < 2 ^ 31) :
    needSize receiver (ebufOn sender compressed) = compressed.length ↔
      receiver.ReadsBack compressed.length := by
  have htake : (ebufOn sender compressed).take 4 = toLeBytes compressed.length := by
    rw [ebufOn, Host.toLeBytes_eq]
    rfl
  rw [needSize, htake, Host.i32AsUsize_iff h]
  exact Host.load_iff (by omega)

/-- Behind the four bytes of a size the block that is to be read is as long as the one that was
compressed if and only if the size is read back. -/
theorem sizeTurnOn_iff {sender receiver : Host} {compressed : Bytes} {m : Lz4Compress S E D}
    (hpos : compressed ≠ []) (hle : compressed.length ≤ compressBound m.lz4CompressMaxBytes)
    (buf : ReadBuf) :
    (∃ m', m.sizeTurnOn receiver (ebufOn sender compressed) buf = .again m' ∧
      m'.lz4Dneed = compressed.length) ↔ receiver.ReadsBack compressed.length := by
  have hbound : compressBound m.lz4CompressMaxBytes < 2 ^ 31 := by
    rw [compressBound]
    split <;> omega
  have hlen : compressed.length ≠ 0 := by simpa using hpos
  have hiff : needSize receiver (ebufOn sender compressed) = compressed.length ↔
      receiver.ReadsBack compressed.length := needSize_iff (Nat.lt_of_le_of_lt hle hbound)
  rw [← hiff]
  constructor
  · rintro ⟨m', hm', hneed⟩
    rw [sizeTurnOn] at hm'
    split at hm'
    · cases hm'
    · cases hm'
      exact hneed
  · intro hneed
    have hgood : ¬ (needSize receiver (ebufOn sender compressed) = 0 ∨
        compressBound m.lz4CompressMaxBytes < needSize receiver (ebufOn sender compressed)) := by
      omega
    simp only [sizeTurnOn, if_neg hgood]
    exact ⟨_, rfl, hneed⟩

theorem encodeTurn_ebuf (lib : Lz4 E D) (host : Host) (m : Lz4Compress S E D) (ins : E)
    (buf : Bytes) (h : m.encodeTurn lib ins buf = .again m') :
    m'.lz4Ebuf = some (ebufOn host (m.compress lib ins buf).2) := by
  simp only [encodeTurn] at h
  split at h
  · cases h
  · split at h
    · cases h
    · cases h
      simp only [ebufOn, Host.toLeBytes_eq]

end Lz4Compress

/-! ## Between two hosts -/

/-- A length is read back as it was written exactly when the receiving host is little-endian or the
four bytes of the length are the same backwards. -/
theorem length_prefix_iff (sender receiver : Host) :
    (∀ payload : Bytes, payload.length < 2 ^ 32 →
      (RecvPacket.dataLen receiver (((makePacket payload).encodeOn sender).take headSize) =
        payload.length ↔ receiver.ReadsBack payload.length)) ∧
    (∀ (aes : AesCrate) (iv key buf encrypted wire : Bytes),
      aes.encryptPadded key iv buf = some encrypted → encrypted.length < 2 ^ 32 →
      (aesCipherOn sender aes iv key).encrypt () buf = (.ok wire, ()) →
      (Encryptor.messageLen receiver (wire.take 4) = encrypted.length ↔
        receiver.ReadsBack encrypted.length)) ∧
    (∀ (Publ Priv G : Type) (rsa : RsaCrate Publ Priv G) (rsaPubl : Publ) (rsaPriv : Priv)
      (rng rng' : G) (buf encrypted wire : Bytes),
      rsa.encrypt rsaPubl rng buf = (some encrypted, rng') → encrypted.length < 2 ^ 32 →
      (rsaCipherOn sender rsa rsaPubl rsaPriv).encrypt rng buf = (.ok wire, rng') →
      (Encryptor.messageLen receiver (wire.take 4) = encrypted.length ↔
        receiver.ReadsBack encrypted.length)) ∧
    (∀ compressed : Bytes, compressed.length < 2 ^ 31 →
      (Lz4Compress.needSize receiver (Lz4Compress.ebufOn sender compressed) = compressed.length ↔
        receiver.ReadsBack compressed.length)) := by
  refine ⟨fun payload h => ?_, fun aes iv key buf encrypted wire henc h hwire => ?_,
    fun Publ Priv G rsa rsaPubl rsaPriv rng rng' buf encrypted wire henc h hwire => ?_,
    fun compressed h => ?_⟩
  · exact RecvPacket.dataLen_iff h
  · have htake : wire.take 4 = toLeBytes encrypted.length := by
      simp only [aesCipherOn_eq, aesCipher, henc, Nat.mod_eq_of_lt h, Prod.mk.injEq,
        Except.ok.injEq, and_true] at hwire
      rw [← hwire, List.take_take, Nat.min_eq_left (Nat.le_add_left _ _)]
      rfl
    rw [Encryptor.messageLen, htake]
    exact Host.load_iff h
  · have htake : wire.take 4 = toLeBytes encrypted.length := by
      simp only [rsaCipherOn_eq, rsaCipher, henc, Nat.mod_eq_of_lt h, Prod.mk.injEq,
        Except.ok.injEq, and_true] at hwire
      rw [← hwire]
      rfl
    rw [Encryptor.messageLen, htake]
    exact Host.load_iff h
  · exact Lz4Compress.needSize_iff h

/-- A packet with one byte between two hosts of which the receiver is little-endian. -/
theorem length_prefix_iff_little :
    RecvPacket.dataLen ⟨.little, 64, by decide⟩
      (((makePacket [0]).encodeOn ⟨.big, 32, by decide⟩).take headSize) = 1 :=
  ((length_prefix_iff ⟨.big, 32, by decide⟩ ⟨.little, 64, by decide⟩).1 [0] (by decide)).2
    (.inl rfl)

/-- A big-endian host takes a payload of one byte for one of 16777216 bytes. -/
theorem not_length_prefix :
    RecvPacket.dataLen ⟨.big, 32, by decide⟩
      (((makePacket [0]).encodeOn ⟨.little, 64, by decide⟩).take headSize) = 16777216 ∧
    ¬ ∀ (sender receiver : Host) (payload : Bytes), payload.length < 2 ^ 32 →
      RecvPacket.dataLen receiver (((makePacket payload).encodeOn sender).take headSize) =
        payload.length := by
  have hread : RecvPacket.dataLen ⟨.big, 32, by decide⟩
      (((makePacket [0]).encodeOn ⟨.little, 64, by decide⟩).take headSize) = 16777216 := by decide
  refine ⟨hread, fun h => ?_⟩
  have := h ⟨.little, 64, by decide⟩ ⟨.big, 32, by decide⟩ [0] (by decide)
  rw [hread] at this
  exact absurd this (by decide)

end Fuso

import Fuso.Async.Endian
import Fuso.Theory.Frame
import Fuso.Theory.Turn

/-!
# Packets

A packet is a magic number, the length of its payload and the payload; `SendPacket` writes one and
`RecvPacket` reads one. The encodings of well-formed packets are frames, so they are told apart in a
stream (`WellFormed.encode_inj`).
-/

namespace Fuso
open Turn

structure Packet where
  magic : UInt32
  dataLen : UInt32
  payload : Bytes
  deriving DecidableEq

def MAGIC : Bytes := [0x66, 0x75, 0x73, 0x6f]

def headSize : Nat := 8

def goodPacket (magicBuf : Bytes) : Bool := magicBuf == MAGIC

def emptyPacket : Packet where
  magic := .ofNat (u32FromBe MAGIC)
  dataLen := 0
  payload := []

def makePacket (buf : Bytes) : Packet where
  magic := .ofNat (u32FromBe MAGIC)
  dataLen := .ofNat buf.length
  payload := buf

def Packet.encode (p : Packet) : Bytes :=
  putU32 p.magic.toNat ++ toLeBytes p.dataLen.toNat ++ p.payload

/-! ## Sending -/

structure SendPacket where
  buf : Bytes
  offset : Nat
  deriving DecidableEq

namespace SendPacket

def new (buf : Bytes) : SendPacket := ⟨buf, 0⟩

/-- A turn of the loop of `poll`. -/
def step [AsyncWrite W] : SendPacket × W → Turn (SendPacket × W) (Result Unit)
  | (this, writer) =>
    match pollWrite writer (this.buf.drop this.offset) with
    | (writer, .pending) => .pending (this, writer)
    | (writer, .ready (.error e)) => .ready (this, writer) (.error e)
    | (writer, .ready (.ok n)) =>
      let this := { this with offset := this.offset + n }
      if this.offset = this.buf.length then .ready (this, writer) (.ok ())
      else .again (this, writer)

theorem buf_step [AsyncWrite W] {this send : SendPacket} {writer writer' : W}
    (h : step (this, writer) = .again (send, writer')) : send.buf = this.buf := by
  simp only [step] at h
  split at h
  · cases h
  · cases h
  · split at h
    · cases h
    · cases h
      rfl

end SendPacket

/-! ## Receiving -/

/-- `State` of a `RecvPacket`. -/
inductive RecvState where
  | none
  | head
  | body
  deriving DecidableEq

structure RecvPacket where
  buf : Bytes
  state : RecvState
  offset : Nat
  deriving DecidableEq

namespace RecvPacket

def new : RecvPacket := ⟨[], .none, 0⟩

/-- What the match on the state makes of a turn, before it reads: the loop goes round, the packet is
there or is refused, or there is more to read. -/
inductive Look where
  | continue (this : RecvPacket)
  | break (r : Result Packet)
  | read (this : RecvPacket)

/-- The match on the state. The buffer of a body is not initialised; it is overwritten before it is
read. -/
def look (this : RecvPacket) : Look :=
  match this.state with
  | .none =>
    if this.offset = headSize then .continue { this with state := .head }
    else if this.buf.isEmpty then .read { this with buf := .replicate headSize 0, offset := 0 }
    else .read this
  | .head =>
    if this.offset = this.buf.length then
      let magic := this.buf.take 4
      if !goodPacket magic then .break (.error (.packet magic))
      else
        let len := fromLeBytes ((this.buf.drop 4).take 4)
        if len = 0 then .break (.ok emptyPacket)
        else .read ⟨.replicate len 0, .body, 0⟩
    else .read this
  | .body =>
    if this.offset = this.buf.length then .break (.ok (makePacket this.buf)) else .read this

/-- A turn of the loop of `poll`. -/
def step [AsyncRead R] : RecvPacket × R → Turn (RecvPacket × R) (Result Packet)
  | (this, reader) =>
    match this.look with
    | .continue this => .again (this, reader)
    | .break r => .ready (this, reader) r
    | .read this =>
      match pollRead reader (.new (this.buf.length - this.offset)) with
      | (reader, _, .ready (.error e)) => .ready (this, reader) (.error e)
      | (reader, _, .pending) => .pending (this, reader)
      | (reader, buf, .ready (.ok n)) =>
        if n = 0 then .ready (this, reader) (.error (.io .connectionReset))
        else
          .again ({ this with buf := overwrite this.buf this.offset buf.filled,
                              offset := this.offset + n }, reader)

end RecvPacket

/-! ## Well-formed packets -/

/-- The packets that `make_packet` builds, if the payload is not too long for its length field. -/
structure Packet.WellFormed (p : Packet) : Prop where
  made : p = makePacket p.payload
  short : p.payload.length < 2 ^ 32

/-- The bytes of a packet as frames: eight bytes, then as many as the last four of them say. -/
def packetFormat : Format UInt8 where
  head := headSize
  body head := fromLeBytes (head.drop 4)

theorem wellFormed_makePacket (h : buf.length < 2 ^ 32) : (makePacket buf).WellFormed := ⟨rfl, h⟩

theorem encode_makePacket (h : buf.length < 2 ^ 32) :
    (makePacket buf).encode = MAGIC ++ toLeBytes buf.length ++ buf := by
  have hlen : (UInt32.ofNat buf.length).toNat = buf.length := by
    rw [UInt32.toNat_ofNat', Nat.mod_eq_of_lt h]
  simp only [Packet.encode, makePacket, hlen]
  rfl

theorem emptyPacket_eq : emptyPacket = makePacket [] := rfl

namespace Packet.WellFormed
variable {p q : Packet}

theorem encode_eq (h : p.WellFormed) :
    p.encode = MAGIC ++ toLeBytes p.payload.length ++ p.payload := by
  rw [h.made]
  exact encode_makePacket h.short

theorem length_encode (h : p.WellFormed) : p.encode.length = headSize + p.payload.length := by
  simp [h.encode_eq, MAGIC, headSize]
  omega

theorem frame (h : p.WellFormed) : packetFormat.Frame p.encode := by
  have hlen := h.length_encode
  refine ⟨by simp [packetFormat, hlen], ?_⟩
  have htake : p.encode.take headSize = MAGIC ++ toLeBytes p.payload.length := by
    rw [h.encode_eq]
    exact List.take_left' rfl
  simp only [packetFormat, htake, hlen]
  rw [show (MAGIC ++ toLeBytes p.payload.length).drop 4 = toLeBytes p.payload.length from rfl,
    fromLeBytes_toLeBytes h.short]

theorem encode_ne_nil (h : p.WellFormed) : p.encode ≠ [] := by
  intro hnil
  have := h.length_encode
  simp [hnil, headSize] at this
  omega

/-- Packets that are encoded alike are the same. -/
theorem eq_of_encode (hp : p.WellFormed) (hq : q.WellFormed) (h : p.encode = q.encode) : p = q := by
  rw [hp.encode_eq, hq.encode_eq] at h
  have hpay : p.payload = q.payload := congrArg (List.drop headSize) h
  rw [hp.made, hq.made, hpay]

theorem encode_inj (hp : p.WellFormed) (hq : q.WellFormed) (h : p.encode ++ r = q.encode ++ r') :
    p = q ∧ r = r' :=
  (hp.frame.inj hq.frame h).imp_left (hp.eq_of_encode hq)

end Packet.WellFormed
end Fuso

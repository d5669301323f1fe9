import Mathlib.Data.Vector.Basic
import Fuso.Async.Stream

/-!
# Addresses and `parse_address`

`Addr` and `Socket` as far as the handshake builds them, and `parseAddress`, which reads the address
of a SOCKS request. `Dst` is the other direction, the DST.ADDR and DST.PORT fields of RFC 1928 as a
client encodes them; `Dst.parseAddress_body` says that the two agree.
-/

namespace Fuso

/-! ## Ports and names -/

def fromBeBytes (a b : UInt8) : UInt16 := .ofNat (a.toNat * 256 + b.toNat)

def toBeBytes (port : UInt16) : Bytes :=
  [.ofNat (port.toNat / 256), .ofNat (port.toNat % 256)]

@[simp] theorem length_toBeBytes (port : UInt16) : (toBeBytes port).length = 2 := rfl

theorem fromBeBytes_toBeBytes (port : UInt16) :
    fromBeBytes (.ofNat (port.toNat / 256)) (.ofNat (port.toNat % 256)) = port := by
  have h := port.toNat_lt
  apply UInt16.toNat.inj
  simp only [fromBeBytes, UInt16.toNat_ofNat', UInt8.toNat_ofNat']
  omega

def isContinuation (b : UInt8) : Bool := b &&& 0xC0 == 0x80

/-- The length of the UTF-8 sequence that starts with `b`, 0 when none does. -/
def utf8CharWidth (b : UInt8) : Nat :=
  if b < 0x80 then 1 else if b < 0xC2 then 0 else if b < 0xE0 then 2
  else if b < 0xF0 then 3 else if b < 0xF5 then 4 else 0

/-- Whether `b₁` may follow `b₀`: overlong forms, surrogates and what lies past U+10FFFF may not. -/
def validSecond (b₀ b₁ : UInt8) : Bool :=
  utf8CharWidth b₀ ≠ 0 && isContinuation b₁ &&
    !(b₀ == 0xE0 && b₁ < 0xA0) && !(b₀ == 0xED && b₁ ≥ 0xA0) &&
    !(b₀ == 0xF0 && b₁ < 0x90) && !(b₀ == 0xF4 && b₁ ≥ 0x90)

private def bits (b mask : UInt8) : Nat := (b &&& mask).toNat

/-- The characters of `String::from_utf8_lossy`: every maximal part of an ill-formed sequence is one
replacement character. -/
def lossyChars : Bytes → List Char
  | [] => []
  | b₀ :: rest =>
    if b₀ < 0x80 then .ofNat b₀.toNat :: lossyChars rest
    else match rest with
    | [] => ['\uFFFD']
    | b₁ :: rest₁ =>
      if !validSecond b₀ b₁ then '\uFFFD' :: lossyChars (b₁ :: rest₁)
      else if utf8CharWidth b₀ = 2 then
        .ofNat (bits b₀ 0x1F * 64 + bits b₁ 0x3F) :: lossyChars rest₁
      else match rest₁ with
      | [] => ['\uFFFD']
      | b₂ :: rest₂ =>
        if !isContinuation b₂ then '\uFFFD' :: lossyChars (b₂ :: rest₂)
        else if utf8CharWidth b₀ = 3 then
          .ofNat (bits b₀ 0x0F * 4096 + bits b₁ 0x3F * 64 + bits b₂ 0x3F) :: lossyChars rest₂
        else match rest₂ with
        | [] => ['\uFFFD']
        | b₃ :: rest₃ =>
          if !isContinuation b₃ then '\uFFFD' :: lossyChars (b₃ :: rest₃)
          else .ofNat (bits b₀ 0x07 * 262144 + bits b₁ 0x3F * 4096 + bits b₂ 0x3F * 64 +
            bits b₃ 0x3F) :: lossyChars rest₃

def fromUtf8Lossy (bytes : Bytes) : String := .ofList (lossyChars bytes)

def IsAscii (bytes : Bytes) : Prop := ∀ b ∈ bytes, b < 0x80

instance (bytes : Bytes) : Decidable (IsAscii bytes) := inferInstanceAs (Decidable (∀ b ∈ bytes, _))

theorem lossyChars_ascii {bytes : Bytes} (h : IsAscii bytes) :
    lossyChars bytes = bytes.map fun b => .ofNat b.toNat := by
  induction bytes with
  | nil => rfl
  | cons b bytes ih =>
    have hb : b < 0x80 := h b List.mem_cons_self
    rw [lossyChars.eq_def]
    simp only [if_pos hb, ih fun c hc => h c (List.mem_cons_of_mem _ hc), List.map_cons]

theorem length_fromUtf8Lossy {bytes : Bytes} (h : IsAscii bytes) :
    (fromUtf8Lossy bytes).length = bytes.length := by
  simp [fromUtf8Lossy, lossyChars_ascii h]

/-! ## Addresses -/

inductive SocketAddr where
  | v4 (ip : List.Vector UInt8 4) (port : UInt16)
  | v6 (ip : List.Vector UInt8 16) (port : UInt16)
  deriving DecidableEq

inductive Addr where
  | socket (addr : SocketAddr)
  | domain (host : String) (port : UInt16)
  deriving DecidableEq

inductive SocketKind where
  | kcp | udp | tcp | quic | ufd
  deriving DecidableEq, Repr

structure Socket where
  kind : SocketKind
  origin : Option Addr
  target : Addr
  isMixed : Bool
  deriving DecidableEq

namespace Socket

def tcp (addr : Addr) : Socket := ⟨.tcp, none, addr, false⟩
def udp (addr : Addr) : Socket := ⟨.udp, none, addr, false⟩
def isUdp (s : Socket) : Bool := s.kind == .udp

end Socket

/-! ## `parse_address` -/

/-- The raw casts to `V4` and `V6` read past the end of a shorter `data`; the index of the port
panics when `data` has no room for it. -/
def parseAddr (atype : UInt8) (data : Bytes) : Exit Addr :=
  if atype = 0x01 then
    if h : 6 ≤ data.length then
      .ret (.ok (.socket (.v4 ⟨data.take 4, by simp; omega⟩ (fromBeBytes data[4] data[5]))))
    else .undefined
  else if atype = 0x04 then
    if h : 18 ≤ data.length then
      .ret (.ok (.socket (.v6 ⟨data.take 16, by simp; omega⟩ (fromBeBytes data[16] data[17]))))
    else .undefined
  else if atype = 0x03 then
    if h : 2 ≤ data.length then
      .ret (.ok (.domain (fromUtf8Lossy (data.take (data.length - 2)))
        (fromBeBytes data[data.length - 2] data[data.length - 1])))
    else .panic
  else .ret (.error (.socks .invalidAddress))

def parseAddress (cmd _rsv atype : UInt8) (data : Bytes) : Exit Socket :=
  if cmd = 0x02 then .ret (.error (.socks .bindNotSupport))
  else match parseAddr atype data with
    | .ret (.ok addr) =>
      if cmd = 0x01 then .ret (.ok (.tcp addr))
      else if cmd = 0x03 then .ret (.ok (.udp addr))
      else .ret (.error (.socks .bindNotSupport))
    | .ret (.error e) => .ret (.error e)
    | .panic => .panic
    | .undefined => .undefined

/-! ## The address fields of RFC 1928 -/

/-- The address of a request as the client means it. -/
inductive Dst where
  | v4 (ip : List.Vector UInt8 4) (port : UInt16)
  | v6 (ip : List.Vector UInt8 16) (port : UInt16)
  | domain (host : Bytes) (port : UInt16)
  deriving DecidableEq

namespace Dst

def atyp : Dst → UInt8
  | .v4 .. => 0x01
  | .domain .. => 0x03
  | .v6 .. => 0x04

/-- DST.ADDR without the length octet of a name, and DST.PORT. -/
def body : Dst → Bytes
  | .v4 ip port => ip.toList ++ toBeBytes port
  | .v6 ip port => ip.toList ++ toBeBytes port
  | .domain host port => host ++ toBeBytes port

/-- DST.ADDR and DST.PORT. -/
def encode : Dst → Bytes
  | .domain host port => .ofNat host.length :: (host ++ toBeBytes port)
  | dst => dst.body

/-- A name has 1 to 255 ASCII bytes. -/
def WellFormed : Dst → Prop
  | .domain host _ => 1 ≤ host.length ∧ host.length ≤ 255 ∧ IsAscii host
  | _ => True

instance : DecidablePred WellFormed
  | .v4 .. => .isTrue trivial
  | .v6 .. => .isTrue trivial
  | .domain .. => inferInstanceAs (Decidable (_ ∧ _))

def addr : Dst → Addr
  | .v4 ip port => .socket (.v4 ip port)
  | .v6 ip port => .socket (.v6 ip port)
  | .domain host port => .domain (fromUtf8Lossy host) port

theorem atyp_ne_zero (dst : Dst) : dst.atyp ≠ 0 := by
  cases dst <;> simp [atyp]

theorem length_body_pos (dst : Dst) : 0 < dst.body.length := by
  cases dst <;> simp [body]

theorem parseAddr_body (dst : Dst) : parseAddr dst.atyp dst.body = .ret (.ok dst.addr) := by
  cases dst with
  | v4 ip port =>
    have h : ip.toList.length = 4 := ip.toList_length
    simp [parseAddr, body, atyp, addr, toBeBytes, h, fromBeBytes_toBeBytes]
  | v6 ip port =>
    have h : ip.toList.length = 16 := ip.toList_length
    simp [parseAddr, body, atyp, addr, toBeBytes, h, fromBeBytes_toBeBytes]
  | domain host port =>
    simp [parseAddr, body, atyp, addr, toBeBytes, fromBeBytes_toBeBytes]

/-- The socket a request for `dst` with command `cmd` asks for. -/
def socket (dst : Dst) (cmd : UInt8) : Socket :=
  if cmd = 0x01 then .tcp dst.addr else .udp dst.addr

theorem parseAddress_body (dst : Dst) (hcmd : cmd = 0x01 ∨ cmd = 0x03) :
    parseAddress cmd rsv dst.atyp dst.body = .ret (.ok (dst.socket cmd)) := by
  rcases hcmd with rfl | rfl <;> simp [parseAddress, parseAddr_body, socket]

end Dst
end Fuso

import Fuso.Socks.Address
import Fuso.Socks.Auth

/-!
# `Socks5::poll`

The server side of the SOCKS5 handshake. `Socks5.step` is one turn of its loops: the match on the
state (`Pc.select`), a turn of `poll_auth`, a turn of the write loop, a turn of the read loop. The
build profile decides what the `u8` addition of the domain length does when it overflows: with
`overflow-checks` it panics, in the release profile it wraps.
-/

namespace Fuso

inductive Socks5.State where
  | handshake
  | authentication (nmethod : Nat)
  | request (ver cmd rsv atype : UInt8) (size : Nat)
  | success (socket : Option Socket)
  deriving DecidableEq

structure Socks5 (S : Type u) where
  state : Socks5.State
  readBuf : Bytes
  writeBuf : Bytes
  readOffset : Nat
  writeOffset : Nat
  auth : S5Authenticate
  stream : S

namespace Socks5

inductive Pc where
  | select
  | auth (pc : AuthPc)
  | write
  | read
  deriving DecidableEq

def new (auth : S5Authenticate) (stream : S) : Socks5 S :=
  { auth, state := .handshake, readBuf := [], writeBuf := [], readOffset := 0, writeOffset := 0,
    stream }

/-- `Head::try_from`: the number of methods. -/
def Head.tryFrom : Bytes → Result UInt8
  | ver :: nmethod :: _ =>
    if ver ≠ 0x05 then .error (.socks (.head ver nmethod)) else .ok nmethod
  | value => .error (.socks (.badLength 2 value.length))

def atypeLen (atype : UInt8) : Option Nat :=
  if atype = 0x01 then some 6 else if atype = 0x03 then some 1
  else if atype = 0x04 then some 18 else none

/-- `read_buf[0] + 2`. -/
def addTwo (overflowChecks : Bool) (b : UInt8) : Option UInt8 :=
  if overflowChecks ∧ 256 ≤ b.toNat + 2 then none else some (b + 2)

/-- The reply to a request for a tcp socket. -/
def reply (rsv : UInt8) : Bytes := [0x05, 0x00, rsv, 0x01, 0x00, 0x00, 0x00, 0x00, 0x00, 0x00]

section
variable (overflowChecks : Bool) (m : Socks5 S)

/-- `read_offset = 0`, `read_buf.clear()` and `read_buf.resize(len, 0)` in front of a new state. -/
def expect (state : State) (len : Nat) : Socks5 S :=
  { m with state, readOffset := 0, readBuf := .replicate len 0 }

/-- The end of the first message: the number of methods follows. -/
def onHead : Turn (Pc × Socks5 S) (Exit Socket) :=
  match Head.tryFrom (m.readBuf.take m.readOffset) with
  | .error e => .ready (.select, m) (.ret (.error e))
  | .ok nmethod =>
    .again (.write, m.expect (.authentication nmethod.toNat) nmethod.toNat)

/-- The first four bytes of the request. -/
def onRequest : Turn (Pc × Socks5 S) (Exit Socket) :=
  match m.readBuf with
  | ver :: cmd :: rsv :: atype :: _ =>
    if ver ≠ 0x05 then .ready (.select, m) (.ret (.error (.socks .protocol)))
    else match atypeLen atype with
    | none => .ready (.select, m) (.ret (.error (.socks .invalidAddress)))
    | some len => .again (.write, m.expect (.request 0x05 cmd rsv atype len) len)
  | _ => .ready (.select, m) .panic

/-- The length of the domain. -/
def onDomain (cmd rsv : UInt8) : Turn (Pc × Socks5 S) (Exit Socket) :=
  match m.readBuf with
  | b :: _ =>
    match addTwo overflowChecks b with
    | none => .ready (.select, m) .panic
    | some len => .again (.write, m.expect (.request 0x05 cmd rsv 0x03 len.toNat) len.toNat)
  | _ => .ready (.select, m) .panic

/-- The address. -/
def onAddress (cmd rsv atype : UInt8) : Turn (Pc × Socks5 S) (Exit Socket) :=
  match parseAddress cmd rsv atype m.readBuf with
  | .ret (.ok socket) =>
    let m := { m with readOffset := 0, readBuf := [], state := .success (some socket) }
    if socket.isUdp then .again (.write, { m with writeBuf := [] })
    else .again (.write, { m with writeOffset := 0, writeBuf := reply rsv })
  | .ret (.error e) => .ready (.select, m) (.ret (.error e))
  | .panic => .ready (.select, m) .panic
  | .undefined => .ready (.select, m) .undefined

/-- The match on the state. -/
def select : Turn (Pc × Socks5 S) (Exit Socket) :=
  match m.state with
  | .handshake =>
    if m.readBuf.isEmpty then .again (.write, { m with readBuf := .replicate 2 0 })
    else if m.readOffset = 2 then m.onHead
    else .again (.write, m)
  | .authentication methods =>
    if methods = m.readOffset then .again (.auth .write, m) else .again (.write, m)
  | .request ver cmd rsv atype n =>
    if ver = 0x05 ∧ cmd = 0 ∧ rsv = 0 ∧ atype = 0 ∧ n = 4 ∧ m.readOffset = 4 then m.onRequest
    else if ver = 0x05 ∧ atype = 0x03 ∧ n = 1 ∧ m.readOffset = 1 then
      m.onDomain overflowChecks cmd rsv
    else if ver = 0x05 ∧ n = m.readOffset then m.onAddress cmd rsv atype
    else .again (.write, m)
  | .success socket =>
    if m.writeBuf.isEmpty then
      match socket with
      | some socket => .ready (.select, { m with state := .success none }) (.ret (.ok socket))
      | none => .ready (.select, m) .undefined
    else .again (.write, m)

variable [AsyncRead S] [AsyncWrite S]

/-- A turn of the write loop. A reply of which only a part was written is written again from
`write_offset`, which stays 0. -/
def writeTurn : Turn (Pc × Socks5 S) (Exit Socket) :=
  if m.writeBuf.isEmpty then .again (.read, m)
  else match pollWrite m.stream (m.writeBuf.drop m.writeOffset) with
    | (stream, .pending) => .pending (.select, { m with stream })
    | (stream, .ready (.error e)) => .ready (.write, { m with stream }) (.ret (.error e))
    | (stream, .ready (.ok n)) =>
      if n = 0 then .ready (.write, { m with stream }) (.ret (.error (.io .connectionReset)))
      else if n = m.writeBuf.length then
        .again (.read, { m with stream, writeOffset := 0, writeBuf := [] })
      else .again (.write, { m with stream })

/-- A turn of the read loop. It is left when `read_offset` is the length of the buffer the last read
was given, which is the part of `read_buf` that was still missing. -/
def readTurn : Turn (Pc × Socks5 S) (Exit Socket) :=
  if m.readBuf.isEmpty then .again (.select, m)
  else
    let buf := ReadBuf.new (m.readBuf.length - m.readOffset)
    match pollRead m.stream buf with
    | (stream, _, .pending) => .pending (.select, { m with stream })
    | (stream, _, .ready (.error e)) => .ready (.read, { m with stream }) (.ret (.error e))
    | (stream, data, .ready (.ok n)) =>
      let m := { m with stream, readBuf := overwrite m.readBuf m.readOffset data.filled }
      if n = 0 then .ready (.read, m) (.ret (.error (.io .connectionReset)))
      else
        let m := { m with readOffset := m.readOffset + n }
        if m.readOffset = buf.capacity then .again (.select, m) else .again (.read, m)

/-- What follows `poll_auth`. -/
def authenticated : Exit Unit → Turn (Pc × Socks5 S) (Exit Socket)
  | .ret (.ok ()) => .again (.write, m.expect (.request 0x05 0 0 0 4) 4)
  | .ret (.error e) => .ready (.select, m) (.ret (.error e))
  | .panic => .ready (.select, m) .panic
  | .undefined => .ready (.select, m) .undefined

/-- A turn of `poll_auth`. -/
def authTurn (pc : AuthPc) : Turn (Pc × Socks5 S) (Exit Socket) :=
  match S5Authenticate.pollAuth (pc, m.auth, m.stream) with
  | .again (pc, auth, stream) => .again (.auth pc, { m with auth, stream })
  | .pending (_, auth, stream) => .pending (.select, { m with auth, stream })
  | .ready (_, auth, stream) exit => authenticated { m with auth, stream } exit

def step : Pc × Socks5 S → Turn (Pc × Socks5 S) (Exit Socket)
  | (.select, m) => m.select overflowChecks
  | (.auth pc, m) => m.authTurn pc
  | (.write, m) => m.writeTurn
  | (.read, m) => m.readTurn

end
end Socks5
end Fuso

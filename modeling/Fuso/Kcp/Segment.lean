import Fuso.Async.Endian

/-!
# KCP segments

A segment has a header of 24 bytes and its data behind it. Numbers are those of the machine and wrap
around.
-/

namespace Fuso.ThirdParty

inductive IoKind where
  | timedOut
  | other (code : Nat)
  deriving DecidableEq

inductive KcpErr where
  | convInconsistent (expected found : UInt32)
  | invalidSegmentSize (size : Nat)
  | invalidSegmentDataSize (expected found : Nat)
  | ioError (kind : IoKind)
  | needUpdate
  | recvQueueEmpty
  | expectingFragment
  | unsupportedCmd (cmd : UInt8)
  | userBufTooBig
  | userBufTooSmall
  | connectionReset
  deriving DecidableEq

abbrev KcpResult := Except KcpErr

def cmdPush : UInt8 := 81
def cmdAck : UInt8 := 82
def cmdWask : UInt8 := 83
def cmdWins : UInt8 := 84
def cmdCls : UInt8 := 85
def cmdClf : UInt8 := 86

/-- `KCP_OVERHEAD`. -/
def overhead : Nat := 24

/-- `later - earlier` as an `i32`. -/
def timediff (later earlier : UInt32) : Int := (later - earlier).toBitVec.toInt

structure KcpSegment where
  conv : UInt32 := 0
  cmd : UInt8 := 0
  frg : UInt8 := 0
  wnd : UInt16 := 0
  ts : UInt32 := 0
  sn : UInt32 := 0
  una : UInt32 := 0
  resendts : UInt32 := 0
  rto : UInt32 := 0
  fastack : UInt32 := 0
  xmit : UInt32 := 0
  data : Bytes := []
  deriving DecidableEq

/-- The two bytes of a `u16`. -/
def toLeBytes16 (n : Nat) : Bytes := [.ofNat n, .ofNat (n / 256)]

namespace KcpSegment

def encode (s : KcpSegment) : Bytes :=
  toLeBytes s.conv.toNat ++ [s.cmd, s.frg] ++ toLeBytes16 s.wnd.toNat ++ toLeBytes s.ts.toNat ++
    toLeBytes s.sn.toNat ++ toLeBytes s.una.toNat ++ toLeBytes (s.data.length % 2 ^ 32) ++ s.data

theorem length_encode (s : KcpSegment) : s.encode.length = overhead + s.data.length := by
  simp [encode, toLeBytes16, overhead]
  omega

end KcpSegment

def getConv (buf : Bytes) : UInt32 := .ofNat (fromLeBytes (buf.take 4))

/-- The packet that closes a conversation by force. -/
def forceClose (conv : UInt32) : Bytes := KcpSegment.encode { conv, cmd := cmdClf }

end Fuso.ThirdParty

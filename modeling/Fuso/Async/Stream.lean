import Mathlib.Algebra.Order.Ring.Nat
import Mathlib.Data.List.Basic

/-!
# Byte streams

The polling interface of the crate (`AsyncRead`, `AsyncWrite`, `ReadBuf`) and `Duplex`, the stream
under it: the bytes the peer sends, an answer of the operating system for every `poll_read`, every
`poll_write` and every `poll_close`, and the bytes that were written. When the answers run out the
stream is never ready again; a read that finds no byte left is the end of the stream and reads 0
bytes, and so does a read into an empty buffer. `View` relates two kinds of streams of which one is
seen through the other.
-/

namespace Fuso

abbrev Bytes := List UInt8

inductive IoErrorKind where
  | connectionReset
  | unexpectedEof
  deriving DecidableEq, Repr

inductive SocksErr where
  | protocol
  | authenticate
  | invalidAddress
  | bindNotSupport
  | head (ver nmethod : UInt8)
  | badLength (expect current : Nat)
  | socks5Frg
  deriving DecidableEq, Repr

inductive Lz4Err where
  | compress
  | decompress
  | decodeReleased
  | encodeReleased
  deriving DecidableEq, Repr

/-- The errors of the crate; `panic` is none of them and stands for a poll that panics. -/
inductive Error where
  | panic
  | channel
  | io (kind : IoErrorKind)
  | timeout
  | fallback
  | packet (head : Bytes)
  | socks (e : SocksErr)
  | lz4 (e : Lz4Err)
  | aes
  | rsa
  | badForward
  deriving DecidableEq, Repr

abbrev Result := Except Error

instance [DecidableEq α] : DecidableEq (Result α)
  | .ok a, .ok b => decidable_of_iff (a = b) (by simp)
  | .error a, .error b => decidable_of_iff (a = b) (by simp)
  | .ok _, .error _ => isFalse nofun
  | .error _, .ok _ => isFalse nofun

def Error.isSocksError : Error → Bool
  | .socks (.head _ _) => true
  | _ => false

inductive Poll (α : Type u) where
  | pending
  | ready (a : α)
  deriving DecidableEq, Repr

/-- How a poll ends that is not pending: it returns, it panics, or it reaches
`unreachable_unchecked` or another undefined behaviour. -/
inductive Exit (α : Type u) where
  | ret (r : Result α)
  | panic
  | undefined
  deriving DecidableEq

/-- `bytes` with the bytes from position `at` on replaced by `data`. -/
def overwrite (bytes : Bytes) (pos : Nat) (data : Bytes) : Bytes :=
  bytes.take pos ++ data ++ bytes.drop (pos + data.length)

@[simp] theorem length_overwrite (bytes data : Bytes) (h : pos + data.length ≤ bytes.length) :
    (overwrite bytes pos data).length = bytes.length := by
  simp [overwrite]; omega

theorem take_overwrite (bytes data : Bytes) (h : pos + data.length ≤ bytes.length) :
    (overwrite bytes pos data).take (pos + data.length) = bytes.take pos ++ data := by
  have hl : (bytes.take pos ++ data).length = pos + data.length := by simp; omega
  rw [overwrite, ← hl, List.take_left]

/-- A read buffer: what was read into it so far fits. -/
structure ReadBuf where
  capacity : Nat
  filled : Bytes
  fits : filled.length ≤ capacity

namespace ReadBuf

def new (capacity : Nat) : ReadBuf := ⟨capacity, [], Nat.zero_le _⟩

def remaining (b : ReadBuf) : Nat := b.capacity - b.filled.length

/-- The first `remaining` bytes of `data` behind what is filled. -/
def put (b : ReadBuf) (data : Bytes) : ReadBuf where
  capacity := b.capacity
  filled := b.filled ++ data.take b.remaining
  fits := by have := b.fits; simp [remaining]; omega

@[simp] theorem capacity_new : (new n).capacity = n := rfl
@[simp] theorem filled_new : (new n).filled = [] := rfl
@[simp] theorem remaining_new : (new n).remaining = n := rfl
@[simp] theorem capacity_put (b : ReadBuf) : (b.put data).capacity = b.capacity := rfl

@[simp] theorem filled_put {b : ReadBuf} (h : data.length ≤ b.remaining) :
    (b.put data).filled = b.filled ++ data := by
  simp [put, List.take_of_length_le h]

end ReadBuf

class AsyncRead (S : Type u) where
  pollRead : S → ReadBuf → S × ReadBuf × Poll (Result Nat)

class AsyncWrite (S : Type u) where
  pollWrite : S → Bytes → S × Poll (Result Nat)
  pollClose : S → S × Poll (Result Unit)

export AsyncRead (pollRead)
export AsyncWrite (pollWrite pollClose)

/-- As long as `I` holds, `g s` reads and writes as `s` does. -/
structure View [AsyncRead S] [AsyncWrite S] [AsyncRead T] [AsyncWrite T] (g : S → T)
    (I : S → Prop) : Prop where
  read : ∀ s buf, I s → I (pollRead s buf).1 ∧
    pollRead (g s) buf = (g (pollRead s buf).1, (pollRead s buf).2)
  write : ∀ s buf, I s → I (pollWrite s buf).1 ∧
    pollWrite (g s) buf = (g (pollWrite s buf).1, (pollWrite s buf).2)

/-- What the operating system answers to a poll: not yet, or up to `n + 1` bytes go through. -/
inductive Answer where
  | pending
  | upTo (n : Nat)
  deriving DecidableEq, Repr

structure Duplex where
  incoming : Bytes
  reads : List Answer
  writes : List Answer
  closes : List Answer
  sent : Bytes
  deriving DecidableEq, Repr

namespace Duplex

def pollRead (d : Duplex) (buf : ReadBuf) : Duplex × ReadBuf × Poll (Result Nat) :=
  if buf.remaining = 0 then (d, buf, .ready (.ok buf.filled.length))
  else match d.reads with
  | [] => (d, buf, .pending)
  | .pending :: reads => ({ d with reads }, buf, .pending)
  | .upTo n :: reads =>
    let k := min (n + 1) buf.remaining
    let buf := buf.put (d.incoming.take k)
    ({ d with incoming := d.incoming.drop k, reads }, buf, .ready (.ok buf.filled.length))

def pollWrite (d : Duplex) (buf : Bytes) : Duplex × Poll (Result Nat) :=
  match d.writes with
  | [] => (d, .pending)
  | .pending :: writes => ({ d with writes }, .pending)
  | .upTo n :: writes =>
    let k := min (n + 1) buf.length
    ({ d with sent := d.sent ++ buf.take k, writes }, .ready (.ok k))

def pollClose (d : Duplex) : Duplex × Poll (Result Unit) :=
  match d.closes with
  | [] => (d, .pending)
  | .pending :: closes => ({ d with closes }, .pending)
  | .upTo _ :: closes => ({ d with closes }, .ready (.ok ()))

instance : AsyncRead Duplex := ⟨pollRead⟩
instance : AsyncWrite Duplex := ⟨pollWrite, pollClose⟩

variable {d : Duplex} {reads writes : List Answer}

theorem pollRead_zero : AsyncRead.pollRead d (.new 0) = (d, .new 0, .ready (.ok 0)) := by
  simp [AsyncRead.pollRead, pollRead]

theorem pollRead_nil (h : d.reads = []) {buf : ReadBuf} (hb : buf.remaining ≠ 0) :
    AsyncRead.pollRead d buf = (d, buf, .pending) := by
  simp [AsyncRead.pollRead, pollRead, h, hb]

theorem pollRead_pending (h : d.reads = .pending :: reads) {buf : ReadBuf}
    (hb : buf.remaining ≠ 0) :
    AsyncRead.pollRead d buf = ({ d with reads }, buf, .pending) := by
  simp [AsyncRead.pollRead, pollRead, h, hb]

/-- What a read of at most `n + 1` bytes into a buffer of capacity `cap` delivers. -/
def delivered (d : Duplex) (n cap : Nat) : Bytes := d.incoming.take (min (n + 1) cap)

/-- The stream behind a read that delivered `data`. -/
def behind (d : Duplex) (reads : List Answer) (data : Bytes) : Duplex :=
  { d with incoming := d.incoming.drop data.length, reads }

theorem length_delivered :
    (d.delivered n cap).length = min (min (n + 1) cap) d.incoming.length := by
  simp [delivered]

theorem drop_delivered :
    d.incoming.drop (d.delivered n cap).length = d.incoming.drop (min (n + 1) cap) := by
  rw [length_delivered]
  rcases Nat.le_total (min (n + 1) cap) d.incoming.length with h | h
  · rw [Nat.min_eq_left h]
  · rw [Nat.min_eq_right h, List.drop_length, List.drop_eq_nil_of_le h]

theorem delivered_append : d.delivered n cap ++ (d.behind reads (d.delivered n cap)).incoming =
    d.incoming := by
  rw [behind, drop_delivered, delivered, List.take_append_drop]

/-- A read into a fresh buffer. -/
theorem pollRead_upTo (h : d.reads = .upTo n :: reads) (hcap : cap ≠ 0) :
    ∃ buf : ReadBuf, buf.filled = d.delivered n cap ∧
      AsyncRead.pollRead d (.new cap) =
        (d.behind reads (d.delivered n cap), buf, .ready (.ok (d.delivered n cap).length)) := by
  have hfill : ((ReadBuf.new cap).put (d.delivered n cap)).filled = d.delivered n cap :=
    ReadBuf.filled_put (by rw [length_delivered, ReadBuf.remaining_new]; omega)
  refine ⟨_, hfill, ?_⟩
  rw [behind, drop_delivered]
  simp only [AsyncRead.pollRead, pollRead, h, ReadBuf.remaining_new, if_neg hcap]
  rw [← delivered, hfill]

/-- A read into a fresh buffer takes bytes from the front, none only at the end of the stream, or is
not ready. -/
theorem pollRead_new (d : Duplex) (cap : Nat) :
    ∃ reads buf rest, d.incoming = buf.filled ++ rest ∧
      (AsyncRead.pollRead d (.new cap) = ({ d with incoming := rest, reads }, buf, .pending) ∧
          buf.filled = [] ∨
        AsyncRead.pollRead d (.new cap) =
            ({ d with incoming := rest, reads }, buf, .ready (.ok buf.filled.length)) ∧
          (buf.filled = [] → cap = 0 ∨ d.incoming = [])) := by
  rcases Nat.eq_zero_or_pos cap with rfl | hcap
  · exact ⟨d.reads, .new 0, d.incoming, rfl, .inr ⟨pollRead_zero, fun _ => .inl rfl⟩⟩
  have hb : (ReadBuf.new cap).remaining ≠ 0 := by simp; omega
  cases hr : d.reads with
  | nil => exact ⟨d.reads, .new cap, d.incoming, rfl, .inl ⟨pollRead_nil hr hb, rfl⟩⟩
  | cons a reads =>
    cases a with
    | pending => exact ⟨reads, .new cap, d.incoming, rfl, .inl ⟨pollRead_pending hr hb, rfl⟩⟩
    | upTo n =>
      obtain ⟨buf, hbuf, hread⟩ := pollRead_upTo hr (Nat.ne_of_gt hcap)
      refine ⟨reads, buf, d.incoming.drop buf.filled.length, ?_, .inr ⟨?_, fun h => .inr ?_⟩⟩
      · rw [hbuf, drop_delivered, delivered, List.take_append_drop]
      · rw [hread, hbuf, behind]
      · have hlen : (d.delivered n cap).length = 0 := by rw [← hbuf, h, List.length_nil]
        rw [length_delivered] at hlen
        exact List.length_eq_zero_iff.1 (by omega)

theorem pollWrite_nil (h : d.writes = []) (buf : Bytes) :
    AsyncWrite.pollWrite d buf = (d, .pending) := by
  simp [AsyncWrite.pollWrite, pollWrite, h]

theorem pollWrite_pending (h : d.writes = .pending :: writes) (buf : Bytes) :
    AsyncWrite.pollWrite d buf = ({ d with writes }, .pending) := by
  simp [AsyncWrite.pollWrite, pollWrite, h]

theorem pollWrite_upTo (h : d.writes = .upTo n :: writes) (buf : Bytes) :
    AsyncWrite.pollWrite d buf =
      ({ d with sent := d.sent ++ buf.take (min (n + 1) buf.length), writes },
        .ready (.ok (min (n + 1) buf.length))) := by
  simp [AsyncWrite.pollWrite, pollWrite, h]

/-- A write takes bytes from the front of a buffer that is not empty, or is not ready. -/
theorem pollWrite_cases (d : Duplex) {buf : Bytes} (hne : buf ≠ []) :
    ∃ writes, AsyncWrite.pollWrite d buf = ({ d with writes }, .pending) ∨
      ∃ k, 0 < k ∧ k ≤ buf.length ∧ AsyncWrite.pollWrite d buf =
        ({ d with sent := d.sent ++ buf.take k, writes }, .ready (.ok k)) := by
  have hpos := List.length_pos_iff.2 hne
  cases hw : d.writes with
  | nil => exact ⟨d.writes, .inl (pollWrite_nil hw buf)⟩
  | cons a writes =>
    cases a with
    | pending => exact ⟨writes, .inl (pollWrite_pending hw buf)⟩
    | upTo n =>
      exact ⟨writes, .inr ⟨min (n + 1) buf.length, by omega, by omega, pollWrite_upTo hw buf⟩⟩

/-- A read leaves the half alone that is written. -/
theorem of_pollRead {d' : Duplex} {buf buf' : ReadBuf} {poll : Poll (Result Nat)}
    (h : AsyncRead.pollRead d buf = (d', buf', poll)) :
    d' = { d with incoming := d'.incoming, reads := d'.reads } := by
  simp only [AsyncRead.pollRead, pollRead] at h
  split at h
  · cases h
    rfl
  · split at h <;> cases h <;> rfl

/-- A write leaves the half alone that is read. -/
theorem of_pollWrite {d' : Duplex} {buf : Bytes} {poll : Poll (Result Nat)}
    (h : AsyncWrite.pollWrite d buf = (d', poll)) :
    d' = { d' with incoming := d.incoming, reads := d.reads } := by
  simp only [AsyncWrite.pollWrite, pollWrite] at h
  split at h <;> cases h <;> rfl

theorem pollClose_cases (d : Duplex) : ∃ closes poll,
    AsyncWrite.pollClose d = ({ d with closes }, poll) ∧
      (poll = .pending ∨ poll = .ready (.ok ())) := by
  simp only [AsyncWrite.pollClose, pollClose]
  split
  · exact ⟨d.closes, _, rfl, .inl rfl⟩
  · exact ⟨_, _, rfl, .inl rfl⟩
  · exact ⟨_, _, rfl, .inr rfl⟩

end Duplex

/-- The sizes of the answers that are not `Pending`: how a stream is cut. -/
def sizes : List Answer → List Nat
  | [] => []
  | .pending :: answers => sizes answers
  | .upTo n :: answers => (n + 1) :: sizes answers

theorem length_sizes_replicate (n k : Nat) : (sizes (.replicate n (.upTo k))).length = n := by
  induction n with
  | zero => rfl
  | succ n ih => rw [List.replicate_succ, sizes, List.length_cons, ih]

end Fuso

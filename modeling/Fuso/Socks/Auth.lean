import Fuso.Async.Stream
import Fuso.Theory.Turn

/-!
# `S5Authenticate::poll_auth`

The sub-negotiation that follows the method list. `Skip` writes its reply, `Standard` writes it,
reads the user name and the password and writes the status. One turn of `poll_auth` is one turn of
one of its inner loops; `AuthPc` says in which of them control is.
-/

namespace Fuso

structure Standard where
  rpos : Nat
  rbuf : Option Bytes
  wpos : Nat
  wbuf : Option Bytes
  init : Bool
  good : Bool
  cmpUser : Option Bytes
  cmpPass : Option Bytes
  username : Bytes
  password : Bytes
  deriving DecidableEq

inductive S5Authenticate where
  | skip (reply : Bytes) (offset : Nat)
  | standard (auth : Standard)
  deriving DecidableEq

namespace S5Authenticate

def newSkip : S5Authenticate := .skip [0x05, 0x00] 0

def newStandard (username password : Bytes) : S5Authenticate :=
  .standard {
    rpos := 0, wpos := 0, rbuf := none, wbuf := some [0x05, 0x02], good := false, init := false,
    cmpUser := none, cmpPass := none, username, password }

end S5Authenticate

/-- Where control is in `poll_auth`: in the loop over `wbuf`, in the loop over `rbuf`, or at the
match behind them. Every poll starts with the loop over `wbuf`. -/
inductive AuthPc where
  | write
  | read
  | check
  deriving DecidableEq

section
variable [AsyncRead S] [AsyncWrite S]

/-- What the loop over `wbuf` does behind a write. -/
def Standard.wrote (a : Standard) (buf : Bytes) (stream : S) :
    Turn (AuthPc × Standard × S) (Exit Unit) :=
  if a.wpos = buf.length ∧ a.cmpPass.isNone ∧ a.cmpUser.isNone then
    .again (.write, { a with rbuf := some (.replicate 2 0), wbuf := none }, stream)
  else if a.wpos = buf.length ∧ a.cmpPass.isSome ∧ a.cmpUser.isSome ∧ !a.good then
    .ready (.write, a, stream) (.ret (.error (.socks .authenticate)))
  else if a.wpos = buf.length ∧ a.cmpPass.isSome ∧ a.cmpUser.isSome ∧ a.good then
    .ready (.write, a, stream) (.ret (.ok ()))
  else .again (.write, a, stream)

/-- A turn of `while let Some(buf) = wbuf.as_ref()`. -/
def Standard.writeTurn (a : Standard) (stream : S) :
    Turn (AuthPc × Standard × S) (Exit Unit) :=
  match a.wbuf with
  | none => .again (.read, a, stream)
  | some buf =>
    match pollWrite stream (buf.drop a.wpos) with
    | (stream, .pending) => .pending (.write, a, stream)
    | (stream, .ready (.error e)) => .ready (.write, a, stream) (.ret (.error e))
    | (stream, .ready (.ok n)) =>
      if n = 0 then .ready (.write, a, stream) (.ret (.error (.io .unexpectedEof)))
      else { a with wpos := a.wpos + n }.wrote buf stream

/-- What the loop over `rbuf` does with a buffer that is full. -/
def Standard.full (a : Standard) (buf : Bytes) (stream : S) :
    Turn (AuthPc × Standard × S) (Exit Unit) :=
  if a.cmpUser.isNone ∧ !a.init then
    match buf with
    | ver :: ulen :: _ =>
      if ver ≠ 0x01 then .ready (.read, a, stream) (.ret (.error (.socks .authenticate)))
      else
        .again (.read, { a with rbuf := some (.replicate (ulen.toNat + 1) 0), rpos := 0,
                                init := true }, stream)
    | _ => .ready (.read, a, stream) .panic
  else if a.cmpUser.isNone ∧ a.init then
    match buf.getLast? with
    | some plen =>
      .again (.read, { a with rpos := 0, cmpUser := some buf,
                              rbuf := some (.replicate plen.toNat 0) }, stream)
    | none => .ready (.read, a, stream) .panic
  else .again (.check, { a with cmpPass := some buf, rbuf := none }, stream)

/-- A turn of `while let Some(buf) = rbuf.as_mut()`. -/
def Standard.readTurn (a : Standard) (stream : S) : Turn (AuthPc × Standard × S) (Exit Unit) :=
  match a.rbuf with
  | none => .again (.check, a, stream)
  | some buf =>
    match pollRead stream (.new (buf.length - a.rpos)) with
    | (stream, _, .pending) => .pending (.write, a, stream)
    | (stream, _, .ready (.error e)) => .ready (.read, a, stream) (.ret (.error e))
    | (stream, data, .ready (.ok n)) =>
      if n = 0 then .ready (.read, a, stream) (.ret (.error (.io .unexpectedEof)))
      else
        let buf' := overwrite buf a.rpos data.filled
        let a := { a with rbuf := some buf', rpos := a.rpos + n }
        if a.rpos = buf.length then a.full buf' stream else .again (.read, a, stream)

/-- The match on the credentials and the end of `while do_next`: without both credentials the loop
ends and `unreachable_unchecked` follows. -/
def Standard.checkTurn (a : Standard) (stream : S) : Turn (AuthPc × Standard × S) (Exit Unit) :=
  match a.cmpPass, a.cmpUser with
  | some pass, some user =>
    if a.password = pass ∧ user.take (user.length - 1) = a.username then
      .again (.write, { a with wpos := 0, good := true, wbuf := some [0x01, 0x00] }, stream)
    else
      .again (.write, { a with wpos := 0, wbuf := some [0x01, 0x01] }, stream)
  | _, _ => .ready (.check, a, stream) .undefined

def Standard.step : AuthPc × Standard × S → Turn (AuthPc × Standard × S) (Exit Unit)
  | (.write, a, stream) => a.writeTurn stream
  | (.read, a, stream) => a.readTurn stream
  | (.check, a, stream) => a.checkTurn stream

/-- A poll that gives up starts again at the loop over `wbuf`. -/
theorem Standard.pending_write {s s' : AuthPc × Standard × S} (h : step s = .pending s') :
    s'.1 = .write := by
  obtain ⟨pc, a, stream⟩ := s
  cases pc with
  | write =>
    simp only [step, writeTurn] at h
    split at h
    · cases h
    · split at h
      · cases h
        rfl
      · cases h
      · split at h
        · cases h
        · unfold wrote at h
          split_ifs at h
  | read =>
    simp only [step, readTurn] at h
    split at h
    · cases h
    · split at h
      · cases h
        rfl
      · cases h
      · split_ifs at h
        unfold full at h
        split_ifs at h <;> split at h <;> first | cases h | split at h <;> cases h
  | check =>
    simp only [step, checkTurn] at h
    split at h <;> [split_ifs at h; cases h]

/-- A turn of the loop of `Skip`. -/
def skipTurn (reply : Bytes) (offset : Nat) (stream : S) : Turn (Nat × S) (Exit Unit) :=
  match pollWrite stream (reply.drop offset) with
  | (stream, .pending) => .pending (offset, stream)
  | (stream, .ready (.error e)) => .ready (offset, stream) (.ret (.error e))
  | (stream, .ready (.ok n)) =>
    if n = 0 then .ready (offset, stream) (.ret (.error (.io .unexpectedEof)))
    else if offset + n = reply.length then .ready (offset + n, stream) (.ret (.ok ()))
    else .again (offset + n, stream)

/-- A turn of `poll_auth`. -/
def S5Authenticate.pollAuth :
    AuthPc × S5Authenticate × S → Turn (AuthPc × S5Authenticate × S) (Exit Unit)
  | (pc, .skip reply offset, stream) =>
    (skipTurn reply offset stream).map (fun (offset, stream) => (pc, .skip reply offset, stream)) id
  | (pc, .standard a, stream) =>
    (Standard.step (pc, a, stream)).map (fun (pc, a, stream) => (pc, .standard a, stream)) id

end
end Fuso

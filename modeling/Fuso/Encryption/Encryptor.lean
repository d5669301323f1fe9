import Fuso.Async.Endian
import Fuso.Guard.Buffer
import Fuso.Theory.Turn

/-!
# `RSAEncryptor` and `AESEncryptor`

A stream whose bytes go encrypted through another one, message by message: every `poll_write`
becomes four bytes of length and a ciphertext. What the stream below does not take at once stays in
`wbuf`, and the next `poll_write` writes that and nothing of its own. The two encryptors differ in
their cipher alone; the libraries behind it are parameters (`RsaCrate`, `AesCrate`).
-/

namespace Fuso
open Turn

/-- What an encryptor does to a message and to what it has received. `G` are the states of the
random number generator. -/
structure Cipher (G : Type) where
  /-- The buffer that `poll_encrypt_write` writes. -/
  encrypt : G → Bytes → Result Bytes × G
  decrypt : Bytes → Result Bytes

/-- The fields of `RSAEncryptor`; those of `AESEncryptor` are called `aes_dbuf`, `aes_rbuf`,
`aes_ebuf`, `aes_epos`, `aes_rpos` and `aes_dinit`. -/
structure Encryptor (C : Cipher G) (T : Type) where
  target : T
  cache : Buffer UInt8
  rbuf : Option Bytes
  wbuf : Option Bytes
  wpos : Nat
  rpos : Nat
  dinit : Bool
  rng : G

/-! ## The ciphers -/

/-- The functions of the `rsa` crate, with PKCS #1 v1.5 padding. -/
structure RsaCrate (Publ Priv G : Type) where
  encrypt : Publ → G → Bytes → Option Bytes × G
  decrypt : Priv → Bytes → Option Bytes

/-- The functions of the `aes` crate, CBC with PKCS #7 padding. -/
structure AesCrate where
  encryptPadded (key iv : Bytes) : Bytes → Option Bytes
  decryptPadded (key iv : Bytes) : Bytes → Option Bytes

def rsaCipher (rsa : RsaCrate Publ Priv G) (rsaPubl : Publ) (rsaPriv : Priv) : Cipher G where
  encrypt rng buf :=
    match rsa.encrypt rsaPubl rng buf with
    | (none, rng) => (.error .rsa, rng)
    | (some encryptedData, rng) =>
      let encryptedLen := encryptedData.length % 2 ^ 32
      (.ok (toLeBytes encryptedLen ++ encryptedData), rng)
  decrypt rbuf :=
    match rsa.decrypt rsaPriv rbuf with
    | none => .error .rsa
    | some decrypted => .ok decrypted

/-- Here the length that is written into the buffer also says how much of it is written out. -/
def aesCipher (aes : AesCrate) (iv key : Bytes) : Cipher Unit where
  encrypt _ buf :=
    match aes.encryptPadded key iv buf with
    | none => (.error .aes, ())
    | some encrypted =>
      let encryptedLen := encrypted.length % 2 ^ 32
      (.ok ((toLeBytes encryptedLen ++ encrypted).take (encryptedLen + 4)), ())
  decrypt rbuf :=
    match aes.decryptPadded key iv rbuf with
    | none => .error .aes
    | some decrypted => .ok decrypted

abbrev RSAEncryptor (rsa : RsaCrate Publ Priv G) (rsaPubl : Publ) (rsaPriv : Priv) (T : Type) :=
  Encryptor (rsaCipher rsa rsaPubl rsaPriv) T

abbrev AESEncryptor (aes : AesCrate) (iv key : Bytes) (T : Type) :=
  Encryptor (aesCipher aes iv key) T

/-! ## The stream -/

namespace Encryptor
variable {G : Type} {C : Cipher G} {T : Type}

def new (target : T) (rng : G) : Encryptor C T where
  target := target
  cache := .new
  rbuf := none
  wbuf := none
  wpos := 0
  rpos := 0
  dinit := false
  rng := rng

/-- A turn of the loops that write an encrypted buffer out: `true` when it is out, `false` when the
target takes nothing. -/
def writeStep [AsyncWrite T] (encryptedBuf : Bytes) : T × Nat → Turn (T × Nat) (Result Bool)
  | (target, pos) =>
    match pollWrite target (encryptedBuf.drop pos) with
    | (target, .pending) => .pending (target, pos)
    | (target, .ready (.error e)) => .ready (target, pos) (.error e)
    | (target, .ready (.ok n)) =>
      if n = 0 then .ready (target, pos) (.ok false)
      else if pos + n = encryptedBuf.length then .ready (target, pos + n) (.ok true)
      else .again (target, pos + n)

/-- The whole loop. Every round but the last writes a byte. -/
def writeOut [AsyncWrite T] (encryptedBuf : Bytes) (target : T) (pos : Nat) :
    Turn (T × Nat) (Result Bool) :=
  poll (writeStep encryptedBuf) (encryptedBuf.length + 1) (target, pos)

def pollEncryptWrite [AsyncWrite T] (this : Encryptor C T) (buf : Bytes) :
    Encryptor C T × Poll (Result Nat) :=
  match C.encrypt this.rng buf with
  | (.error e, rng) => ({ this with rng }, .ready (.error e))
  | (.ok encryptedBuf, rng) =>
    let this : Encryptor C T := { this with rng }
    match writeOut encryptedBuf this.target 0 with
    | .again (target, pos) | .pending (target, pos) =>
      ({ this with target, wpos := 0, wbuf := some (encryptedBuf.drop pos) }, .pending)
    | .ready (target, _) (.error e) => ({ this with target }, .ready (.error e))
    | .ready (target, _) (.ok false) => ({ this with target }, .ready (.ok 0))
    | .ready (target, _) (.ok true) => ({ this with target }, .ready (.ok buf.length))

/-- What is left in `wbuf` goes first. When it is out the poll is ready with the length of `buf`, of
which nothing was written. -/
def pollWrite [AsyncWrite T] (this : Encryptor C T) (buf : Bytes) :
    Encryptor C T × Poll (Result Nat) :=
  match this.wbuf with
  | none => this.pollEncryptWrite buf
  | some wbuf =>
    match writeOut wbuf this.target this.wpos with
    | .again (target, wpos) | .pending (target, wpos) => ({ this with target, wpos }, .pending)
    | .ready (target, wpos) (.error e) =>
      ({ this with target, wpos, wbuf := none }, .ready (.error e))
    | .ready (target, wpos) (.ok false) =>
      ({ this with target, wpos, wbuf := none }, .ready (.ok 0))
    | .ready (target, wpos) (.ok true) =>
      ({ this with target, wpos, wbuf := none }, .ready (.ok buf.length))

def pollClose [AsyncWrite T] (this : Encryptor C T) : Encryptor C T × Poll (Result Unit) :=
  let (target, poll) := AsyncWrite.pollClose this.target
  ({ this with target }, poll)

/-- A turn of the loop of `poll_decrypt_read`, which holds `rbuf`. A ciphertext that is complete is
decrypted, and what the reader has no room for goes to the cache. A poll that returns drops `rbuf`
but not `rpos`, which may then lie behind the end of the next one. -/
def readStep [AsyncRead T] (buf : ReadBuf) :
    Encryptor C T × Bytes → Turn (Encryptor C T × Bytes) (ReadBuf × Result Nat)
  | (this, rbuf) =>
    if this.rpos = rbuf.length ∧ this.dinit then
      let this : Encryptor C T := { this with rpos := 0, dinit := false }
      let rem := buf.remaining
      match C.decrypt rbuf with
      | .error e => .ready (this, rbuf) (buf, .error e)
      | .ok decrypted =>
        if decrypted.length ≤ rem then .ready (this, rbuf) (buf.put decrypted, .ok decrypted.length)
        else
          .ready ({ this with cache := this.cache.pushBack (decrypted.drop rem) }, rbuf)
            (buf.put (decrypted.take rem), .ok rem)
    else
      let (this, rbuf) : Encryptor C T × Bytes :=
        if this.rpos = rbuf.length then
          ({ this with rpos := 0, dinit := true }, List.replicate (fromLeBytes rbuf) 0)
        else (this, rbuf)
      if rbuf.length < this.rpos then .ready (this, rbuf) (buf, .error .panic)
      else match pollRead this.target (.new (rbuf.length - this.rpos)) with
      | (target, _, .ready (.error e)) => .ready ({ this with target }, rbuf) (buf, .error e)
      | (target, _, .pending) => .pending ({ this with target, rbuf := some rbuf }, rbuf)
      | (target, data, .ready (.ok n)) =>
        if n = 0 then .ready ({ this with target }, rbuf) (buf, .ok 0)
        else
          .again ({ this with target, rpos := this.rpos + n },
            overwrite rbuf this.rpos data.filled)

/-- Every round but the last reads a byte, of the four of a length or of the ciphertext. -/
def pollDecryptRead [AsyncRead T] (this : Encryptor C T) (buf : ReadBuf) :
    Encryptor C T × ReadBuf × Poll (Result Nat) :=
  let rbuf := this.rbuf.getD (.replicate 4 0)
  match poll (readStep buf) (2 ^ 32 + 8) ({ this with rbuf := none }, rbuf) with
  | .again (this, _) | .pending (this, _) => (this, buf, .pending)
  | .ready (this, _) (buf, r) => (this, buf, .ready r)

def pollRead [AsyncRead T] (this : Encryptor C T) (buf : ReadBuf) :
    Encryptor C T × ReadBuf × Poll (Result Nat) :=
  if !this.cache.isEmpty then
    let (data, cache) := this.cache.readToBuffer buf.remaining
    ({ this with cache }, buf.put data, .ready (.ok data.length))
  else this.pollDecryptRead buf

instance [AsyncRead T] : AsyncRead (Encryptor C T) := ⟨pollRead⟩
instance [AsyncWrite T] : AsyncWrite (Encryptor C T) := ⟨pollWrite, pollClose⟩

end Encryptor
end Fuso

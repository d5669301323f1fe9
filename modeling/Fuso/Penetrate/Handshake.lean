import Fuso.Async.Dialog
import Fuso.Penetrate.Decorate

/-!
# `PenetrateRsaAndAesHandshake`

The two ends of a new connection send each other their RSA keys through LZ4. Then the stream is
encrypted with these keys, and the client sends the server an iv and a key for the streams to come.
What the random number generator and the library of RSA keys give is a parameter (`Draws`,
`RsaKeys`). Either end says its key and nothing else before the stream is encrypted (`said`), and
takes from the other one what it says (`Swaps`).
-/

namespace Fuso
open Turn Lz4

/-- The functions of the `rsa` crate that deal with keys. -/
structure RsaKeys (Publ Priv : Type) where
  /-- `RsaPublicKey::from` -/
  publKey : Priv → Publ
  toPublicKeyDer : Publ → Result Bytes
  fromPublicKeyDer : Bytes → Result Publ

/-- The DER of the public key of a private one gives the key again. It has no more than 1024 bytes;
the keys that are made here are of 1024 bits, and have 162. -/
structure RsaKeys.Spki (keys : RsaKeys Publ Priv) : Prop where
  der : keys.toPublicKeyDer (keys.publKey priv) = .ok pem →
    keys.fromPublicKeyDer pem = .ok (keys.publKey priv) ∧ pem ≠ [] ∧ pem.length ≤ 1024

/-- What one end draws: its private key, if `RsaPrivateKey::new` makes one, what the ciphertexts are
padded with, and at the client the iv and the key. -/
structure Draws (Priv G : Type) where
  privKey : Result Priv
  rng : G
  iv : Bytes
  key : Bytes

inductive PenetrateRsaAndAesHandshake where
  | server
  | client

theorem u32FromBe_putU32 (h : n < 2 ^ 32) : u32FromBe (putU32 n) = n := by
  rw [u32FromBe, putU32, List.reverse_reverse, fromLeBytes_toLeBytes h]

namespace PenetrateRsaAndAesHandshake
variable {Publ Priv G : Type} (keys : RsaKeys Publ Priv) (draws : Draws Priv G)

/-- `server_handshake`, up to where the stream is encrypted with the keys. -/
def serverKeys : Dialog (Publ × Priv) := do
  let buf ← Dialog.readExact 4
  let len := u32FromBe buf
  let buf ← Dialog.readExact len
  let privKey ← .ret draws.privKey
  let publKey := keys.publKey privKey
  let clientPublKey ← .ret (keys.fromPublicKeyDer buf)
  let pem ← .ret (keys.toPublicKeyDer publKey)
  let len := pem.length % 2 ^ 32
  Dialog.writeAll (putU32 len)
  Dialog.writeAll pem
  return (clientPublKey, privKey)

/-- The rest of it. -/
def serverSecret : Dialog PenetrateAesAndLz4Decorator := do
  let iv ← Dialog.readExact 16
  let key ← Dialog.readExact 16
  return { iv, key }

/-- `client_handshake`, up to there. -/
def clientKeys : Dialog (Publ × Priv) := do
  let privKey ← .ret draws.privKey
  let publKey := keys.publKey privKey
  let pem ← .ret (keys.toPublicKeyDer publKey)
  let len := pem.length % 2 ^ 32
  Dialog.writeAll (putU32 len)
  Dialog.writeAll pem
  let buf ← Dialog.readExact 4
  let len := u32FromBe buf
  let buf ← Dialog.readExact len
  let serverPublKey ← .ret (keys.fromPublicKeyDer buf)
  return (serverPublKey, privKey)

/-- The rest of it. -/
def clientSecret : Dialog PenetrateAesAndLz4Decorator := do
  Dialog.writeAll draws.iv
  Dialog.writeAll draws.key
  return { iv := draws.iv, key := draws.key }

/-- Where control is in a handshake: the keys are exchanged, or the iv and the key. -/
inductive At (rsa : RsaCrate Publ Priv G) {E D : Type} (lib : Lz4 E D) (S : Type) where
  | keys (s : Dialog.At (Publ × Priv) × Lz4Stream lib S)
  | secret (publ : Publ) (priv : Priv)
      (s : Dialog.At PenetrateAesAndLz4Decorator × RSAEncryptor rsa publ priv (Lz4Stream lib S))

variable {keys draws} {rsa : RsaCrate Publ Priv G} {E D : Type} {lib : Lz4 E D} {S : Type}

/-- A turn of a handshake that goes on with `secret` behind the keys. The stream that is returned is
the one in the state. -/
def step [AsyncRead S] [AsyncWrite S] (rng : G) (secret : Dialog PenetrateAesAndLz4Decorator) :
    At rsa lib S → Turn (At rsa lib S) (Result PenetrateAesAndLz4Decorator)
  | .keys s => (Dialog.step s).andThen .keys fun (_, stream) (publ, priv) =>
    .again (.secret publ priv (secret.start, .new stream rng))
  | .secret publ priv s => (Dialog.step s).andThen (.secret publ priv) fun s decorator =>
    .ready (.secret publ priv s) (.ok decorator)

/-- The compressed stream, and what it compresses to. -/
def At.lz4 : At rsa lib S → Lz4Stream lib S
  | .keys s => s.2
  | .secret _ _ s => s.2.target

def At.stream (s : At rsa lib S) : S := s.lz4.lz4.lz4Stream

variable (keys draws)

/-- `call`: where the handshake starts with a new stream. -/
def start (rsa : RsaCrate Publ Priv G) (lib : Lz4 E D) (this : PenetrateRsaAndAesHandshake)
    (stream : S) : At rsa lib S :=
  match this with
  | .server => .keys ((serverKeys keys draws).start, .new lib stream)
  | .client => .keys ((clientKeys keys draws).start, .new lib stream)

/-- A turn of the future that `call` returns. -/
def turn [AsyncRead S] [AsyncWrite S] (this : PenetrateRsaAndAesHandshake) :
    At rsa lib S → Turn (At rsa lib S) (Result PenetrateAesAndLz4Decorator) :=
  match this with
  | .server => step draws.rng serverSecret
  | .client => step draws.rng (clientSecret draws)

/-! ## What is said -/

/-- The key as it is sent: its length and its DER. -/
def keyMessage (pem : Bytes) : List Bytes := [putU32 (pem.length % 2 ^ 32), pem]

/-- What an end has to say before the stream is encrypted. -/
def said : List Bytes :=
  match draws.privKey with
  | .error _ => []
  | .ok privKey =>
    match keys.toPublicKeyDer (keys.publKey privKey) with
    | .error _ => []
    | .ok pem => keyMessage pem

/-- `b` holds the key `publ` in front of `left`. -/
def Holds (b : Bytes) (publ : Publ) (left : Bytes) : Prop :=
  ∃ len der, b = len ++ (der ++ left) ∧ len.length = 4 ∧ der.length = u32FromBe len ∧
    keys.fromPublicKeyDer der = .ok publ

/-- A dialog that exchanges the keys. -/
structure Swaps (d : Dialog (Publ × Priv)) : Prop where
  tells : ∀ b, (d.feed b).1 <+: said keys draws
  ok : d.feed b = (out, some (.ok (publ, priv), left)) →
    out = said keys draws ∧ out ≠ [] ∧ draws.privKey = .ok priv ∧ Holds keys b publ left

variable {keys draws}

theorem keyMessage_ne_nil (pem : Bytes) : keyMessage pem ≠ [] := List.cons_ne_nil _ _

theorem flatten_keyMessage (h : pem.length ≤ 1024) :
    (keyMessage pem).flatten = putU32 pem.length ++ pem := by
  rw [keyMessage, Nat.mod_eq_of_lt (by omega), List.flatten_cons, List.flatten_singleton]

/-- It goes through the rings of the compression with much room left. -/
theorem length_said (hkeys : keys.Spki) : (said keys draws).flatten.length ≤ 1028 := by
  unfold said
  split
  · exact Nat.zero_le _
  · split
    · exact Nat.zero_le _
    · next pem hpem =>
      obtain ⟨-, -, hlen⟩ := hkeys.der hpem
      rw [flatten_keyMessage hlen, List.length_append]
      exact Nat.add_le_add_left hlen 4

theorem said_eq (hpriv : draws.privKey = .ok privKey)
    (hpem : keys.toPublicKeyDer (keys.publKey privKey) = .ok pem) :
    said keys draws = keyMessage pem := by
  simp only [said, hpriv, hpem]

theorem holds_of_take {b : Bytes} (h4 : 4 ≤ b.length)
    (hlen : u32FromBe (b.take 4) ≤ (b.drop 4).length)
    (hder : keys.fromPublicKeyDer ((b.drop 4).take (u32FromBe (b.take 4))) = .ok publ) :
    Holds keys b publ ((b.drop 4).drop (u32FromBe (b.take 4))) := by
  refine ⟨_, _, ?_, List.length_take_of_le h4, List.length_take_of_le hlen, hder⟩
  rw [List.take_append_drop, List.take_append_drop]

theorem swaps_serverKeys : Swaps keys draws (serverKeys keys draws) where
  tells b := by
    simp only [serverKeys, Dialog.readExact_bind, Dialog.feed]
    split
    · split
      · cases hpriv : draws.privKey with
        | error e => exact List.nil_prefix
        | ok privKey =>
          simp only [Dialog.ok_bind]
          cases keys.fromPublicKeyDer _ with
          | error e => exact List.nil_prefix
          | ok publ =>
            simp only [Dialog.ok_bind]
            cases hpem : keys.toPublicKeyDer (keys.publKey privKey) with
            | error e => exact List.nil_prefix
            | ok pem =>
              rw [said_eq hpriv hpem]
              simp [Dialog.feed, keyMessage]
      · exact List.nil_prefix
    · exact List.nil_prefix
  ok {b out publ priv left} h := by
    simp only [serverKeys, Dialog.readExact_bind, Dialog.feed] at h
    split at h
    · next h4 =>
      split at h
      · next hlen =>
        cases hpriv : draws.privKey with
        | error e =>
          rw [hpriv] at h
          cases h
        | ok privKey =>
          simp only [hpriv, Dialog.ok_bind] at h
          cases hder : keys.fromPublicKeyDer ((b.drop 4).take (u32FromBe (b.take 4))) with
          | error e =>
            rw [hder] at h
            cases h
          | ok publ =>
            simp only [hder, Dialog.ok_bind] at h
            cases hpem : keys.toPublicKeyDer (keys.publKey privKey) with
            | error e =>
              rw [hpem] at h
              cases h
            | ok pem =>
              simp only [hpem, Dialog.ok_bind, Dialog.writeAll_bind, Dialog.pure_eq, Dialog.feed]
                at h
              cases h
              exact ⟨(said_eq hpriv hpem).symm, keyMessage_ne_nil pem, rfl,
                holds_of_take h4 hlen hder⟩
      · cases h
    · cases h

/-- The part of the client that reads the key of the server. -/
def clientReads (keys : RsaKeys Publ Priv) (privKey : Priv) : Dialog (Publ × Priv) := do
  let buf ← Dialog.readExact 4
  let buf ← Dialog.readExact (u32FromBe buf)
  let serverPublKey ← .ret (keys.fromPublicKeyDer buf)
  return (serverPublKey, privKey)

theorem clientKeys_eq (hpriv : draws.privKey = .ok privKey)
    (hpem : keys.toPublicKeyDer (keys.publKey privKey) = .ok pem) :
    clientKeys keys draws =
      .write (putU32 (pem.length % 2 ^ 32)) (.write pem (clientReads keys privKey)) := by
  simp only [clientKeys, hpriv, hpem, Dialog.ok_bind, Dialog.writeAll_bind]
  rfl

theorem clientReads_tells (b : Bytes) : ((clientReads keys privKey).feed b).1 = [] := by
  simp only [clientReads, Dialog.readExact_bind, Dialog.feed]
  split
  · split
    · cases keys.fromPublicKeyDer _ <;> rfl
    · rfl
  · rfl

theorem clientReads_ok {b : Bytes}
    (h : ((clientReads keys privKey).feed b).2 = some (.ok (publ, priv), left)) :
    privKey = priv ∧ Holds keys b publ left := by
  simp only [clientReads, Dialog.readExact_bind, Dialog.feed] at h
  split at h
  · next h4 =>
    split at h
    · next hlen =>
      cases hder : keys.fromPublicKeyDer ((b.drop 4).take (u32FromBe (b.take 4))) with
      | error e =>
        rw [hder] at h
        cases h
      | ok publ' =>
        rw [hder] at h
        cases h
        exact ⟨rfl, holds_of_take h4 hlen hder⟩
    · cases h
  · cases h

theorem swaps_clientKeys : Swaps keys draws (clientKeys keys draws) := by
  have hfail : ∀ e, Swaps keys draws (.ret (.error e)) := fun e =>
    ⟨fun b => List.nil_prefix, nofun⟩
  cases hpriv : draws.privKey with
  | error e =>
    simp only [clientKeys, hpriv, Dialog.error_bind]
    exact hfail e
  | ok privKey =>
    cases hpem : keys.toPublicKeyDer (keys.publKey privKey) with
    | error e =>
      simp only [clientKeys, hpriv, hpem, Dialog.ok_bind, Dialog.error_bind]
      exact hfail e
    | ok pem =>
      have hfeed : ∀ b, (clientKeys keys draws).feed b =
          (said keys draws, ((clientReads keys privKey).feed b).2) := by
        intro b
        rw [clientKeys_eq hpriv hpem, said_eq hpriv hpem, Dialog.feed, Dialog.feed,
          clientReads_tells, keyMessage]
      refine ⟨fun b => ?_, fun {b out publ priv left} h => ?_⟩
      · rw [hfeed]
      · rw [hfeed, Prod.mk.injEq] at h
        obtain ⟨rfl, hholds⟩ := clientReads_ok h.2
        refine ⟨h.1.symm, ?_, hpriv, hholds⟩
        rw [← h.1, said_eq hpriv hpem]
        exact keyMessage_ne_nil pem

/-! ## What the other end makes of it -/

theorem fits_serverKeys (hkeys : keys.Spki) :
    (serverKeys keys draws).Fits fun _ => True := by
  simp only [serverKeys, Dialog.readExact_bind, Dialog.Fits]
  intro _ buf
  cases draws.privKey with
  | error e => trivial
  | ok privKey =>
    simp only [Dialog.ok_bind]
    cases keys.fromPublicKeyDer buf with
    | error e => trivial
    | ok publ =>
      simp only [Dialog.ok_bind]
      cases hpem : keys.toPublicKeyDer (keys.publKey privKey) with
      | error e => trivial
      | ok pem => exact ⟨⟨nofun, trivial⟩, ⟨(hkeys.der hpem).2.1, trivial⟩, trivial⟩

theorem fits_clientKeys (hkeys : keys.Spki) :
    (clientKeys keys draws).Fits fun _ => True := by
  cases hpriv : draws.privKey with
  | error e =>
    simp only [clientKeys, hpriv, Dialog.error_bind]
    trivial
  | ok privKey =>
    cases hpem : keys.toPublicKeyDer (keys.publKey privKey) with
    | error e =>
      simp only [clientKeys, hpriv, hpem, Dialog.ok_bind, Dialog.error_bind]
      trivial
    | ok pem =>
      rw [clientKeys_eq hpriv hpem]
      refine ⟨⟨nofun, trivial⟩, ⟨(hkeys.der hpem).2.1, trivial⟩, ?_⟩
      simp only [clientReads, Dialog.readExact_bind, Dialog.Fits]
      intro _ buf
      cases keys.fromPublicKeyDer buf <;> trivial

/-- What an end has to say holds its key, and nothing else. -/
theorem Holds.of_prefix {b more : Bytes} (h : Holds keys b publ left) (hkeys : keys.Spki)
    (hb : b <+: (said keys draws).flatten ++ more) (hmore : said keys draws = [] → more = []) :
    ∃ privKey, draws.privKey = .ok privKey ∧ publ = keys.publKey privKey ∧
      b = (said keys draws).flatten ++ left := by
  obtain ⟨len, der, rfl, h4, hlen, hder⟩ := h
  have hne : said keys draws ≠ [] := by
    intro hnil
    rw [hnil, hmore hnil] at hb
    have := hb.length_le
    simp only [List.length_append, List.flatten_nil, List.length_nil, h4] at this
    omega
  cases hpriv : draws.privKey with
  | error e => exact absurd (by rw [said, hpriv]) hne
  | ok privKey =>
    cases hpem : keys.toPublicKeyDer (keys.publKey privKey) with
    | error e => exact absurd (by simp only [said, hpriv, hpem]) hne
    | ok pem =>
      obtain ⟨hpubl, -, hle⟩ := hkeys.der hpem
      have hlt : pem.length < 2 ^ 32 := by omega
      rw [said_eq hpriv hpem, flatten_keyMessage hle, List.append_assoc] at hb ⊢
      obtain ⟨t, ht⟩ := hb
      rw [List.append_assoc] at ht
      obtain ⟨rfl, hrest⟩ := List.append_inj ht h4
      rw [u32FromBe_putU32 hlt] at hlen
      rw [List.append_assoc] at hrest
      obtain ⟨rfl, -⟩ := List.append_inj hrest hlen
      rw [hpubl] at hder
      cases hder
      exact ⟨privKey, rfl, rfl, rfl⟩

end PenetrateRsaAndAesHandshake
end Fuso

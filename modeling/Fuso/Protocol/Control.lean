import Fuso.Protocol.Encrypted

/-!
# The senders of a control channel

The heartbeat, `Poto::Map` and `Poto::MapError` are sent through clones of one `WriteHalf`, over a
plain stream, an `RSAEncryptor` or an `AESEncryptor`. `senders_uncorrupted` says when their packets
come out whole at the other end; `not_senders_uncorrupted` shows a poll in the middle of another
sender's packet, which splices two packets on a plain stream and loses one on an encrypted one.
-/

namespace Fuso
open Senders Encrypted

/-! ## The libraries -/

/-- `priv` decrypts what was encrypted with `publ`, and no ciphertext is empty. -/
structure RsaCrate.Inverts (rsa : RsaCrate Publ Priv G) (publ : Publ) (priv : Priv) : Prop where
  decrypt : ∀ rng m c rng', rsa.encrypt publ rng m = (some c, rng') → rsa.decrypt priv c = some m
  ne_nil : ∀ rng m c rng', rsa.encrypt publ rng m = (some c, rng') → c ≠ []

/-- What was encrypted decrypts, and no ciphertext is empty. -/
structure AesCrate.Inverts (aes : AesCrate) (iv key : Bytes) : Prop where
  decrypt : ∀ m c, aes.encryptPadded key iv m = some c → aes.decryptPadded key iv c = some m
  ne_nil : ∀ m c, aes.encryptPadded key iv m = some c → c ≠ []

theorem matches_rsa {rsa : RsaCrate Publ Priv G} (hrsa : rsa.Inverts publ priv')
    (hps : ∀ p ∈ ps, Packet.WellFormed p) (hshort : ∀ p ∈ ps, ∀ rng c rng',
      rsa.encrypt publ rng (Packet.encode p) = (some c, rng') → c.length < 2 ^ 32) :
    Matches (rsaCipher rsa publ priv) (rsaCipher rsa publ' priv') ps := by
  rintro p hp f ⟨rng, rng', hf⟩
  obtain ⟨⟨r, rng₁⟩, hc⟩ : ∃ r, rsa.encrypt publ rng p.encode = r := ⟨_, rfl⟩
  cases r with
  | none => simp [rsaCipher, hc] at hf
  | some c =>
    have hlt := hshort p hp rng c rng₁ hc
    obtain ⟨rfl, -⟩ : toLeBytes c.length ++ c = f ∧ rng₁ = rng' := by
      simpa only [rsaCipher, hc, Nat.mod_eq_of_lt hlt, Prod.mk.injEq, Except.ok.injEq] using hf
    exact ⟨c, rfl, hrsa.ne_nil _ _ _ _ hc, hlt, by simp [rsaCipher, hrsa.decrypt _ _ _ _ hc],
      (hps p hp).encode_ne_nil⟩

theorem matches_aes {aes : AesCrate} (haes : aes.Inverts iv key)
    (hps : ∀ p ∈ ps, Packet.WellFormed p) (hshort : ∀ p ∈ ps, ∀ c,
      aes.encryptPadded key iv (Packet.encode p) = some c → c.length < 2 ^ 32) :
    Matches (aesCipher aes iv key) (aesCipher aes iv key) ps := by
  rintro p hp f ⟨rng, rng', hf⟩
  cases hc : aes.encryptPadded key iv p.encode with
  | none => simp [aesCipher, hc] at hf
  | some c =>
    have hlt := hshort p hp c hc
    obtain rfl : toLeBytes c.length ++ c = f := by
      have hlen : (toLeBytes c.length ++ c).length ≤ c.length + 4 := by simp; omega
      simpa only [aesCipher, hc, Nat.mod_eq_of_lt hlt, List.take_of_length_le hlen, Prod.mk.injEq,
        Except.ok.injEq, and_true] using hf
    exact ⟨c, rfl, haes.ne_nil _ _ hc, hlt, by simp [aesCipher, haes.decrypt _ _ hc],
      (hps p hp).encode_ne_nil⟩

/-! ## Two senders -/

/-- `Poto::Ping`, the heartbeat. -/
def pingPacket : Packet := makePacket [0, 0, 0, 0]

/-- `Poto::MapError(7, "")`. -/
def mapErrorPacket : Packet := makePacket [2, 0, 0, 0, 7, 0, 0, 0, 0, 0, 0, 0, 0, 0, 0, 0]

/-- A key of 64 bytes with the exponent 1: only the padding is left. -/
def paddingRsa : RsaCrate Unit Unit Unit where
  encrypt _ rng m :=
    (if m.length ≤ 53 then some ([0, 2] ++ .replicate (61 - m.length) 1 ++ 0 :: m) else none, rng)
  decrypt _ c := some (((c.drop 2).dropWhile (· ≠ 0)).drop 1)

/-- The padding without the block cipher. -/
def paddingAes : AesCrate where
  encryptPadded _ _ m :=
    let n := 16 - m.length % 16
    some (m ++ .replicate n (.ofNat n))
  decryptPadded _ _ c := some (c.take (c.length - (c.getLastD 0).toNat))

theorem paddingRsa_inverts : paddingRsa.Inverts () () := by
  refine ⟨fun rng m c rng' h => ?_, fun rng m c rng' h => ?_⟩
  all_goals
    simp only [paddingRsa, Prod.mk.injEq, and_true] at h
    split at h
    · cases h
      simp [paddingRsa]
    · cases h

theorem length_paddingRsa (h : paddingRsa.encrypt () rng m = (some c, rng')) : c.length = 64 := by
  simp only [paddingRsa, Prod.mk.injEq, and_true] at h
  split at h
  · cases h
    simp
    omega
  · cases h

theorem paddingAes_inverts (iv key : Bytes) : paddingAes.Inverts iv key := by
  refine ⟨fun m c h => ?_, fun m c h => ?_⟩
  all_goals
    have hlt := Nat.mod_lt m.length (show 16 > 0 by decide)
    generalize hn : 16 - m.length % 16 = n
    simp only [paddingAes, hn, Option.some.injEq] at h
    obtain rfl := h
  · have hlast : (m ++ List.replicate n (UInt8.ofNat n)).getLastD 0 = UInt8.ofNat n := by
      rw [List.getLastD_eq_getLast?, List.getLast?_append, List.getLast?_replicate,
        if_neg (by omega)]
      rfl
    have hnat : (UInt8.ofNat n).toNat = n := by
      rw [UInt8.toNat_ofNat', Nat.mod_eq_of_lt (by omega)]
    simp only [paddingAes, hlast, hnat, List.length_append, List.length_replicate,
      Nat.add_sub_cancel, List.take_left']
  · intro h
    have := congrArg List.length h
    simp only [List.length_append, List.length_replicate, List.length_nil] at this
    omega

/-- The two senders over each kind of stream. -/
def plainSenders (room : List (Poll Nat)) : Senders Sink :=
  start [pingPacket, mapErrorPacket] ⟨room, []⟩

def rsaSenders (room : List (Poll Nat)) : Senders (RSAEncryptor paddingRsa () () Sink) :=
  start [pingPacket, mapErrorPacket] (.new ⟨room, []⟩ ())

def aesSenders (room : List (Poll Nat)) : Senders (AESEncryptor paddingAes [] [] Sink) :=
  start [pingPacket, mapErrorPacket] (.new ⟨room, []⟩ ())

/-! ## The packets at the other end -/

/-- Whatever the order of the polls and whatever the sink answers, the peer decodes the packets
whose send returned `Ok`, each once and as it was sent. On a plain stream this holds in every run in
which no sender writes while another one is in the middle of its packet. Over an encryptor it holds
in every run in which what `wbuf` holds is finished by a sender of the same packet and the sink does
not return `Ok(0)` in the middle of a message. -/
theorem senders_uncorrupted (ps : List Packet) (hps : ∀ p ∈ ps, p.WellFormed)
    (room : List (Poll Nat)) (events : List Nat) :
    (Admissible turn Plain.Clear (start ps ⟨room, []⟩) events →
      let s := after turn (start ps (⟨room, []⟩ : Sink)) events
     Uncorrupted Plain.peer s.writer.inner.sent s) ∧
    (∀ (Publ Priv G : Type) (rsa : RsaCrate Publ Priv G) (publ publ' : Publ) (priv priv' : Priv)
        (rng rng' : G), rsa.Inverts publ priv' →
      (∀ p ∈ ps, ∀ rng c rng', rsa.encrypt publ rng p.encode = (some c, rng') →
        c.length < 2 ^ 32) →
      let this : RSAEncryptor rsa publ priv Sink := .new ⟨room, []⟩ rng
      Admissible Watched.turn Encrypted.Clear (.start ps this) events →
      let s := after turn (start ps this) events
     Uncorrupted (Encrypted.peer (rsaCipher rsa publ' priv') rng') s.writer.inner.target.sent s) ∧
    (∀ (aes : AesCrate) (iv key : Bytes), aes.Inverts iv key →
      (∀ p ∈ ps, ∀ c, aes.encryptPadded key iv p.encode = some c → c.length < 2 ^ 32) →
      let this : AESEncryptor aes iv key Sink := .new ⟨room, []⟩ ()
      Admissible Watched.turn Encrypted.Clear (.start ps this) events →
      let s := after turn (start ps this) events
     Uncorrupted (Encrypted.peer (aesCipher aes iv key) ()) s.writer.inner.target.sent s) :=
  ⟨Plain.uncorrupted_of_admissible hps,
    fun _ _ _ _ _ _ _ _ _ rng' hrsa hshort hok =>
      Encrypted.uncorrupted_of_admissible hps (matches_rsa hrsa hps hshort) hok rng',
    fun _ _ _ haes hshort hok =>
      Encrypted.uncorrupted_of_admissible hps (matches_aes haes hps hshort) hok ()⟩

/-- A run in which both senders are polled before the first one is ready. -/
theorem senders_uncorrupted_ping :
    (let s := after turn (plainSenders [.ready 3, .pending, .ready 100, .ready 100]) [0, 1, 0, 1]
     Uncorrupted Plain.peer s.writer.inner.sent s) ∧
    (let s := after turn
        (rsaSenders [.pending, .ready 3, .pending, .pending, .ready 100, .ready 100])
        [0, 0, 1, 0, 1]
     Uncorrupted (Encrypted.peer (rsaCipher paddingRsa () ()) ()) s.writer.inner.target.sent s) ∧
    (let s := after turn
        (aesSenders [.pending, .ready 3, .pending, .pending, .ready 100, .ready 100])
        [0, 0, 1, 0, 1]
     Uncorrupted (Encrypted.peer (aesCipher paddingAes [] []) ())
       s.writer.inner.target.sent s) := by
  have hps : ∀ p ∈ [pingPacket, mapErrorPacket], p.WellFormed := by
    simp only [List.forall_mem_cons, List.not_mem_nil, false_imp_iff, implies_true, and_true]
    exact ⟨wellFormed_makePacket (by decide), wellFormed_makePacket (by decide)⟩
  refine ⟨(senders_uncorrupted _ hps _ _).1 (by decide +kernel),
    (senders_uncorrupted _ hps _ _).2.1 _ _ _ _ _ _ _ _ _ _ paddingRsa_inverts ?_
      (by decide +kernel),
    (senders_uncorrupted _ hps _ _).2.2 _ _ _ (paddingAes_inverts _ _) ?_ (by decide +kernel)⟩
  · intro p _ rng c rng' h
    rw [length_paddingRsa h]
    decide
  · intro p hp c h
    rcases List.mem_pair.1 hp with rfl | rfl <;> cases h <;> decide +kernel

theorem take_of_decodes (h : Decodes Plain.peer wire (p :: ps)) : wire.take 4 = MAGIC := by
  obtain ⟨_, H⟩ := h.receives
  cases H with
  | cons H _ =>
    obtain ⟨hp, b, -, heq⟩ := RecvPacket.recv_sound (S := Duplex.source) rfl H
    have hwire : wire = p.encode ++ b := heq
    rw [hwire, hp.encode_eq]
    rfl

/-- A message that went out twice is received twice. -/
theorem not_uncorrupted_twice {C : Cipher G} {s : Senders W} (hp : Packet.WellFormed p)
    (hf : C.Opens f p.encode) (hret : ¬ [p, p].Perm s.returned) (rng : G) :
    ¬ Uncorrupted (Encrypted.peer C rng) (f ++ f) s := by
  rintro ⟨order, hperm, hdec⟩
  have hopens : List.Forall₂ C.Opens [f, f] ([p, p].map Packet.encode) := .cons hf (.cons hf .nil)
  have htwice := decodes_messages (by simpa using hp) hopens (Format.open_nil (by decide)) rng
  rw [show [f, f].flatten ++ [] = f ++ f by simp] at htwice
  exact hret (htwice.unique hdec ▸ hperm)

/-- On a plain stream the second packet is written into the first one. Over an encryptor the second
sender writes out the message of the first one and returns, and the first one sends its packet
again. -/
theorem not_senders_uncorrupted :
    (let s := after turn (plainSenders [.ready 3, .pending, .ready 100, .ready 100]) [0, 0, 1, 0]
     ¬ Uncorrupted Plain.peer s.writer.inner.sent s) ∧
    (let s := after turn (rsaSenders [.pending, .ready 100, .ready 100]) [0, 1, 0]
     ¬ Uncorrupted (Encrypted.peer (rsaCipher paddingRsa () ()) ()) s.writer.inner.target.sent s) ∧
    (let s := after turn (aesSenders [.pending, .ready 100, .ready 100]) [0, 1, 0]
     ¬ Uncorrupted (Encrypted.peer (aesCipher paddingAes [] []) ())
       s.writer.inner.target.sent s) := by
  have hping : pingPacket.WellFormed := wellFormed_makePacket (by decide)
  refine ⟨?_, ?_, ?_⟩ <;> dsimp only
  · rintro ⟨order, hperm, hdec⟩
    cases order with
    | nil => exact absurd hperm (by decide +kernel)
    | cons p order => exact absurd (take_of_decodes hdec) (by decide +kernel)
  · let c : Bytes := [0, 2] ++ .replicate 49 1 ++ 0 :: pingPacket.encode
    have hopens : (rsaCipher paddingRsa () ()).Opens (toLeBytes c.length ++ c) pingPacket.encode :=
      ⟨c, rfl, by decide, by decide +kernel, by decide +kernel, hping.encode_ne_nil⟩
    have hsent : (after turn (rsaSenders [.pending, .ready 100, .ready 100])
        [0, 1, 0]).writer.inner.target.sent =
        (toLeBytes c.length ++ c) ++ (toLeBytes c.length ++ c) := by
      decide +kernel
    rw [hsent]
    exact not_uncorrupted_twice hping hopens (by decide +kernel) ()
  · let c : Bytes := pingPacket.encode ++ .replicate 4 4
    have hopens : (aesCipher paddingAes [] []).Opens (toLeBytes c.length ++ c) pingPacket.encode :=
      ⟨c, rfl, by decide, by decide +kernel, by decide +kernel, hping.encode_ne_nil⟩
    have hsent : (after turn (aesSenders [.pending, .ready 100, .ready 100])
        [0, 1, 0]).writer.inner.target.sent =
        (toLeBytes c.length ++ c) ++ (toLeBytes c.length ++ c) := by
      decide +kernel
    rw [hsent]
    exact not_uncorrupted_twice hping hopens (by decide +kernel) ()

end Fuso

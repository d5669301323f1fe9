import Fuso.Encryption.Reader
import Fuso.Encryption.Send
import Fuso.Protocol.Control
import Fuso.Protocol.Send

/-!
# What comes out of an encrypted stream

A single writer and a reader at the two ends of an encrypted stream. `aes_transparent`: through an
`AESEncryptor` the buffers come out as they went in. `rsa_transparent_iff`: through an
`RSAEncryptor` they do exactly when none is longer than the 117 bytes that one RSA message holds.
-/

namespace Fuso
open Turn

/-- PKCS #7 padding and a decryption that inverts the encryption. -/
structure AesCrate.Pkcs7 (aes : AesCrate) (iv key : Bytes) : Prop where
  pads : ∀ m, ∃ c, aes.encryptPadded key iv m = some c ∧ c.length = 16 * (m.length / 16 + 1)
  decrypt : ∀ m c, aes.encryptPadded key iv m = some c → aes.decryptPadded key iv c = some m

/-- PKCS #1 v1.5 with a key of 1024 bits, and a decryption that inverts the encryption. -/
structure RsaCrate.Pkcs1v15 (rsa : RsaCrate Publ Priv G) (publ : Publ) (priv : Priv) : Prop where
  short : ∀ rng m, m.length ≤ 117 →
    ∃ c rng', rsa.encrypt publ rng m = (some c, rng') ∧ c.length = 128
  long : ∀ rng m, 117 < m.length → ∃ rng', rsa.encrypt publ rng m = (none, rng')
  decrypt : ∀ rng m c rng', rsa.encrypt publ rng m = (some c, rng') → rsa.decrypt priv c = some m

/-- An encryptor at one end of a fresh stream that takes bytes as `writes` says. -/
def writeEnd (C : Cipher G) (writes : List Answer) (rng : G) : Encryptor C Duplex :=
  .new ⟨[], [], writes, [], []⟩ rng

/-- An encryptor at the other end, with the bytes on the wire and the answers to its reads. -/
def readEnd (C : Cipher G) (wire : Bytes) (reads : List Answer) (rng : G) : Encryptor C Duplex :=
  .new ⟨wire, reads, [], [], []⟩ rng

theorem Cipher.Opens.ne_nil {C : Cipher G} (h : C.Opens f m) : f ≠ [] := by
  rintro rfl
  exact absurd h.frame.1 (by decide)

namespace Encryptor
variable {G : Type} {C : Cipher G} {G' : Type} {C' : Cipher G'}

/-- The writer is idle and has sent the messages of `bufs`. -/
def Sent (C' : Cipher G') (bufs : List Bytes) (this : Encryptor C Duplex) : Prop :=
  this.wbuf = none ∧ ∃ frames, List.Forall₂ C'.Opens frames bufs ∧
    this.target.sent = frames.flatten

theorem Sent.concat {this this' : Encryptor C Duplex} (h : Sent C' bufs this)
    (hf : C'.Opens f buf) (hw : this'.wbuf = none) (htakes : this.target.Takes f this'.target) :
    Sent C' (bufs ++ [buf]) this' := by
  obtain ⟨-, frames, hopens, hsent⟩ := h
  refine ⟨hw, frames ++ [f], List.rel_append hopens (.cons hf .nil), ?_⟩
  rw [htakes.sent, hsent, List.flatten_append, List.flatten_singleton]

/-- What is read at the other end of what an idle writer has sent. -/
theorem Sent.yields {this : Encryptor C Duplex} (h : Sent C' bufs this) (reads : List Answer)
    (rng : G') : Yields pollInto (readEnd C' this.target.sent reads rng) bufs.flatten ∧
      (this.target.sent.length ≤ (sizes reads).length →
        Completes pollInto (readEnd C' this.target.sent reads rng) bufs.flatten) := by
  obtain ⟨-, frames, hopens, hsent⟩ := h
  have hleft := left_new hopens reads rng
  rw [hsent]
  exact ⟨(reader C').yields hleft, (reader C').completes hleft⟩

end Encryptor

/-! ## AES -/

/-- The number of bytes of the message of a buffer. -/
def aesMessageLen (buf : Bytes) : Nat := 4 + 16 * (buf.length / 16 + 1)

theorem AesCrate.Pkcs7.message {aes : AesCrate} (haes : aes.Pkcs7 iv key) (hne : buf ≠ [])
    (hlen : buf.length < 2 ^ 32 - 20) : ∃ f, (aesCipher aes iv key).encrypt () buf = (.ok f, ()) ∧
      (aesCipher aes iv key).Opens f buf ∧ f.length = aesMessageLen buf := by
  obtain ⟨c, hc, hclen⟩ := haes.pads buf
  have hlt : c.length < 2 ^ 32 := by omega
  have htake : (toLeBytes c.length ++ c).take (c.length + 4) = toLeBytes c.length ++ c :=
    List.take_of_length_le (by simp; omega)
  refine ⟨toLeBytes c.length ++ c, ?_, ⟨c, rfl, ?_, hlt, ?_, hne⟩, ?_⟩
  · simp only [aesCipher, hc, Nat.mod_eq_of_lt hlt, htake]
  · exact List.length_pos_iff.1 (by omega)
  · simp only [aesCipher, haes.decrypt _ _ hc]
  · simp [aesMessageLen, hclen]

/-- However the writes and the reads are cut, every write is ready with the length of its buffer,
and the reads deliver the buffers. -/
theorem aes_transparent {aes : AesCrate} (haes : aes.Pkcs7 iv key) (bufs : List Bytes)
    (hbufs : ∀ buf ∈ bufs, buf ≠ [] ∧ buf.length < 2 ^ 32 - 20) :
    (∀ writes rs w, Writes repoll (writeEnd (aesCipher aes iv key) writes ()) bufs rs w →
      rs = bufs.map (fun buf => .ok buf.length) ∧
      ∀ reads, Yields pollInto (readEnd (aesCipher aes iv key) w.target.sent reads ())
          bufs.flatten ∧
        (w.target.sent.length ≤ (sizes reads).length →
          Completes pollInto (readEnd (aesCipher aes iv key) w.target.sent reads ())
            bufs.flatten)) ∧
    ∃ n, ∀ writes, n ≤ (sizes writes).length →
      ∃ rs w, Writes repoll (writeEnd (aesCipher aes iv key) writes ()) bufs rs w := by
  have hstart : ∀ writes, Encryptor.Sent (aesCipher aes iv key) []
      (writeEnd (aesCipher aes iv key) writes ()) := fun writes => ⟨rfl, [], .nil, rfl⟩
  refine ⟨fun writes rs w H => ?_, (bufs.map aesMessageLen).sum, fun writes hle => ?_⟩
  · have hstep : ∀ done buf (s s' : AESEncryptor aes iv key Duplex) r, buf ∈ bufs →
        Encryptor.Sent (aesCipher aes iv key) done s → Drives (repoll buf) s s' r →
        r = .ok buf.length ∧ Encryptor.Sent (aesCipher aes iv key) (done ++ [buf]) s' := by
      intro done buf s s' r hbuf hs H
      obtain ⟨hne, hlen⟩ := hbufs buf hbuf
      obtain ⟨f, hc, hf, -⟩ := haes.message hne hlen
      obtain ⟨rfl, hw, htakes⟩ := Encryptor.drives_repoll hs.1 hc hf.ne_nil H
      exact ⟨rfl, hs.concat hf hw htakes⟩
    obtain ⟨hrs, hsent⟩ := H.post hstep (hstart writes)
    exact ⟨hrs, fun reads => hsent.yields reads ()⟩
  · refine exists_writes (I := Encryptor.Sent (aesCipher aes iv key))
      (fun rest s => s.target.Roomy ((rest.map aesMessageLen).sum))
      (fun done buf rest s hbuf hs hroom => ?_) (hstart writes) hle
    obtain ⟨hne, hlen⟩ := hbufs buf hbuf
    obtain ⟨f, hc, hf, hflen⟩ := haes.message hne hlen
    rw [List.map_cons, List.sum_cons, ← hflen] at hroom
    obtain ⟨s', r, H⟩ := Encryptor.exists_repoll hs.1 hc hf.ne_nil
      (Nat.le_trans (Nat.le_add_right _ _) hroom)
    obtain ⟨-, hw, htakes⟩ := Encryptor.drives_repoll hs.1 hc hf.ne_nil H
    exact ⟨s', r, H, hs.concat hf hw htakes, htakes.room _ hroom⟩

theorem pkcs7_paddingAes (iv key : Bytes) : paddingAes.Pkcs7 iv key where
  pads m := ⟨_, rfl, by
    rw [List.length_append, List.length_replicate]
    omega⟩
  decrypt := (paddingAes_inverts iv key).decrypt

/-- Two buffers. -/
theorem aes_transparent_two : ∃ writes rs w,
    Writes repoll (writeEnd (aesCipher paddingAes [] []) writes ()) [[1, 2, 3], [4]] rs w ∧
      rs = [.ok 3, .ok 1] ∧
      Yields pollInto (readEnd (aesCipher paddingAes [] []) w.target.sent [.upTo 6] ())
        [1, 2, 3, 4] := by
  obtain ⟨hall, n, hex⟩ := aes_transparent (pkcs7_paddingAes [] []) [[1, 2, 3], [4]] (by decide)
  obtain ⟨rs, w, H⟩ := hex (.replicate n (.upTo 0)) (Nat.le_of_eq (length_sizes_replicate _ _).symm)
  obtain ⟨hrs, hyields⟩ := hall _ rs w H
  exact ⟨_, rs, w, H, hrs, (hyields _).1⟩

/-! ## RSA -/

section
variable {rsa : RsaCrate Publ Priv G} {publ publ' : Publ} {priv priv' : Priv}

theorem RsaCrate.Pkcs1v15.message (hrsa : rsa.Pkcs1v15 publ priv) (publ' : Publ) (priv' : Priv)
    (hne : buf ≠ [])
    (hlen : buf.length ≤ 117) (rng : G) : ∃ f rng',
      (rsaCipher rsa publ priv').encrypt rng buf = (.ok f, rng') ∧
      (rsaCipher rsa publ' priv).Opens f buf ∧ f.length = 132 := by
  obtain ⟨c, rng', hc, hclen⟩ := hrsa.short rng buf hlen
  have hlt : c.length < 2 ^ 32 := by omega
  refine ⟨toLeBytes c.length ++ c, rng', ?_, ⟨c, rfl, ?_, hlt, ?_, hne⟩, ?_⟩
  · simp only [rsaCipher, hc, Nat.mod_eq_of_lt hlt]
  · exact List.length_pos_iff.1 (by omega)
  · simp only [rsaCipher, hrsa.decrypt _ _ _ _ hc]
  · simp [hclen]

/-- What the write of a buffer is ready with. -/
def rsaResult (buf : Bytes) : Result Unit := if buf.length ≤ 117 then .ok () else .error .rsa

theorem RsaCrate.Pkcs1v15.refused (hrsa : rsa.Pkcs1v15 publ priv) (priv' : Priv)
    (hlen : 117 < buf.length)
    (rng : G) : ∃ rng', (rsaCipher rsa publ priv').encrypt rng buf = (.error .rsa, rng') := by
  obtain ⟨rng', hc⟩ := hrsa.long rng buf hlen
  exact ⟨rng', by simp only [rsaCipher, hc]⟩

/-- The write of one buffer through an idle encryptor. -/
theorem RsaCrate.Pkcs1v15.written (hrsa : rsa.Pkcs1v15 publ priv) (hne : buf ≠ [])
    {start : RSAEncryptor rsa publ priv' Duplex} {done : List Bytes}
    (hs : Encryptor.Sent (rsaCipher rsa publ' priv) done start) :
    ∃ (I : RSAEncryptor rsa publ priv' Duplex → Prop)
      (μ : RSAEncryptor rsa publ priv' Duplex → Nat),
      I start ∧ Whole buf I (fun this r => r = rsaResult buf ∧
          Encryptor.Sent (rsaCipher rsa publ' priv)
            (done ++ [buf].filter (·.length ≤ 117)) this ∧
          ∀ n, start.target.Roomy (132 + n) → this.target.Roomy n)
        (start.target.Roomy 132) μ := by
  by_cases hlen : buf.length ≤ 117
  · obtain ⟨f, rng', hc, hf, hflen⟩ := hrsa.message publ' priv' hne hlen start.rng
    refine ⟨Encryptor.Sending start f, (·.target.writes.length), .inl rfl, ⟨fun this h => ?_⟩⟩
    obtain ⟨this', ⟨hpoll, h', huses⟩ | ⟨hpoll, hw, htakes⟩⟩ := h.poll hs.1 hc hf.ne_nil
    · exact ⟨this', .inl ⟨hpoll, h', hflen ▸ huses⟩⟩
    · refine ⟨this', .inr (.inl ⟨hpoll, (if_pos hlen).symm, ?_, fun n hroom => ?_⟩)⟩
      · rw [List.filter_singleton, decide_eq_true hlen]
        exact hs.concat hf hw htakes
      · exact htakes.room n (hflen.symm ▸ hroom)
  · obtain ⟨rng', hc⟩ := hrsa.refused priv' (Nat.lt_of_not_le hlen) start.rng
    have hpoll : start.pollWrite buf = ({ start with rng := rng' }, .ready (.error .rsa)) := by
      simp only [Encryptor.pollWrite, hs.1, Encryptor.pollEncryptWrite, hc]
    refine ⟨(· = start), fun _ => 0, rfl, ⟨fun this h => ?_⟩⟩
    subst h
    refine ⟨{ this with rng := rng' }, .inr (.inr ⟨.rsa, hpoll, (if_neg hlen).symm, ?_,
      fun n hroom => ?_⟩)⟩
    · have hnil : [buf].filter (·.length ≤ 117) = [] := by
        rw [List.filter_singleton, decide_eq_false hlen]
        rfl
      rw [hnil, List.append_nil]
      exact ⟨hs.1, hs.2⟩
    · unfold Duplex.Roomy at *
      dsimp only
      omega

/-- What is written, one buffer after the other. -/
theorem RsaCrate.Pkcs1v15.writesAll (hrsa : rsa.Pkcs1v15 publ priv)
    (hne : ∀ job ∈ jobs, job.2 ≠ []) {start this : RSAEncryptor rsa publ priv' Duplex}
    {done : List Bytes} (hs : Encryptor.Sent (rsaCipher rsa publ' priv) done start)
    (H : WritesAll start jobs rs this) :
    rs = jobs.map (fun job => rsaResult job.2) ∧ Encryptor.Sent (rsaCipher rsa publ' priv)
      (done ++ (jobs.map Prod.snd).filter (·.length ≤ 117)) this := by
  induction H generalizing done with
  | nil => exact ⟨rfl, by simpa using hs⟩
  | @cons via buf start this₁ r jobs rs this H _ ih =>
    obtain ⟨I, μ, hI, hwhole⟩ := hrsa.written (hne (via, buf) (by simp)) hs
    obtain ⟨rfl, hs₁, -⟩ := hwhole.post (hne (via, buf) (by simp)) hI H
    obtain ⟨rfl, hs'⟩ := ih (fun job hj => hne job (by simp [hj])) hs₁
    refine ⟨rfl, ?_⟩
    rwa [List.append_assoc, ← List.filter_append] at hs'

theorem RsaCrate.Pkcs1v15.exists_writesAll (hrsa : rsa.Pkcs1v15 publ priv)
    (hne : ∀ job ∈ jobs, job.2 ≠ []) {start : RSAEncryptor rsa publ priv' Duplex}
    {done : List Bytes} (hs : Encryptor.Sent (rsaCipher rsa publ' priv) done start)
    (hroom : start.target.Roomy (132 * jobs.length)) : ∃ rs this, WritesAll start jobs rs this := by
  induction jobs generalizing done start with
  | nil => exact ⟨[], start, .nil⟩
  | cons job jobs ih =>
    obtain ⟨via, buf⟩ := job
    have hbuf : buf ≠ [] := hne (via, buf) (by simp)
    rw [List.length_cons, Nat.mul_add, Nat.add_comm] at hroom
    obtain ⟨I, μ, hI, hwhole⟩ := hrsa.written hbuf hs
    obtain ⟨this, r, H⟩ := hwhole.exists_via hbuf hI (Nat.le_trans (Nat.le_add_right _ _) hroom) via
    obtain ⟨-, hs₁, hroom₁⟩ := hwhole.post hbuf hI H
    obtain ⟨rs, this', Hs⟩ := ih (fun job hj => hne job (by simp [hj])) hs₁ (hroom₁ _ hroom)
    exact ⟨r :: rs, this', .cons H Hs⟩

/-- Every write is ready with `Ok` and the reads deliver the buffers, however the writes and the
reads are cut, exactly when no buffer is longer than 117 bytes. -/
theorem rsa_transparent_iff (hrsa : rsa.Pkcs1v15 publ priv) (jobs : List (Via × Bytes))
    (hne : ∀ job ∈ jobs, job.2 ≠ []) (rng rng' : G) :
    ((∀ writes rs w, WritesAll (writeEnd (rsaCipher rsa publ priv') writes rng) jobs rs w →
      (∀ r ∈ rs, r = .ok ()) ∧
      ∀ reads, Yields pollInto (readEnd (rsaCipher rsa publ' priv) w.target.sent reads rng')
          (jobs.map Prod.snd).flatten ∧
        (w.target.sent.length ≤ (sizes reads).length →
          Completes pollInto (readEnd (rsaCipher rsa publ' priv) w.target.sent reads rng')
            (jobs.map Prod.snd).flatten)) ∧
    ∃ n, ∀ writes, n ≤ (sizes writes).length →
      ∃ rs w, WritesAll (writeEnd (rsaCipher rsa publ priv') writes rng) jobs rs w) ↔
    ∀ job ∈ jobs, job.2.length ≤ 117 := by
  have hstart : ∀ writes, Encryptor.Sent (rsaCipher rsa publ' priv) []
      (writeEnd (rsaCipher rsa publ priv') writes rng) := fun writes => ⟨rfl, [], .nil, rfl⟩
  constructor
  · rintro ⟨hall, n, hex⟩ job hjob
    obtain ⟨rs, w, H⟩ := hex (.replicate n (.upTo 0))
      (Nat.le_of_eq (length_sizes_replicate _ _).symm)
    have hok := (hall _ rs w H).1
    obtain ⟨rfl, -⟩ := hrsa.writesAll hne (hstart _) H
    by_contra hlen
    have := hok (rsaResult job.2) (List.mem_map_of_mem hjob)
    rw [rsaResult, if_neg hlen] at this
    cases this
  · intro hshort
    refine ⟨fun writes rs w H => ?_, 132 * jobs.length, fun writes hle =>
      hrsa.exists_writesAll hne (hstart writes) hle⟩
    obtain ⟨rfl, hsent⟩ := hrsa.writesAll hne (hstart writes) H
    have hfilter : (jobs.map Prod.snd).filter (·.length ≤ 117) = jobs.map Prod.snd := by
      refine List.filter_eq_self.2 fun buf hbuf => ?_
      obtain ⟨job, hjob, rfl⟩ := List.mem_map.1 hbuf
      exact decide_eq_true (hshort job hjob)
    rw [hfilter, List.nil_append] at hsent
    refine ⟨fun r hr => ?_, fun reads => hsent.yields reads rng'⟩
    obtain ⟨job, hjob, rfl⟩ := List.mem_map.1 hr
    rw [rsaResult, if_pos (hshort job hjob)]

end

/-- A key of 128 bytes with the exponent 1. -/
def paddingRsa1024 : RsaCrate Unit Unit Unit where
  encrypt _ rng m :=
    (if m.length ≤ 117 then some ([0, 2] ++ .replicate (125 - m.length) 1 ++ 0 :: m) else none, rng)
  decrypt _ c := some (((c.drop 2).dropWhile (· ≠ 0)).drop 1)

theorem pkcs1v15_paddingRsa1024 : paddingRsa1024.Pkcs1v15 () () where
  short rng m h := by
    refine ⟨_, rng, congrArg (·, rng) (if_pos h), ?_⟩
    simp
    omega
  long rng m h := ⟨rng, congrArg (·, rng) (if_neg (Nat.not_le.2 h))⟩
  decrypt rng m c rng' h := by
    simp only [paddingRsa1024, Prod.mk.injEq, and_true] at h
    split at h
    · cases h
      simp [paddingRsa1024]
    · cases h

/-- A packet and a buffer. -/
theorem rsa_transparent_iff_two : ∃ writes rs w,
    WritesAll (writeEnd (rsaCipher paddingRsa1024 () ()) writes ())
      [(.sendPacket, pingPacket.encode), (.writeAll, [1])] rs w ∧ (∀ r ∈ rs, r = .ok ()) ∧
      Yields pollInto (readEnd (rsaCipher paddingRsa1024 () ()) w.target.sent [.upTo 6] ())
        (pingPacket.encode ++ [1]) := by
  obtain ⟨hall, n, hex⟩ := (@rsa_transparent_iff _ _ _ _ () () () ()
    pkcs1v15_paddingRsa1024 [(.sendPacket, pingPacket.encode), (.writeAll, [1])] (by decide)
    () ()).2 (by decide)
  obtain ⟨rs, w, H⟩ := hex (.replicate n (.upTo 0)) (Nat.le_of_eq (length_sizes_replicate _ _).symm)
  obtain ⟨hok, hyields⟩ := hall _ rs w H
  exact ⟨_, rs, w, H, hok, by simpa using (hyields _).1⟩

/-- A buffer of 118 bytes is refused. -/
theorem not_rsa_transparent :
    ¬ ∀ (jobs : List (Via × Bytes)) (writes : List Answer) (rs : List (Result Unit)) w,
      (∀ job ∈ jobs, job.2 ≠ []) →
      WritesAll (writeEnd (rsaCipher paddingRsa1024 () ()) writes ()) jobs rs w →
      ∀ r ∈ rs, r = .ok () := by
  intro h
  let jobs : List (Via × Bytes) := [(.writeAll, .replicate 118 0)]
  have hne : ∀ job ∈ jobs, job.2 ≠ [] := by decide
  have hstart : Encryptor.Sent (rsaCipher paddingRsa1024 () ()) []
      (writeEnd (rsaCipher paddingRsa1024 () ()) (.replicate 132 (.upTo 0)) ()) :=
    ⟨rfl, [], .nil, rfl⟩
  obtain ⟨rs, w, H⟩ := pkcs1v15_paddingRsa1024.exists_writesAll hne hstart
    (Nat.le_of_eq (length_sizes_replicate _ _).symm)
  obtain ⟨rfl, -⟩ := pkcs1v15_paddingRsa1024.writesAll hne hstart H
  have hmem : Except.error Error.rsa ∈ jobs.map fun job => rsaResult job.2 := by
    simp [jobs, rsaResult]
  cases h jobs _ _ w hne H _ hmem

end Fuso

import Fuso.Penetrate.Secret

/-!
# A handshake comes to its end

Each end of a handshake returns when the other one has done its part and all that it has said
arrives, with answers enough (`returned`): the client when the server has exchanged the keys, the
server when the client has returned.
-/

namespace Fuso
open Turn Lz4

namespace PenetrateRsaAndAesHandshake
variable {Publ Priv G : Type} {keys : RsaKeys Publ Priv} {draws : Draws Priv G}
  {rsa : RsaCrate Publ Priv G} {E D : Type} {lib : Lz4 E D} {e₀ : E} {d₀ : D}

/-! ## The keys -/

/-- What an own key costs. -/
def keyRoom (hlib : Coder lib e₀ d₀) (pem : Bytes) : Nat :=
  (Lz4Stream.outlet hlib).cost 4 + (Lz4Stream.outlet hlib).cost pem.length

/-- To the key of its peer, and whatever is behind it, a dialog says `pem`. -/
def Answers (keys : RsaKeys Publ Priv) (d : Dialog (Publ × Priv)) (pem : Bytes) (privKey : Priv) :
    Prop :=
  ∀ b publ left, Holds keys b publ left →
    d.feed b = (keyMessage pem, some (.ok (publ, privKey), left)) ∧
    ∀ cost, d.costs cost b = cost 4 + cost pem.length

theorem length_putU32 (n : Nat) : (putU32 n).length = 4 := rfl

theorem holds_said (hkeys : keys.Spki) (hpem : keys.toPublicKeyDer (keys.publKey privKey) = .ok pem)
    (left : Bytes) : Holds keys ((keyMessage pem).flatten ++ left) (keys.publKey privKey) left := by
  obtain ⟨hder, -, hle⟩ := hkeys.der hpem
  rw [flatten_keyMessage hle]
  refine ⟨_, pem, List.append_assoc .., length_putU32 _, ?_, hder⟩
  rw [u32FromBe_putU32 (by omega)]

/-- A dialog that reads a length and a key goes on with the key that is there. -/
theorem Holds.read {b left : Bytes} (h : Holds keys b publ left) :
    ∃ der, keys.fromPublicKeyDer der = .ok publ ∧ ∀ k : Bytes → Dialog (Publ × Priv),
      (Dialog.read 4 fun len => .read (u32FromBe len) k).feed b = (k der).feed left ∧
      ∀ cost, (Dialog.read 4 fun len => .read (u32FromBe len) k).costs cost b =
        (k der).costs cost left := by
  obtain ⟨len, der, rfl, h4, hlen, hder⟩ := h
  have hle : 4 ≤ (len ++ (der ++ left)).length := by rw [List.length_append]; omega
  have hle' : u32FromBe len ≤ (der ++ left).length := by rw [List.length_append]; omega
  refine ⟨der, hder, fun k => ⟨?_, fun cost => ?_⟩⟩
  · rw [Dialog.feed, if_pos hle, List.take_left' h4, List.drop_left' h4, Dialog.feed, if_pos hle',
      List.take_left' hlen, List.drop_left' hlen]
  · rw [Dialog.costs, if_pos hle, List.take_left' h4, List.drop_left' h4, Dialog.costs, if_pos hle',
      List.take_left' hlen, List.drop_left' hlen]

theorem answers_serverKeys (hpriv : draws.privKey = .ok privKey)
    (hpem : keys.toPublicKeyDer (keys.publKey privKey) = .ok pem) :
    Answers keys (serverKeys keys draws) pem privKey := by
  intro b publ left h
  obtain ⟨der, hder, hread⟩ := h.read
  simp only [serverKeys, Dialog.readExact_bind]
  refine ⟨(hread _).1.trans ?_, fun cost => ((hread _).2 cost).trans ?_⟩
  · simp only [hpriv, hder, hpem, Dialog.ok_bind, Dialog.writeAll_bind, Dialog.pure_eq, Dialog.feed,
      keyMessage]
  · simp only [hpriv, hder, hpem, Dialog.ok_bind, Dialog.writeAll_bind, Dialog.pure_eq,
      Dialog.costs, length_putU32, Nat.add_zero]

theorem answers_clientKeys (hpriv : draws.privKey = .ok privKey)
    (hpem : keys.toPublicKeyDer (keys.publKey privKey) = .ok pem) :
    Answers keys (clientKeys keys draws) pem privKey := by
  intro b publ left h
  obtain ⟨der, hder, hread⟩ := h.read
  have hfeed : (clientReads keys privKey).feed b = ([], some (.ok (publ, privKey), left)) := by
    simp only [clientReads, Dialog.readExact_bind]
    refine (hread _).1.trans ?_
    simp only [hder, Dialog.ok_bind, Dialog.pure_eq, Dialog.feed]
  have hcosts : ∀ cost, (clientReads keys privKey).costs cost b = 0 := by
    intro cost
    simp only [clientReads, Dialog.readExact_bind]
    refine ((hread _).2 cost).trans ?_
    simp only [hder, Dialog.ok_bind, Dialog.pure_eq, Dialog.costs]
  rw [clientKeys_eq hpriv hpem]
  refine ⟨?_, fun cost => ?_⟩
  · rw [Dialog.feed, Dialog.feed, hfeed, keyMessage]
  · rw [Dialog.costs, Dialog.costs, hcosts, length_putU32, Nat.add_zero]

section
variable {hlib : Coder lib e₀ d₀} {stream : Duplex} {d : Dialog (Publ × Priv)}

/-- With the key of its peer, answers and room enough an end exchanges the keys. -/
theorem exists_keys (hanswers : Answers keys d pem privKey) (hfits : d.Fits fun _ => True)
    (hs : stream.sent = []) (hleft : (Lz4Stream.source lib).Left (.new lib stream) b)
    (hholds : Holds keys b publ left) (hlive : stream.Live)
    (hroom : stream.Roomy (keyRoom hlib pem + n)) :
    ∃ t, Drives Dialog.step (d.start, .new lib stream) t (.ok (publ, privKey)) ∧
      (Lz4Stream.outlet hlib).Sent (keyMessage pem) t.2 ∧
      (Lz4Stream.source lib).Left t.2 left ∧ (Lz4Stream.source lib).live t.2 ∧
      (Lz4Stream.outlet hlib).Room n t.2 := by
  obtain ⟨hfeed, hcost⟩ := hanswers b publ left hholds
  have hroom' : (Lz4Stream.outlet hlib).Room (d.costs (Lz4Stream.outlet hlib).cost b + n)
      (.new lib stream) := by
    rw [hcost]
    exact hroom
  have hreturns := Dialog.exists_returns Lz4Stream.fresh (Lz4Stream.exchanges hlib) hfits
    (Lz4Stream.sent_new hlib hs) hleft hlive hfeed hroom'
  exact hreturns

end

/-! ## The two parts of a run -/

section
variable {rng : G} {secret : Dialog PenetrateAesAndLz4Decorator}

theorem drives_secret {publ : Publ} {priv : Priv} {u v : Dialog.At PenetrateAesAndLz4Decorator ×
    RSAEncryptor rsa publ priv (Lz4Stream lib Duplex)}
    (H : Drives Dialog.step u v (.ok decorator)) :
    Drives (step rng secret) (.secret publ priv u) (.secret publ priv v) (.ok decorator) := by
  generalize hr : Except.ok decorator = r at H
  induction H with
  | ready h => exact .ready (by rw [step_secret, h, ← hr, andThen])
  | again h _ ih => exact .again (by rw [step_secret, h, andThen]) (ih hr)
  | pending h _ ih => exact .pending (by rw [step_secret, h, andThen]) (ih hr)

theorem drives_parts {s t : Dialog.At (Publ × Priv) × Lz4Stream lib Duplex}
    (H : Drives Dialog.step s t (.ok (publ, priv)))
    {u : Dialog.At PenetrateAesAndLz4Decorator × RSAEncryptor rsa publ priv (Lz4Stream lib Duplex)}
    (Hu : Drives Dialog.step (secret.start, .new t.2 rng) u (.ok decorator)) :
    Drives (step rng secret) (.keys s) (.secret publ priv u) (.ok decorator) :=
  Drives.andThen step_keys H rfl (drives_secret Hu)

end

/-! ## Both ends -/

section
variable {stream : Duplex} {s : At rsa lib Duplex}

/-- What the messages of the iv and the key cost. -/
def secretRoom (hlib : Coder lib e₀ d₀) : Nat :=
  (Lz4Stream.outlet hlib).cost 132 + (Lz4Stream.outlet hlib).cost 132

theorem clientSecret_costs (draws : Draws Priv G) (cost : Nat → Nat) (b : Bytes) :
    (clientSecret draws).costs cost b = cost draws.iv.length + cost draws.key.length := by
  simp only [clientSecret, Dialog.writeAll_bind, Dialog.pure_eq, Dialog.costs, Nat.add_zero]

theorem serverSecret_costs (cost : Nat → Nat) (b : Bytes) : serverSecret.costs cost b = 0 := by
  simp only [serverSecret, Dialog.readExact_bind, Dialog.costs]
  split
  · split <;> rfl
  · rfl

variable (hlib : RowCodec lib e₀ d₀)

/-- A client to which the whole key of the server comes returns. -/
theorem client_completes (hkeys : keys.Spki) (hrsa : ∀ priv, rsa.Pkcs1v15 (keys.publKey priv) priv)
    (hpriv : draws.privKey = .ok privKey)
    (hpem : keys.toPublicKeyDer (keys.publKey privKey) = .ok pem)
    (hiv : draws.iv.length = 16) (hkey : draws.key.length = 16) {peer : Draws Priv G}
    (hpriv' : peer.privKey = .ok peerPriv)
    (hpem' : keys.toPublicKeyDer (keys.publKey peerPriv) = .ok pem') {t : Lz4Stream lib Duplex}
    (hsent : (Lz4Stream.outlet hlib.toCoder).Sent (said keys peer) t) (hs : stream.sent = [])
    (hwire : stream.incoming = t.lz4.lz4Stream.sent) (hlive : stream.Live)
    (hroom : stream.Roomy (keyRoom hlib.toCoder pem + secretRoom hlib.toCoder)) :
    ∃ s, Drives (turn draws .client) (start keys draws rsa lib .client stream) s
      (.ok { iv := draws.iv, key := draws.key }) := by
  have hlen : (said keys peer).flatten.length ≤ 2028 := Nat.le_trans (length_said hkeys) (by decide)
  have hleft := Lz4Stream.left_new hlib hsent hlen hwire
  rw [said_eq hpriv' hpem', ← List.append_nil (keyMessage pem').flatten] at hleft
  obtain ⟨t, Ht, hsent, hleft, hlive, hroom⟩ := exists_keys (answers_clientKeys hpriv hpem)
    (fits_clientKeys hkeys) hs hleft (holds_said hkeys hpem' []) hlive hroom
  have hseals := (hrsa peerPriv).seals (keys.publKey peerPriv) privKey
  have hleft' := Encryptor.left_all
    (.nil : List.Forall₂ (rsaCipher rsa (keys.publKey peerPriv) privKey).Opens [] []) hleft
    draws.rng
  let X := Encryptor.outlet hseals (Lz4Stream.outlet hlib.toCoder) (fun _ => trivial)
    (keyMessage pem)
  have hroom' : X.Room ((clientSecret draws).costs X.cost [] + 0) (.new t.2 draws.rng) := by
    rw [clientSecret_costs]
    exact hroom
  obtain ⟨u, Hu, -⟩ := Dialog.exists_returns Encryptor.fresh
    (Encryptor.exchanges hseals (fun _ => trivial) (keyMessage pem)
      (Lz4Stream.exchanges hlib.toCoder))
    (fits_clientSecret hiv hkey) (Encryptor.idle_new hsent draws.rng) hleft' hlive
    (clientSecret_feed draws _) hroom'
  exact ⟨_, drives_parts Ht Hu⟩

/-- A server to which all comes that such a client has sent returns, too. -/
theorem server_completes (hkeys : keys.Spki) (hpriv : draws.privKey = .ok privKey)
    (hpem : keys.toPublicKeyDer (keys.publKey privKey) = .ok pem) {peer : Draws Priv G}
    (hiv : peer.iv.length = 16) (hkey : peer.key.length = 16) (hpriv' : peer.privKey = .ok peerPriv)
    (hpem' : keys.toPublicKeyDer (keys.publKey peerPriv) = .ok pem') {frames : List Bytes}
    (hsaid : Said keys rsa peer draws frames [peer.iv, peer.key] (said keys peer ++ frames))
    {t : Lz4Stream lib Duplex}
    (hsent : (Lz4Stream.outlet hlib.toCoder).Sent (said keys peer ++ frames) t)
    (hs : stream.sent = []) (hwire : stream.incoming = t.lz4.lz4Stream.sent)
    (hlive : stream.Live) (hroom : stream.Roomy (keyRoom hlib.toCoder pem)) :
    ∃ s, Drives (turn draws .server) (start keys draws rsa lib .server stream) s
      (.ok { iv := peer.iv, key := peer.key }) := by
  have hleft := Lz4Stream.left_new hlib hsent (hsaid.length_le hkeys) hwire
  rw [List.flatten_append, said_eq hpriv' hpem'] at hleft
  obtain ⟨t, Ht, hsent, hleft, hlive, hroom⟩ := exists_keys (n := 0)
    (answers_serverKeys hpriv hpem) (fits_serverKeys hkeys) hs hleft (holds_said hkeys hpem' _)
    hlive hroom
  have hopens : List.Forall₂ (rsaCipher rsa (keys.publKey peerPriv) privKey).Opens frames
    [peer.iv, peer.key] := hsaid.opens hpriv
  have hleft' := Encryptor.left_all hopens hleft draws.rng
  rw [List.flatten_cons, List.flatten_singleton] at hleft'
  let X : Outlet (RSAEncryptor rsa (keys.publKey peerPriv) privKey (Lz4Stream lib Duplex)) :=
    silent hlib.toCoder _ _ (keyMessage pem)
  have hroom' : X.Room (serverSecret.costs X.cost (peer.iv ++ peer.key) + 0)
      (.new t.2 draws.rng) := by
    rw [serverSecret_costs]
    exact hroom
  obtain ⟨u, Hu, -⟩ := Dialog.exists_returns Encryptor.fresh
    (exchanges_silent hlib.toCoder (keyMessage pem)) (fits_serverSecret _)
    (Encryptor.idle_new hsent draws.rng) hleft' hlive (serverSecret_feed hiv hkey) hroom'
  exact ⟨_, drives_parts Ht Hu⟩

/-- When a server has exchanged the keys, a client to which all of that arrives returns the iv and
the key it has drawn, if it has answers and room enough; and when this client has returned, a server
to which all arrives that it has sent returns them, too. -/
theorem returned (hlib : RowCodec lib e₀ d₀) (hkeys : keys.Spki)
    (hrsa : ∀ priv, rsa.Pkcs1v15 (keys.publKey priv) priv) {server client : Draws Priv G}
    {priv priv' : Priv} {pem pem' : Bytes} (hpriv : server.privKey = .ok priv)
    (hpem : keys.toPublicKeyDer (keys.publKey priv) = .ok pem) (hpriv' : client.privKey = .ok priv')
    (hpem' : keys.toPublicKeyDer (keys.publKey priv') = .ok pem')
    (hiv : client.iv.length = 16) (hkey : client.key.length = 16) {d : Duplex} (hd : d.sent = [])
    {publ : Publ} {own : Priv} {u : Dialog.At PenetrateAesAndLz4Decorator ×
      RSAEncryptor rsa publ own (Lz4Stream lib Duplex)}
    (H : Visits (turn server .server) (start keys server rsa lib .server d) (.secret publ own u)) :
    ∃ n n', ∀ d' : Duplex, d'.sent = [] → d'.incoming = (At.secret publ own u).stream.sent →
      (d'.Live → d'.Roomy n' → ∃ s',
        Drives (turn client .client) (start keys client rsa lib .client d') s'
          (.ok { iv := client.iv, key := client.key })) ∧
      ∀ s' decorator,
        Drives (turn client .client) (start keys client rsa lib .client d') s' (.ok decorator) →
        ∀ d₁ : Duplex, d₁.sent = [] → d₁.incoming = s'.stream.sent → d₁.Live → d₁.Roomy n → ∃ s₁,
          Drives (turn server .server) (start keys server rsa lib .server d₁) s₁
            (.ok { iv := client.iv, key := client.key }) := by
  have hsent := sent_server hlib.toCoder hkeys hd H
  refine ⟨keyRoom hlib.toCoder pem, keyRoom hlib.toCoder pem' + secretRoom hlib.toCoder,
    fun d' hd' hwire => ⟨fun hlive hroom => ?_, ?_⟩⟩
  · exact client_completes hlib hkeys hrsa hpriv' hpem' hiv hkey hpriv hpem hsent hd' hwire hlive
      hroom
  intro s' decorator H' d₁ hd₁ wire' hlive hroom
  obtain ⟨-, -, frames, hsaid, hsent'⟩ := client_returns hlib hkeys hrsa hiv hkey hd' H'
    List.prefix_rfl (.inl hsent) (hwire ▸ List.prefix_rfl)
  exact server_completes hlib hkeys hpriv hpem hiv hkey hpriv' hpem' hsaid hsent' hd₁ wire' hlive
    hroom

end

/-- Behind a server that has exchanged the keys: a client that returns, and a server that does. -/
theorem returned_one : ∃ (d d' : Duplex) (s s' : At paddingRsa1024 Lz4Compress.stored Duplex),
    d.incoming = serverWire ∧
    Drives (turn oneDraws .client)
      (start oneKey oneDraws paddingRsa1024 Lz4Compress.stored .client d) s
      (.ok { iv := .replicate 16 1, key := .replicate 16 2 }) ∧
    d'.incoming = s.stream.sent ∧
    Drives (turn oneDraws .server)
      (start oneKey oneDraws paddingRsa1024 Lz4Compress.stored .server d') s'
      (.ok { iv := .replicate 16 1, key := .replicate 16 2 }) := by
  obtain ⟨s, decorator, H, hsent⟩ := exists_of_run .server clientWire serverWire (by decide +kernel)
  obtain ⟨t, publ, own, u, -, rfl, -⟩ := drives_keys H
  have hiv : oneDraws.iv.length = 16 := rfl
  have hd : (oneEnd clientWire).sent = [] := rfl
  have Hs : Visits (turn oneDraws .server) (start oneKey oneDraws paddingRsa1024 Lz4Compress.stored
    .server (oneEnd clientWire)) (.secret publ own u) := .ended H
  obtain ⟨n, n', hall⟩ := returned Lz4Compress.blockCodec_stored.rowCodec spki_oneKey
    (fun _ => pkcs1v15_paddingRsa1024) rfl rfl rfl rfl hiv rfl hd Hs
  let d : Duplex :=
    ⟨serverWire, .replicate serverWire.length (.upTo 0), .replicate n' (.upTo 0), [], []⟩
  have hroom : ∀ n, n ≤ (sizes (.replicate n (.upTo 0))).length := fun n =>
    Nat.le_of_eq (length_sizes_replicate n 0).symm
  obtain ⟨hclient, hserver⟩ := hall d rfl hsent.symm
  obtain ⟨s, Hc⟩ := hclient (hroom _) (hroom n')
  let d' : Duplex := ⟨s.stream.sent, .replicate s.stream.sent.length (.upTo 0),
    .replicate n (.upTo 0), [], []⟩
  obtain ⟨s', Hs'⟩ := hserver s _ Hc d' rfl rfl (hroom _) (hroom n)
  exact ⟨d, d', s, s', rfl, Hc, rfl, Hs'⟩

end PenetrateRsaAndAesHandshake
end Fuso

import Fuso.Penetrate.Handshake

/-!
# The keys and the secret

What the two ends of a handshake have when it is over. Before the stream is encrypted the server
says its key and nothing else, whatever it reads (`took_server`); what a client says behind its own
key is encrypted for that key (`took_client`). So the two ends come to the same decorator, each with
the key of the other (`shared`).
-/

namespace Fuso
open Turn Lz4

/-- With no buffer that fits there is nothing to encrypt. -/
theorem Seals.none (C : Cipher G) (C' : Cipher G') : Seals C C' (fun _ => False) (fun _ => 0) :=
  ⟨False.elim⟩

namespace PenetrateRsaAndAesHandshake
variable {Publ Priv G : Type} {keys : RsaKeys Publ Priv} {draws : Draws Priv G}
  {rsa : RsaCrate Publ Priv G} {E D : Type} {lib : Lz4 E D} {e₀ : E} {d₀ : D}

/-! ## The two parts of a run -/

section
variable {rng : G} {secret : Dialog PenetrateAesAndLz4Decorator} {s' : At rsa lib Duplex}

theorem step_keys (s : Dialog.At (Publ × Priv) × Lz4Stream lib Duplex) :
    step rng secret (.keys s : At rsa lib Duplex) = (Dialog.step s).andThen .keys
      fun t pair => .again (.secret pair.1 pair.2 (secret.start, .new t.2 rng)) := rfl

theorem step_secret (publ : Publ) (priv : Priv) (s : Dialog.At PenetrateAesAndLz4Decorator ×
    RSAEncryptor rsa publ priv (Lz4Stream lib Duplex)) :
    step rng secret (.secret publ priv s) = (Dialog.step s).andThen (.secret publ priv)
      fun u decorator => .ready (.secret publ priv u) (.ok decorator) := rfl

theorem drives_keys {s : Dialog.At (Publ × Priv) × Lz4Stream lib Duplex}
    (H : Drives (step rng secret) (.keys s) s' (.ok decorator)) :
    ∃ t publ priv u, Drives Dialog.step s t (.ok (publ, priv)) ∧ s' = .secret publ priv u ∧
      Drives Dialog.step (secret.start, .new t.2 rng) u (.ok decorator) := by
  rcases H.await step_keys with
    ⟨t, e, -, -, he⟩ | ⟨t, ⟨publ, priv⟩, Ht, Hs⟩
  · cases he
  refine ⟨t, publ, priv, ?_⟩
  rcases Drives.await (step_secret publ priv) Hs with
    ⟨u, e, -, -, he⟩ | ⟨u, decorator', Hu, rfl, hd⟩
  · cases he
  · cases hd
    exact ⟨u, Ht, rfl, Hu⟩

theorem visits_keys {s : Dialog.At (Publ × Priv) × Lz4Stream lib Duplex}
    (H : Visits (step rng secret) (.keys s) s') :
    (∃ t, s' = .keys t ∧ Visits Dialog.step s t) ∨
    ∃ t publ priv u, Drives Dialog.step s t (.ok (publ, priv)) ∧ s' = .secret publ priv u ∧
      Visits Dialog.step (secret.start, .new t.2 rng) u := by
  rcases H.await step_keys with
    h | ⟨t, ⟨publ, priv⟩, Ht, Hs⟩
  · exact .inl h
  refine .inr ⟨t, publ, priv, ?_⟩
  rcases Visits.await (step_secret publ priv) Hs with
    ⟨u, rfl, Hu⟩ | ⟨u, decorator, Hu, rfl⟩
  · exact ⟨u, Ht, rfl, Hu⟩
  · exact ⟨u, Ht, rfl, .ended Hu⟩

end

/-! ## The keys -/

section
variable (hlib : Coder lib e₀ d₀) {d : Dialog (Publ × Priv)} {stream : Duplex}

/-- The keys are exchanged: the end has said its own one, and it has taken `publ` from the front of
what was left to be read. -/
structure Swapped (keys : RsaKeys Publ Priv) (draws : Draws Priv G) (stream : Duplex) (publ : Publ)
    (priv : Priv) (t : Lz4Stream lib Duplex) : Prop where
  privKey : draws.privKey = .ok priv
  ne_nil : said keys draws ≠ []
  sent : (Lz4Stream.outlet hlib).Sent (said keys draws) t
  left : (Lz4Stream.source lib).Left (.new lib stream) b →
    ∃ left, Holds keys b publ left ∧ (Lz4Stream.source lib).Left t left

theorem Holds.append {b left : Bytes} (h : Holds keys b publ left) (more : Bytes) :
    Holds keys (b ++ more) publ (left ++ more) := by
  obtain ⟨len, der, rfl, h⟩ := h
  exact ⟨len, der, by simp only [List.append_assoc], h⟩

variable {hlib}

theorem swapped (hd : Swaps keys draws d) (hfits : d.Fits fun _ => True) (hs : stream.sent = [])
    {t : Dialog.At (Publ × Priv) × Lz4Stream lib Duplex}
    (H : Drives Dialog.step (d.start, .new lib stream) t (.ok (publ, priv))) :
    Swapped hlib keys draws stream publ priv t.2 := by
  have hreturns := Dialog.returns Lz4Stream.fresh (Lz4Stream.exchanges hlib) hfits
    (Lz4Stream.sent_new hlib hs) H
  obtain ⟨done, out, hfeed, hsent, -⟩ := hreturns []
  obtain ⟨rfl, hne, hpriv, -⟩ := hd.ok hfeed
  refine ⟨hpriv, hne, hsent, fun {b} hb => ?_⟩
  obtain ⟨done, out, hfeed, -, hleft⟩ := hreturns b
  obtain ⟨-, -, -, hholds⟩ := hd.ok hfeed
  obtain ⟨left, rfl, hl⟩ := hleft hb
  exact ⟨left, hholds.append left, hl⟩

/-- Until then it has said nothing else. -/
theorem took_keys (hd : Swaps keys draws d) (hfits : d.Fits fun _ => True) (hs : stream.sent = [])
    {t : Dialog.At (Publ × Priv) × Lz4Stream lib Duplex}
    (H : Visits Dialog.step (d.start, .new lib stream) t) :
    ∃ b, b <+: said keys draws ∧ (Lz4Stream.outlet hlib).Took b t.2 := by
  obtain ⟨done, out, hout, htook, -⟩ := Dialog.tells Lz4Stream.fresh (Lz4Stream.exchanges hlib)
    hfits (Lz4Stream.sent_new hlib hs) H []
  exact ⟨out, hout.trans (hd.tells done), htook⟩

end
/-! ## The secret -/

section
variable (hlib : Coder lib e₀ d₀) {publ : Publ} {priv : Priv} {stream : Duplex}

/-- What the server writes behind its key: nothing. -/
def silent (publ : Publ) (priv : Priv) (pre : List Bytes) :
    Outlet (RSAEncryptor rsa publ priv (Lz4Stream lib Duplex)) :=
  Encryptor.outlet (.none _ (rsaCipher rsa publ priv)) (Lz4Stream.outlet hlib) (fun _ => trivial)
    pre

theorem exchanges_silent (pre : List Bytes) :
    Exchanges (Encryptor.source (rsaCipher rsa publ priv) (Lz4Stream.source lib))
      (silent hlib publ priv pre) :=
  Encryptor.exchanges (.none _ _) _ pre (Lz4Stream.exchanges hlib)

end

theorem serverSecret_tells (b : Bytes) : (serverSecret.feed b).1 = [] := by
  simp only [serverSecret, Dialog.readExact_bind, Dialog.feed]
  split
  · split <;> rfl
  · rfl

theorem serverSecret_ok {b : Bytes} (h : (serverSecret.feed b).2 = some (.ok decorator, left))
    (hiv : iv.length = 16) (hkey : key.length = 16) (hb : b <+: iv ++ key) :
    decorator = { iv, key } := by
  simp only [serverSecret, Dialog.readExact_bind, Dialog.feed] at h
  split at h
  · next h16 =>
    split at h
    · next h32 =>
      rw [List.length_drop] at h32
      obtain rfl := hb.eq_of_length_le (by rw [List.length_append]; omega)
      cases h
      rw [List.take_left' hiv, List.drop_left' hiv, List.take_of_length_le (Nat.le_of_eq hkey)]
    · cases h
  · cases h

theorem serverSecret_feed (hiv : iv.length = 16) (hkey : key.length = 16) :
    serverSecret.feed (iv ++ key) = ([], some (.ok { iv, key }, [])) := by
  have h16 : 16 ≤ (iv ++ key).length := by rw [List.length_append]; omega
  simp only [serverSecret, Dialog.readExact_bind, Dialog.feed, if_pos h16, List.take_left' hiv,
    List.drop_left' hiv, if_pos (Nat.le_of_eq hkey.symm), Dialog.pure_eq,
    List.take_of_length_le (Nat.le_of_eq hkey), List.drop_of_length_le (Nat.le_of_eq hkey)]

theorem fits_serverSecret (fits : Bytes → Prop) : serverSecret.Fits fits := by
  simp only [serverSecret, Dialog.readExact_bind, Dialog.Fits]
  exact fun _ _ => trivial

theorem clientSecret_feed (draws : Draws Priv G) (b : Bytes) : (clientSecret draws).feed b =
    ([draws.iv, draws.key], some (.ok { iv := draws.iv, key := draws.key }, b)) := by
  simp only [clientSecret, Dialog.writeAll_bind, Dialog.pure_eq, Dialog.feed]

theorem fits_clientSecret (hiv : draws.iv.length = 16) (hkey : draws.key.length = 16) :
    (clientSecret draws).Fits (·.length ≤ 117) := by
  have hbuf : ∀ buf : Bytes, buf.length = 16 → buf ≠ [] ∧ buf.length ≤ 117 := by
    intro buf h
    refine ⟨?_, by omega⟩
    rintro rfl
    cases h
  simp only [clientSecret, Dialog.writeAll_bind, Dialog.pure_eq, Dialog.Fits, and_true]
  exact ⟨hbuf _ hiv, hbuf _ hkey⟩

/-! ## Both ends -/

section
variable {stream : Duplex} {s : At rsa lib Duplex}

section
variable {hlib : Coder lib e₀ d₀}

theorem sent_server (hlib : Coder lib e₀ d₀) (hkeys : keys.Spki) (hs : stream.sent = [])
    {u : Dialog.At PenetrateAesAndLz4Decorator × RSAEncryptor rsa publ priv (Lz4Stream lib Duplex)}
    (H : Visits (turn draws .server) (start keys draws rsa lib .server stream)
      (.secret publ priv u)) : (Lz4Stream.outlet hlib).Sent (said keys draws) u.2.target := by
  rcases visits_keys H with ⟨t, ht, -⟩ | ⟨t, publ, priv, u, Ht, heq, Hu⟩
  · cases ht
  cases heq
  have hswapped : Swapped hlib keys draws stream publ priv t.2 :=
    swapped swaps_serverKeys (fits_serverKeys hkeys) hs Ht
  obtain ⟨done, out, hout, htook, -⟩ := Dialog.tells Encryptor.fresh
    (exchanges_silent hlib (said keys draws)) (fits_serverSecret _)
    (Encryptor.idle_new hswapped.sent draws.rng) Hu []
  rw [serverSecret_tells, List.prefix_nil] at hout
  rw [hout, List.append_nil] at htook
  exact Encryptor.sent_of_took_nil htook

/-- The server says its key and nothing else. -/
theorem took_server (hlib : Coder lib e₀ d₀) (hkeys : keys.Spki) (hs : stream.sent = [])
    (H : Visits (turn draws .server) (start keys draws rsa lib .server stream) s) :
    ∃ bs, bs <+: said keys draws ∧ (Lz4Stream.outlet hlib).Took bs s.lz4 := by
  rcases visits_keys H with ⟨t, rfl, Ht⟩ | ⟨t, publ, priv, u, -, rfl, -⟩
  · exact took_keys swaps_serverKeys (fits_serverKeys hkeys) hs Ht
  · exact ⟨_, List.prefix_rfl, .inl (sent_server hlib hkeys hs H)⟩

/-- An end whose peer has said its key, or is about to say it, has that key. -/
theorem Swapped.peer {t : Lz4Stream lib Duplex} (h : Swapped hlib keys draws stream publ priv t)
    (hkeys : keys.Spki) {peer : Draws Priv G} {b more : Bytes}
    (hleft : (Lz4Stream.source lib).Left (.new lib stream) b)
    (hb : b <+: (said keys peer).flatten ++ more) (hmore : said keys peer = [] → more = []) :
    ∃ peerPriv left, peer.privKey = .ok peerPriv ∧ publ = keys.publKey peerPriv ∧
      b = (said keys peer).flatten ++ left ∧ (Lz4Stream.source lib).Left t left := by
  obtain ⟨left, hholds, hl⟩ := h.left hleft
  obtain ⟨peerPriv, hpriv, hpubl, hb⟩ := hholds.of_prefix hkeys hb hmore
  exact ⟨peerPriv, left, hpriv, hpubl, hb, hl⟩

end

variable (hlib : RowCodec lib e₀ d₀)

theorem Swapped.peer_of_took {t u : Lz4Stream lib Duplex}
    (h : Swapped hlib.toCoder keys draws stream publ priv t) (hkeys : keys.Spki)
    {peer : Draws Priv G} {bs : List Bytes} (hbs : bs <+: said keys peer)
    (htook : (Lz4Stream.outlet hlib.toCoder).Took bs u)
    (hwire : stream.incoming <+: u.lz4.lz4Stream.sent) :
    ∃ peerPriv, peer.privKey = .ok peerPriv ∧ publ = keys.publKey peerPriv := by
  have hlen : bs.flatten.length ≤ 2028 := by
    have := hbs.flatten.length_le
    have : (said keys peer).flatten.length ≤ 1028 := length_said hkeys
    omega
  obtain ⟨b, hb, hleft⟩ := Lz4Stream.left_prefix hlib htook hlen hwire
  have hprefix : b <+: (said keys peer).flatten ++ [] := by
    rw [List.append_nil]
    exact hb.trans hbs.flatten
  obtain ⟨peerPriv, left, hpriv, hpubl, -⟩ := h.peer hkeys hleft hprefix fun _ => rfl
  exact ⟨peerPriv, hpriv, hpubl⟩

/-- What a client has said: its key, and behind it messages for the server of the beginning of the
iv and the key. -/
structure Said (keys : RsaKeys Publ Priv) (rsa : RsaCrate Publ Priv G) (draws peer : Draws Priv G)
    (frames ms bs : List Bytes) : Prop where
  isPrefix : bs <+: said keys draws ++ frames
  keyFirst : said keys draws = [] → frames = []
  opens : peer.privKey = .ok priv → List.Forall₂ (rsaCipher rsa publ priv).Opens frames ms
  secret : ms <+: [draws.iv, draws.key]
  length : frames.flatten.length ≤ 264

/-- The iv and the key are two messages. -/
theorem length_secret {C : Cipher G} {frames ms : List Bytes}
    (hsealed : List.Forall₂ (Sealed C fun _ => 132) frames ms) (hms : ms <+: [iv, key]) :
    frames.flatten.length ≤ 264 := by
  have hlen := hms.length_le
  rw [length_sealed hsealed, List.map_const', List.sum_replicate_nat]
  simp only [List.length_cons, List.length_nil] at hlen
  omega

theorem Said.length_le {frames ms bs : List Bytes} {peer : Draws Priv G}
    (h : Said keys rsa draws peer frames ms bs) (hkeys : keys.Spki) :
    bs.flatten.length ≤ 2028 := by
  have hle := h.isPrefix.flatten.length_le
  have hframes := h.length
  have hsaid : (said keys draws).flatten.length ≤ 1028 := length_said hkeys
  rw [List.flatten_append, List.length_append] at hle
  omega

theorem took_client (hkeys : keys.Spki) (hrsa : ∀ priv, rsa.Pkcs1v15 (keys.publKey priv) priv)
    (hiv : draws.iv.length = 16) (hkey : draws.key.length = 16) (hs : stream.sent = [])
    (H : Visits (turn draws .client) (start keys draws rsa lib .client stream) s)
    {peer : Draws Priv G} {t : Lz4Stream lib Duplex} {bs : List Bytes} (hbs : bs <+: said keys peer)
    (htook : (Lz4Stream.outlet hlib.toCoder).Took bs t)
    (hwire : stream.incoming <+: t.lz4.lz4Stream.sent) :
    ∃ frames ms bs, Said keys rsa draws peer frames ms bs ∧
      (Lz4Stream.outlet hlib.toCoder).Took bs s.lz4 := by
  rcases visits_keys H with ⟨t, rfl, Ht⟩ | ⟨t, publ, priv, u, Ht, rfl, Hu⟩
  · obtain ⟨bs, hbs, htook⟩ := took_keys swaps_clientKeys (fits_clientKeys hkeys) hs Ht
    refine ⟨[], [], bs, ⟨?_, fun _ => rfl, fun _ => .nil, List.nil_prefix, Nat.zero_le _⟩, htook⟩
    rwa [List.append_nil]
  have hswapped : Swapped hlib.toCoder keys draws stream publ priv t.2 :=
    swapped swaps_clientKeys (fits_clientKeys hkeys) hs Ht
  obtain ⟨peerPriv, hpriv, rfl⟩ := hswapped.peer_of_took hlib hkeys hbs htook hwire
  have hseals := (hrsa peerPriv).seals (keys.publKey peerPriv) priv
  obtain ⟨done, out, hout, htook, -⟩ := Dialog.tells Encryptor.fresh
    (Encryptor.exchanges hseals (fun _ => trivial) (said keys draws)
      (Lz4Stream.exchanges hlib.toCoder))
    (fits_clientSecret hiv hkey) (Encryptor.idle_new hswapped.sent draws.rng) Hu []
  obtain ⟨frames, ms, hsealed, hms, htook⟩ := Encryptor.took_target htook
  rw [clientSecret_feed] at hout
  have hms' := hms.trans hout
  refine ⟨frames, ms, _, ⟨List.prefix_rfl, fun hnil => absurd hnil hswapped.ne_nil, fun h => ?_,
    hms', length_secret hsealed hms'⟩, htook⟩
  cases hpriv.symm.trans h
  have hopens := opens_of_sealed hsealed
  exact hopens

/-- The end holds the key of its peer beside its own one. -/
def Keyed (keys : RsaKeys Publ Priv) (own peer : Draws Priv G) (s : At rsa lib Duplex) : Prop :=
  ∃ priv peerPriv u, s = .secret (keys.publKey peerPriv) priv u ∧ own.privKey = .ok priv ∧
    peer.privKey = .ok peerPriv

theorem server_returns (hkeys : keys.Spki) (hs : stream.sent = [])
    (H : Drives (turn draws .server) (start keys draws rsa lib .server stream) s (.ok decorator))
    {peer : Draws Priv G} (hiv : peer.iv.length = 16) (hkey : peer.key.length = 16)
    {frames ms bs : List Bytes} (hsaid : Said keys rsa peer draws frames ms bs)
    {t : Lz4Stream lib Duplex} (htook : (Lz4Stream.outlet hlib.toCoder).Took bs t)
    (hwire : stream.incoming <+: t.lz4.lz4Stream.sent) :
    decorator = { iv := peer.iv, key := peer.key } ∧ Keyed keys draws peer s := by
  obtain ⟨t, publ, priv, u, Ht, rfl, Hu⟩ := drives_keys H
  have hswapped : Swapped hlib.toCoder keys draws stream publ priv t.2 :=
    swapped swaps_serverKeys (fits_serverKeys hkeys) hs Ht
  obtain ⟨b, hb, hleft⟩ := Lz4Stream.left_prefix hlib htook (hsaid.length_le hkeys) hwire
  have hprefix : b <+: (said keys peer).flatten ++ frames.flatten := by
    rw [← List.flatten_append]
    exact hb.trans hsaid.isPrefix.flatten
  have hfirst : said keys peer = [] → frames.flatten = [] := fun h => by
    rw [hsaid.keyFirst h, List.flatten_nil]
  obtain ⟨peerPriv, wire, hpriv, rfl, rfl, hl⟩ := hswapped.peer hkeys hleft hprefix hfirst
  -- behind the key of the client its messages have arrived, a part of them
  obtain ⟨b, hb, hleft⟩ := Encryptor.left_prefix (hsaid.opens hswapped.privKey) hl
    ((List.prefix_append_right_inj _).1 hprefix) draws.rng
  obtain ⟨done, out, hfeed, -, hdone⟩ := Dialog.returns Encryptor.fresh
    (exchanges_silent hlib.toCoder (said keys draws)) (fits_serverSecret _)
    (Encryptor.idle_new hswapped.sent draws.rng) Hu b
  obtain ⟨left, rfl, -⟩ := hdone hleft
  have hsecret : ms.flatten <+: peer.iv ++ peer.key := by
    have := hsaid.secret.flatten
    rwa [List.flatten_cons, List.flatten_singleton] at this
  have hdecorator : decorator = { iv := peer.iv, key := peer.key } :=
    serverSecret_ok (congrArg Prod.snd hfeed) hiv hkey
      (((List.prefix_append ..).trans hb).trans hsecret)
  exact ⟨hdecorator, priv, peerPriv, u, rfl, hswapped.privKey, hpriv⟩

/-- A client that returns has sent its key, and for the server the iv and the key that it returns.
-/
theorem client_returns (hkeys : keys.Spki) (hrsa : ∀ priv, rsa.Pkcs1v15 (keys.publKey priv) priv)
    (hiv : draws.iv.length = 16) (hkey : draws.key.length = 16) (hs : stream.sent = [])
    (H : Drives (turn draws .client) (start keys draws rsa lib .client stream) s (.ok decorator))
    {peer : Draws Priv G} {t : Lz4Stream lib Duplex} {bs : List Bytes} (hbs : bs <+: said keys peer)
    (htook : (Lz4Stream.outlet hlib.toCoder).Took bs t)
    (hwire : stream.incoming <+: t.lz4.lz4Stream.sent) :
    decorator = { iv := draws.iv, key := draws.key } ∧ Keyed keys draws peer s ∧
      ∃ frames, Said keys rsa draws peer frames [draws.iv, draws.key] (said keys draws ++ frames) ∧
        (Lz4Stream.outlet hlib.toCoder).Sent (said keys draws ++ frames) s.lz4 := by
  obtain ⟨t, publ, priv, u, Ht, rfl, Hu⟩ := drives_keys H
  have hswapped : Swapped hlib.toCoder keys draws stream publ priv t.2 :=
    swapped swaps_clientKeys (fits_clientKeys hkeys) hs Ht
  obtain ⟨peerPriv, hpriv, rfl⟩ := hswapped.peer_of_took hlib hkeys hbs htook hwire
  have hseals := (hrsa peerPriv).seals (keys.publKey peerPriv) priv
  obtain ⟨done, out, hfeed, ⟨-, frames, hsealed, hsent⟩, -⟩ := Dialog.returns Encryptor.fresh
    (Encryptor.exchanges hseals (fun _ => trivial) (said keys draws)
      (Lz4Stream.exchanges hlib.toCoder))
    (fits_clientSecret hiv hkey) (Encryptor.idle_new hswapped.sent draws.rng) Hu []
  rw [clientSecret_feed] at hfeed
  cases hfeed
  refine ⟨rfl, ⟨priv, peerPriv, u, rfl, hswapped.privKey, hpriv⟩, frames, ⟨List.prefix_rfl,
    fun hnil => absurd hnil hswapped.ne_nil, fun h => ?_, List.prefix_rfl,
    length_secret hsealed List.prefix_rfl⟩, hsent⟩
  cases hpriv.symm.trans h
  have hopens := opens_of_sealed hsealed
  exact hopens

/-- A server and a client shake hands over a network that delivers a part of what each of them has
sent, in any pieces and under any interleaving. When one of them returns, what it returns are the
iv and the key that the client has drawn, and it holds the key of the other one. -/
theorem shared (hlib : RowCodec lib e₀ d₀) (hkeys : keys.Spki)
    (hrsa : ∀ priv, rsa.Pkcs1v15 (keys.publKey priv) priv) {server client : Draws Priv G}
    (hiv : client.iv.length = 16) (hkey : client.key.length = 16) {d d' : Duplex}
    (hd : d.sent = []) (hd' : d'.sent = []) {s s' : At rsa lib Duplex}
    (Hs : Visits (turn server .server) (start keys server rsa lib .server d) s)
    (Hs' : Visits (turn client .client) (start keys client rsa lib .client d') s')
    (hwire : d.incoming <+: s'.stream.sent) (hwire' : d'.incoming <+: s.stream.sent) :
    (∀ decorator,
      Drives (turn server .server) (start keys server rsa lib .server d) s (.ok decorator) →
      decorator = { iv := client.iv, key := client.key } ∧ Keyed keys server client s) ∧
    (∀ decorator,
      Drives (turn client .client) (start keys client rsa lib .client d') s' (.ok decorator) →
      decorator = { iv := client.iv, key := client.key } ∧ Keyed keys client server s') := by
  obtain ⟨bs, hbs, htook⟩ := took_server hlib.toCoder hkeys hd Hs
  obtain ⟨frames, ms, bs', hsaid, htook'⟩ :=
    took_client hlib hkeys hrsa hiv hkey hd' Hs' hbs htook hwire'
  refine ⟨fun decorator H => ?_, fun decorator H => ?_⟩
  · exact server_returns hlib hkeys hd H hiv hkey hsaid htook' hwire
  · obtain ⟨hdecorator, hkeyed, -⟩ := client_returns hlib hkeys hrsa hiv hkey hd' H hbs htook hwire'
    exact ⟨hdecorator, hkeyed⟩

end

/-! ## A run -/

/-- One pair of keys, with a DER of one byte. -/
def oneKey : RsaKeys Unit Unit where
  publKey _ := ()
  toPublicKeyDer _ := .ok [7]
  fromPublicKeyDer der := if der = [7] then .ok () else .error .rsa

theorem spki_oneKey : oneKey.Spki where
  der {priv pem} h := by
    cases h
    exact ⟨rfl, by decide, by decide⟩

def oneDraws : Draws Unit Unit := ⟨.ok (), (), .replicate 16 1, .replicate 16 2⟩

def oneEnd (incoming : Bytes) : Duplex :=
  ⟨incoming, .replicate 20 (.upTo 300), .replicate 10 (.upTo 300), [], []⟩

def oneStart (this : PenetrateRsaAndAesHandshake) (incoming : Bytes) :
    At paddingRsa1024 Lz4Compress.stored Duplex :=
  start oneKey oneDraws paddingRsa1024 Lz4Compress.stored this (oneEnd incoming)

/-- The key of the server, which is that of the client, too. -/
def serverWire : Bytes := [4, 0, 0, 0, 0, 0, 0, 1, 1, 0, 0, 0, 7]

def clientWire : Bytes :=
  let message b := [132, 0, 0, 0, 128, 0, 0, 0, 0, 2] ++ .replicate 109 1 ++ 0 :: .replicate 16 b
  serverWire ++ message 1 ++ message 2

theorem exists_of_run (this : PenetrateRsaAndAesHandshake) (incoming wire : Bytes)
    (h : (run (turn oneDraws this) 200 (oneStart this incoming)).map
      (fun p => (p.2.toBool, p.1.stream.sent)) = some (true, wire)) :
    ∃ s decorator, Drives (turn oneDraws this) (oneStart this incoming) s (.ok decorator) ∧
      s.stream.sent = wire := by
  obtain ⟨⟨s, r⟩, hrun, heq⟩ := Option.map_eq_some_iff.1 h
  cases r with
  | error e => cases heq
  | ok decorator => exact ⟨s, decorator, drives_of_run hrun, congrArg Prod.snd heq⟩

/-- Two ends that both come to the end of the handshake. -/
theorem shared_one : ∃ s s' decorator,
    Drives (turn oneDraws .server) (oneStart .server clientWire) s (.ok decorator) ∧
    Drives (turn oneDraws .client) (oneStart .client serverWire) s' (.ok decorator) ∧
    decorator = { iv := .replicate 16 1, key := .replicate 16 2 } ∧
    Keyed oneKey oneDraws oneDraws s ∧ Keyed oneKey oneDraws oneDraws s' := by
  obtain ⟨s, decorator, H, hsent⟩ := exists_of_run .server clientWire serverWire
    (by decide +kernel)
  obtain ⟨s', decorator', H', hsent'⟩ := exists_of_run .client serverWire clientWire
    (by decide +kernel)
  have Hs : Visits (turn oneDraws .server) (start oneKey oneDraws paddingRsa1024 Lz4Compress.stored
    .server (oneEnd clientWire)) s := .ended H
  have Hs' : Visits (turn oneDraws .client) (start oneKey oneDraws paddingRsa1024 Lz4Compress.stored
    .client (oneEnd serverWire)) s' := .ended H'
  have hiv : oneDraws.iv.length = 16 := rfl
  have hsent₀ : ∀ incoming, (oneEnd incoming).sent = [] := fun _ => rfl
  obtain ⟨hserver, hclient⟩ := shared Lz4Compress.blockCodec_stored.rowCodec spki_oneKey
    (fun _ => pkcs1v15_paddingRsa1024) hiv rfl (hsent₀ _) (hsent₀ _) Hs Hs'
    (hsent' ▸ List.prefix_rfl) (hsent ▸ List.prefix_rfl)
  obtain ⟨rfl, hkeyed⟩ := hserver decorator H
  obtain ⟨rfl, hkeyed'⟩ := hclient decorator' H'
  exact ⟨s, s', _, H, H', rfl, hkeyed, hkeyed'⟩

end PenetrateRsaAndAesHandshake
end Fuso

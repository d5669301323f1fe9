import Fuso.Socks.Consumed

/-!
# The methods that a client offers

`poll_auth` is given the list of methods and does not look at it: whatever the client offers, the
handshake selects the method of its authenticator and goes on (`reaches_selected`). So the offer is
honoured exactly when that method is in it (`honoursOffer_iff`).
-/

namespace Fuso

namespace S5Authenticate

/-- The method that an authenticator selects. -/
def method : S5Authenticate → UInt8
  | skip .. => 0x00
  | standard _ => 0x02

/-- The method is selected, and its negotiation goes on. -/
def selected : S5Authenticate → Bool
  | skip .. => false
  | standard a => a.rbuf.isSome || a.cmpPass.isSome

end S5Authenticate

namespace Socks5
open Turn

/-- The method selection message is behind the handshake. -/
def Proceeds (m : Socks5 S) : Prop :=
  match m.state with
  | .handshake => False
  | .authentication _ => m.auth.selected = true
  | .request .. | .success _ => True

/-- The client offers the methods, and whatever it likes behind them. -/
def Offers (methods : Bytes) (d : Duplex) : Prop :=
  ∃ rest, d.incoming = [0x05, .ofNat methods.length] ++ methods ++ rest

/-- The handshake goes on behind its method selection only with a method of the offer. Without one
it answers with `05 FF` or fails. -/
def HonoursOffer (a : S5Authenticate) (methods : Bytes) : Prop :=
  ∀ (oc : Bool) (d : Duplex), Offers methods d →
    (∀ s, Reaches (step oc) (.select, new a d) s → s.2.Proceeds → a.method ∈ methods) ∧
      (a.method ∉ methods → ∀ t r, Drives (step oc) (.select, new a d) t r →
        (∀ socket, r ≠ .ret (.ok socket)) ∧
          (t.2.stream.sent = d.sent ++ [0x05, 0xFF] ∨ ∃ e, r = .ret (.error e)))

/-! ## The selection -/

/-- A client that sends its offer at once. -/
def offering (methods : Bytes) : Duplex where
  incoming := [0x05, .ofNat methods.length] ++ methods
  reads := [.upTo 1, .upTo 255]
  writes := [.upTo 1]
  closes := []
  sent := []

/-- The offer is read, and the authenticator has yet to select a method. -/
structure Offered (a : S5Authenticate) (m : Socks5 Duplex) : Prop where
  state : m.state = .authentication m.readOffset
  auth : m.auth = a
  writes : m.stream.writes = [.upTo 1]
  sent : m.stream.sent = []

theorem reaches_offered (oc : Bool) (a : S5Authenticate) {methods : Bytes}
    (hlen : methods.length < 256) : ∃ m, Offered a m ∧
      Reaches (step oc) (.select, new a (offering methods)) (.auth .write, m) := by
  let d := offering methods
  have hd : 2 ≤ d.incoming.length := by simp [d, offering]
  obtain ⟨reads, hgreeting, hreads⟩ :=
    reaches_received oc (m := new a d) rfl asks_handshake rfl (Nat.le_refl 2) hd
  obtain rfl : reads = [.upTo 255] := hreads Nat.two_pos
  let m₁ := received ((new a d).expect .handshake 2) [.upTo 255]
  have hnmethod : (UInt8.ofNat methods.length).toNat = methods.length := by
    rw [UInt8.toNat_ofNat', Nat.mod_eq_of_lt hlen]
  have hbuf : m₁.readBuf.take m₁.readOffset = [0x05, .ofNat methods.length] := by
    simp [m₁, received, expect, new, d, offering]
  have hhead : step oc (.select, m₁) =
      .again (.write, m₁.expect (.authentication methods.length) methods.length) := by
    have hstep : step oc (.select, m₁) = m₁.onHead := select_greeting hd
    rw [hstep, onHead, hbuf]
    simp only [Head.tryFrom, ne_eq, not_true_eq_false, if_false, hnmethod]
  have hrest : m₁.stream.incoming = methods := by simp [m₁, received, expect, new, d, offering]
  obtain ⟨reads, hmethods, -⟩ := reaches_received oc (m := m₁) (n := 255) rfl asks_authentication
    rfl (Nat.le_of_lt hlen) (hrest ▸ Nat.le_refl methods.length)
  let m₂ := received (m₁.expect (.authentication methods.length) methods.length) reads
  have hstate : m₂.state = .authentication m₂.readOffset := by simp [m₂, received, expect]
  have hselect : step oc (.select, m₂) = .again (.auth .write, m₂) := by
    simp [step, select, hstate]
  refine ⟨m₂, ⟨hstate, rfl, rfl, rfl⟩, ?_⟩
  exact .head (.inl select_new) <| hgreeting.trans <| .head (.inl hhead) <| hmethods.trans <|
    .head (.inl hselect) .refl

/-- Whatever is offered, the method of the authenticator is selected and the handshake goes on. -/
theorem reaches_selected (oc : Bool) (ha : Fresh a password) {methods : Bytes}
    (hlen : methods.length < 256) : ∃ s : Pc × Socks5 Duplex,
      Reaches (step oc) (.select, new a (offering methods)) s ∧ s.2.Proceeds ∧
        s.2.stream.sent = [0x05, a.method] := by
  obtain ⟨m, hm, hreach⟩ := reaches_offered oc a hlen
  have hsent : ∀ reply : Bytes, reply.length = 2 → pollWrite m.stream reply =
      ({ m.stream with sent := reply, writes := [] }, .ready (.ok 2)) := fun reply hreply => by
    rw [Duplex.pollWrite_upTo hm.writes, hreply, hm.sent]
    simp [hreply]
  cases ha with
  | skip =>
    let m₁ : Socks5 Duplex := { m with
      auth := .skip [0x05, 0x00] 2, stream := { m.stream with sent := [0x05, 0x00], writes := [] } }
    have hstep : step oc (.auth .write, m) =
        .again (.write, m₁.expect (.request 0x05 0 0 0 4) 4) := by
      simp only [step, authTurn, hm.auth, S5Authenticate.newSkip, S5Authenticate.pollAuth, skipTurn,
        List.drop_zero, hsent [0x05, 0x00] rfl, Turn.map]
      rfl
    exact ⟨_, hreach.tail (.inl hstep), trivial, rfl⟩
  | standard username password =>
    let a : Standard := { Standard.fresh username password 2 with
      rbuf := some (.replicate 2 0), wbuf := none }
    let m₁ : Socks5 Duplex := { m with
      auth := .standard a, stream := { m.stream with sent := [0x05, 0x02], writes := [] } }
    have hstep : step oc (.auth .write, m) = .again (.auth .write, m₁) := by
      simp only [step, authTurn, hm.auth, S5Authenticate.newStandard, S5Authenticate.pollAuth,
        Standard.step, Standard.writeTurn, List.drop_zero, hsent [0x05, 0x02] rfl, Turn.map]
      rfl
    have hproceeds : m₁.Proceeds := by
      simp only [Proceeds, m₁, hm.state]
      rfl
    exact ⟨_, hreach.tail (.inl hstep), hproceeds, rfl⟩

/-- The offer is honoured exactly when it has the method of the authenticator. -/
theorem honoursOffer_iff (ha : Fresh a password) {methods : Bytes}
    (hlen : methods.length < 256) : HonoursOffer a methods ↔ a.method ∈ methods := by
  constructor
  · intro h
    obtain ⟨s, hreach, hs, -⟩ := reaches_selected true ha hlen
    exact (h true (offering methods) ⟨[], (List.append_nil _).symm⟩).1 s hreach hs
  · intro hmem oc d _
    exact ⟨fun _ _ _ => hmem, fun hnot => absurd hmem hnot⟩

theorem honoursOffer_iff_skip : HonoursOffer .newSkip [0x02, 0x00] :=
  (honoursOffer_iff .skip (by decide)).2 (by decide)

/-- A client that offers a password only, and asks for 1.2.3.4:80. -/
def passwordOnly : Duplex where
  incoming := [0x05, 0x01, 0x02] ++ [0x05, 0x01, 0x00, 0x01, 1, 2, 3, 4, 0, 80]
  reads := .replicate 4 (.upTo 9)
  writes := .replicate 2 (.upTo 9)
  closes := []
  sent := []

theorem drives_passwordOnly : ∃ t, Drives (step true) (.select, new .newSkip passwordOnly) t
    (.ret (.ok (.tcp (.socket (.v4 ⟨[1, 2, 3, 4], rfl⟩ 80))))) :=
  have h : run (step true) 20 (.select, new .newSkip passwordOnly) = some (_, _) := rfl
  ⟨_, drives_of_run h⟩

/-- It is served without a password. -/
theorem not_honoursOffer_passwordOnly : ¬ HonoursOffer .newSkip [0x02] := by
  intro h
  obtain ⟨t, H⟩ := drives_passwordOnly
  exact ((h true passwordOnly ⟨_, rfl⟩).2 (by decide) t _ H).1 _ rfl

end Socks5
end Fuso

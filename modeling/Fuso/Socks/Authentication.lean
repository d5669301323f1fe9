import Fuso.Socks.Fragmentation
import Fuso.Socks.Negotiation

/-!
# Password authentication

`Socks5::poll` with `S5Authenticate::standard`. The handshake polls the negotiation
(`drives_standard`), so what `negotiates` says about the negotiation holds of the handshake: it
resolves to a socket only behind the configured credentials (`authenticated_of_drives`), other
credentials are refused (`refused_of_drives`), and no run of either ends in undefined behaviour. The
negotiation resolves whenever the stream has answers enough (`pollAuth_resolves`).
-/

namespace Fuso.Socks5
open Turn

/-- The handshake resolves without an error only behind a greeting of version 5. -/
theorem drives_greeting {d : Duplex} {t : Pc × Socks5 Duplex} (hr : ∀ e, r ≠ .ret (.error e))
    (H : Drives (step oc) (.select, new a d) t r) :
    ∃ nmethod methods rest m, d.incoming = [0x05, nmethod] ++ methods ++ rest ∧
      methods.length = nmethod.toNat ∧ m.state = .authentication m.readOffset ∧ m.auth = a ∧
      m.writeBuf = [] ∧ m.stream.incoming = rest ∧ Drives (step oc) (.auth .write, m) t r := by
  obtain ⟨v, nm, rest, m₁, hin, -, ha, hw, hrest, hstep, H₁⟩ := drives_head (hr _) H
  by_cases hv : v ≠ 0x05
  · rw [if_pos hv] at hstep
    obtain ⟨rfl, rfl⟩ := (drives_iff_of_ready hstep).1 H₁
    exact absurd rfl (hr _)
  · rw [if_neg hv] at hstep
    obtain rfl : v = 0x05 := by simpa using hv
    obtain ⟨reads', hlen', H₂⟩ := drives_received hw asks_authentication (hr _)
      ((drives_iff_of_goes (.inl hstep)).1 H₁)
    let m₂ := received (m₁.expect (.authentication nm.toNat) nm.toNat) reads'
    have hst : m₂.state = .authentication m₂.readOffset := by simp [m₂, received, expect]
    have hsel : step oc (.select, m₂) = .again (.auth .write, m₂) := by simp [step, select, hst]
    refine ⟨nm, rest.take nm.toNat, rest.drop nm.toNat, m₂, ?_, ?_, hst, ha, hw, ?_,
      (drives_iff_of_goes (.inl hsel)).1 H₂⟩
    · simp [hin]
    · simpa [hrest] using hlen'
    · simp [m₂, received, expect, hrest]

/-- A handshake in a negotiation. -/
def negotiating (m : Socks5 Duplex) (s : AuthPc × Standard × Duplex) : Pc × Socks5 Duplex :=
  (.auth s.1, { m with auth := .standard s.2.1, stream := s.2.2 })

theorem drives_standard {m : Socks5 Duplex} {a : Standard} {t : Pc × Socks5 Duplex}
    (hst : m.state = .authentication m.readOffset) (hauth : m.auth = .standard a)
    (H : Drives (step oc) (.auth .write, m) t r) :
    ∃ s r', Drives Standard.step (.write, a, m.stream) s r' ∧
      match r' with
      | .ret (.ok ()) => ∃ m₁ : Socks5 Duplex, m₁.writeBuf = m.writeBuf ∧ m₁.stream = s.2.2 ∧
          Drives (step oc) (.write, m₁.expect (.request 0x05 0 0 0 4) 4) t r
      | .ret (.error e) => r = .ret (.error e)
      | .panic => r = .panic
      | .undefined => r = .undefined := by
  have hm : m.negotiating (.write, a, m.stream) = (.auth .write, m) := by
    simp only [negotiating, ← hauth]
  rw [← hm] at H
  have hagain : ∀ s s', Standard.step s = .again s' →
      step oc (m.negotiating s) = .again (m.negotiating s') := by
    intro s s' h
    simp [negotiating, step, authTurn, S5Authenticate.pollAuth, h, Turn.map]
  have hpending : ∀ s s', Standard.step s = .pending s' →
      ∃ u, step oc (m.negotiating s) = .pending u ∧
        (u = m.negotiating s' ∨ step oc u = .again (m.negotiating s')) := by
    intro s s' h
    refine ⟨(.select, { m with auth := .standard s'.2.1, stream := s'.2.2 }), ?_, .inr ?_⟩
    · simp [negotiating, step, authTurn, S5Authenticate.pollAuth, h, Turn.map]
    · simp [negotiating, step, select, hst, Standard.pending_write h]
  obtain ⟨s₁, s, r', H₁, hready, H₂⟩ := Drives.nested _ _ hagain hpending H
  let m₁ : Socks5 Duplex := { m with auth := .standard s.2.1, stream := s.2.2 }
  refine ⟨s, r', H₁, ?_⟩
  have hturn : step oc (m.negotiating s₁) = m₁.authenticated r' := by
    simp [negotiating, step, authTurn, S5Authenticate.pollAuth, hready, Turn.map, m₁]
  cases r' with
  | ret res =>
    cases res with
    | ok => exact ⟨m₁, rfl, rfl, (drives_iff_of_goes (.inl hturn)).1 H₂⟩
    | error e => exact ((drives_iff_of_ready hturn).1 H₂).2
  | panic => exact ((drives_iff_of_ready hturn).1 H₂).2
  | undefined => exact ((drives_iff_of_ready hturn).1 H₂).2

/-! ## Every run is defined -/

theorem parseAddressMessage_defined (hne : atype = 0x01 → 6 ≤ data.length)
    (hne' : atype = 0x04 → 18 ≤ data.length) :
    (parseAddressMessage cmd rsv atype data rest).out ≠ .undefined := by
  have haddr : parseAddr atype data ≠ .undefined := by
    unfold parseAddr
    split_ifs <;> simp_all
  unfold parseAddressMessage Parsed.done parseAddress
  dsimp only
  split
  · simp
  · split
    · split_ifs <;> simp
    · simp
    · simp
    · exact absurd ‹_› haddr

theorem parseDomain_defined : (parseDomain oc cmd rsv rx).out ≠ .undefined := by
  intro h
  induction rx with
  | nil => exact nomatch h
  | cons b rx ih =>
    rw [parseDomain_eq] at h
    have h₁ := (Parsed.message_out h nofun).2
    simp only [List.take_succ_cons, List.take_zero, List.drop_succ_cons, List.drop_zero] at h₁
    split at h₁
    · exact nomatch h₁
    · split at h₁
      · exact ih h₁
      · exact parseAddressMessage_defined (fun h => absurd h (by decide))
          (fun h => absurd h (by decide)) (Parsed.message_out h₁ nofun).2

theorem parseRequest_defined : (parseRequest oc rx).out ≠ .undefined := by
  intro h
  have h₁ := (Parsed.message_out h nofun).2
  unfold parseRequestHead at h₁
  split at h₁
  · split at h₁
    · exact nomatch h₁
    · split at h₁
      · exact nomatch h₁
      · next len hat =>
        split at h₁
        · exact parseDomain_defined h₁
        · obtain ⟨hlen, h₂⟩ := Parsed.message_out h₁ nofun
          refine parseAddressMessage_defined ?_ ?_ h₂
          all_goals
            rintro rfl
            obtain ⟨ha, rfl⟩ | ⟨ha, rfl⟩ | ⟨ha, rfl⟩ := atypeLen_eq hat <;> simp_all
  · exact nomatch h₁

/-! ## The credentials -/

section
variable {username password : Bytes} {d : Duplex} {t : Pc × Socks5 Duplex}

/-- A handshake that resolves without an error was given the configured credentials, and what it
took behind them is a request. -/
theorem authenticated_of_drives (hr : ∀ e, r ≠ .ret (.error e))
    (H : Drives (step oc) (.select, new (.newStandard username password) d) t r) :
    ∃ nmethod methods u p tail cuts, methods.length = nmethod.toNat ∧ username.length = u.toNat ∧
      password.length = p.toNat ∧
      d.incoming = [0x05, nmethod] ++ methods ++ (credentials u username p password ++ tail) ∧
      Conforms (parseRequest oc tail) tail cuts r t.2.stream.incoming := by
  obtain ⟨nm, methods, rest, m, hin, hnm, hst, hauth, hw, hrest, H₁⟩ := drives_greeting hr H
  obtain ⟨s, r', H₂, hr'⟩ := drives_standard (a := .fresh username password 0) hst hauth H₁
  cases negotiates H₂ with
  | accepted hu hp hrx =>
    obtain ⟨m₁, hw₁, hstream, H₃⟩ := hr'
    rw [hrest] at hrx
    refine ⟨nm, methods, _, _, m₁.stream.incoming, sizes m₁.stream.reads, hnm, hu, hp, ?_,
      conforms_request (hw₁.trans hw) H₃⟩
    rw [hin, hrx, hstream]
  | refused | version | eof => exact absurd hr' (hr _)

/-- Other credentials are answered with a refusal, byte for byte. -/
theorem refused_of_drives (hu : user.length = u.toNat) (hp : passwd.length = p.toNat)
    (hpos : 0 < passwd.length) (hne : ¬(user = username ∧ passwd = password))
    (hin : d.incoming = credentials u user p passwd ++ tail)
    (H : Drives Standard.step (.write, .fresh username password 0, d) s r) :
    r = .ret (.error (.socks .authenticate)) ∧ s.2.2.sent = d.sent ++ [0x05, 0x02, 0x01, 0x01] := by
  cases negotiates H with
  | accepted hu' hp' hrx =>
    obtain ⟨rfl, rfl, -⟩ := credentials_inj hu hp hu' hp' (hin.symm.trans hrx)
    exact absurd ⟨rfl, rfl⟩ hne
  | refused _ _ _ _ hsent => exact ⟨rfl, hsent⟩
  | version hrx hv =>
    rw [hin] at hrx
    exact absurd (List.cons.inj hrx).1.symm hv
  | eof hincomplete => exact absurd ⟨u, user, p, passwd, tail, hin, hu, hp, hpos⟩ hincomplete

/-- A run of `poll_auth` is a run of its loops. -/
theorem drives_pollAuth {d : Duplex} (H : Drives S5Authenticate.pollAuth
      (.write, .newStandard username password, d) s r) :
    ∃ s' : AuthPc × Standard × Duplex, s'.2.2 = s.2.2 ∧
      Drives Standard.step (.write, .fresh username password 0, d) s' r := by
  obtain ⟨s', rfl, H'⟩ := Drives.of_map (s := (.write, .fresh username password 0, d))
    (f := fun s : AuthPc × Standard × Duplex => (s.1, S5Authenticate.standard s.2.1, s.2.2))
    (fun _ => rfl) H
  exact ⟨s', rfl, H'⟩

/-- On a stream with answers enough the negotiation does resolve: the configured credentials are
accepted and all others are refused. -/
theorem pollAuth_resolves (hu : user.length = u.toNat) (hp : passwd.length = p.toNat)
    (hpos : 0 < passwd.length) (hin : d.incoming = credentials u user p passwd ++ tail)
    (hends : d.Ends) (hroom : d.Roomy 4) :
    ∃ s, Drives S5Authenticate.pollAuth (.write, .newStandard username password, d) s
      (.ret (if user = username ∧ passwd = password then .ok ()
        else .error (.socks .authenticate))) := by
  obtain ⟨s, r, H⟩ := exists_negotiation username password hends hroom
  have H' : Drives S5Authenticate.pollAuth (.write, .newStandard username password, d)
      (s.1, .standard s.2.1, s.2.2) r :=
    H.map (I := fun _ => True) (f := fun s => (s.1, S5Authenticate.standard s.2.1, s.2.2))
      (fun _ _ _ _ => trivial) (fun _ _ => rfl) trivial
  refine ⟨(s.1, .standard s.2.1, s.2.2), ?_⟩
  cases negotiates H with
  | accepted hu' hp' hrx =>
    obtain ⟨rfl, rfl, -⟩ := credentials_inj hu hp hu' hp' (hin.symm.trans hrx)
    rw [if_pos ⟨rfl, rfl⟩]
    exact H'
  | refused hu' hp' hrx hne =>
    obtain ⟨rfl, rfl, -⟩ := credentials_inj hu hp hu' hp' (hin.symm.trans hrx)
    rw [if_neg hne]
    exact H'
  | version hrx hv =>
    rw [hin] at hrx
    exact absurd (List.cons.inj hrx).1.symm hv
  | eof hincomplete => exact absurd ⟨u, user, p, passwd, tail, hin, hu, hp, hpos⟩ hincomplete

/-- The password cannot be bypassed: a handshake that resolves to a socket was given the configured
user name and password right behind the greeting, other credentials are answered with `05 02 01 01`
and `Authenticate`, and no run reaches undefined behaviour. -/
theorem authentication_not_bypassed (username password : Bytes) :
    (∀ oc d t socket,
      Drives (step oc) (.select, new (.newStandard username password) (d : Duplex)) t
        (.ret (.ok socket)) →
      ∃ nmethod methods u p tail, methods.length = nmethod.toNat ∧ username.length = u.toNat ∧
        password.length = p.toNat ∧
        d.incoming =
          [0x05, nmethod] ++ methods ++ ([0x01, u] ++ username ++ [p] ++ password ++ tail) ∧
        t.2.stream.incoming <:+ tail) ∧
    (∀ (d : Duplex) s r u user p pass tail,
      user.length = u.toNat → pass.length = p.toNat → 0 < pass.length →
      ¬(user = username ∧ pass = password) →
      d.incoming = [0x01, u] ++ user ++ [p] ++ pass ++ tail →
      Drives S5Authenticate.pollAuth (.write, .newStandard username password, d) s r →
      r = .ret (.error (.socks .authenticate)) ∧
        s.2.2.sent = d.sent ++ [0x05, 0x02, 0x01, 0x01]) ∧
    (∀ (d : Duplex) s r,
      Drives S5Authenticate.pollAuth (.write, .newStandard username password, d) s r →
      r ≠ .undefined) ∧
    ∀ oc d t r, Drives (step oc) (.select, new (.newStandard username password) (d : Duplex)) t r →
      r ≠ .undefined := by
  refine ⟨?_, ?_, ?_, ?_⟩
  · intro oc d t socket H
    obtain ⟨nm, methods, u, p, tail, cuts, hnm, hu, hp, hin, hconf⟩ :=
      authenticated_of_drives (by simp) H
    exact ⟨nm, methods, u, p, tail, hnm, hu, hp, hin, hconf.suffix fits_parseRequest⟩
  · intro d s r u user p pass tail hu hp hpos hne hin H
    obtain ⟨s', hs', H'⟩ := drives_pollAuth H
    exact hs' ▸ refused_of_drives hu hp hpos hne hin H'
  · intro d s r H
    obtain ⟨s', -, H'⟩ := drives_pollAuth H
    cases negotiates H' <;> simp
  · rintro oc d t r H rfl
    obtain ⟨_, _, _, _, _, _, _, _, _, _, hconf⟩ := authenticated_of_drives (by simp) H
    exact parseRequest_defined (hconf.out_eq (by simp))

/-- A client that logs in as `a` with the password `pass` and asks for 1.2.3.4:80. -/
def loggingIn (pass : UInt8) : Duplex :=
  { incoming := [0x05, 0x01, 0x02] ++ [0x01, 1, 97, 1, pass] ++
      [0x05, 0x01, 0x00, 0x01, 1, 2, 3, 4, 0, 80]
    reads := .replicate 7 (.upTo 9), writes := .replicate 3 (.upTo 9), closes := [], sent := [] }

/-- The password `b` is accepted, and on the negotiation alone `c` is refused. -/
theorem authentication_not_bypassed_loggingIn :
    (∃ nmethod methods u p tail, methods.length = UInt8.toNat nmethod ∧
      1 = UInt8.toNat u ∧ 1 = UInt8.toNat p ∧
      (loggingIn 98).incoming =
        [0x05, nmethod] ++ methods ++ ([0x01, u] ++ [97] ++ [p] ++ [98] ++ tail)) ∧
    ∃ s, Drives S5Authenticate.pollAuth (.write, .newStandard [97] [98],
        { loggingIn 99 with incoming := [0x01, 1, 97, 1, 99] }) s
        (.ret (.error (.socks .authenticate))) ∧
      s.2.2.sent = [0x05, 0x02, 0x01, 0x01] := by
  obtain ⟨hok, hbad, -⟩ := authentication_not_bypassed [97] [98]
  constructor
  · obtain ⟨nm, methods, u, p, tail, hnm, hu, hp, hin, -⟩ := hok false (loggingIn 98) _
      (.tcp (.socket (.v4 ⟨[1, 2, 3, 4], rfl⟩ 80))) (drives_of_run (n := 60) rfl)
    exact ⟨nm, methods, u, p, tail, hnm, hu, hp, hin⟩
  · have H : Drives S5Authenticate.pollAuth (.write, .newStandard [97] [98],
        { loggingIn 99 with incoming := [0x01, 1, 97, 1, 99] }) _
        (.ret (.error (.socks .authenticate))) := drives_of_run (n := 30) rfl
    exact ⟨_, H, (hbad _ _ _ 1 [97] 1 [99] [] rfl rfl (by decide) (by decide) rfl H).2⟩

end
end Fuso.Socks5

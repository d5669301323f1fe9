import Fuso.Async.Truncate
import Fuso.Async.Writer
import Fuso.Socks.Auth

/-!
# The user name and password negotiation

`poll_auth` of `Standard` on a stream, however its reads and writes are cut. `Negotiating` is the
state as the bytes read so far determine it, `Negotiating.step` is one turn of its loops, and
`negotiates` says how a negotiation ends (`Negotiated`): it is accepted or refused by the
credentials, refused by its version, or it ends with the stream. It does end when the stream has
answers enough (`exists_negotiation`).
-/

namespace Fuso
open Turn

/-- A user name and a password as the client sends them. -/
def credentials (u : UInt8) (user : Bytes) (p : UInt8) (passwd : Bytes) : Bytes :=
  [0x01, u] ++ user ++ [p] ++ passwd

/-- The stream starts with a user name and a password that is not empty. -/
def Complete (rx : Bytes) : Prop :=
  ∃ u user p passwd tail, rx = credentials u user p passwd ++ tail ∧
    user.length = u.toNat ∧ passwd.length = p.toNat ∧ 0 < passwd.length

theorem credentials_prefix (hu : user.length = u.toNat) (hu' : user'.length = u'.toNat)
    (h : [0x01, u] ++ user ++ [p] ++ rest = credentials u' user' p' passwd ++ tail) :
    user = user' ∧ p = p' ∧ rest = passwd ++ tail := by
  simp only [credentials, List.cons_append, List.nil_append, List.append_assoc, List.cons.injEq,
    true_and] at h
  obtain ⟨rfl, h₁⟩ := h
  obtain ⟨rfl, h₂⟩ := List.append_inj h₁ (hu.trans hu'.symm)
  exact ⟨rfl, List.cons.inj h₂⟩

/-- Two streams that agree start with the same credentials. -/
theorem credentials_inj (hu : user.length = u.toNat) (hp : passwd.length = p.toNat)
    (hu' : user'.length = u'.toNat) (hp' : passwd'.length = p'.toNat)
    (h : credentials u user p passwd ++ tail = credentials u' user' p' passwd' ++ tail') :
    user = user' ∧ passwd = passwd' ∧ tail = tail' := by
  rw [credentials, List.append_assoc] at h
  obtain ⟨rfl, rfl, h₁⟩ := credentials_prefix hu hu' h
  obtain ⟨rfl, rfl⟩ := List.append_inj h₁ (hp.trans hp'.symm)
  exact ⟨rfl, rfl, rfl⟩

/-- A message of which `got` was read into `buf`. -/
structure Got (got buf : Bytes) (len : Nat) : Prop where
  length : buf.length = len
  le : got.length ≤ len
  take : buf.take got.length = got

theorem Got.nil : Got [] (.replicate len 0) len := ⟨by simp, Nat.zero_le _, rfl⟩

theorem Got.eq (h : Got got buf len) (hfull : got.length = len) : buf = got := by
  rw [← h.take, hfull, ← h.length, List.take_length]

/-- More of the message arrives. -/
theorem Got.append (h : Got got buf len) (hle : got.length + data.length ≤ len) :
    Got (got ++ data) (overwrite buf got.length data) len where
  length := (length_overwrite _ _ (by rw [h.length]; exact hle)).trans h.length
  le := by simpa using hle
  take := by
    rw [List.length_append, take_overwrite _ _ (by rw [h.length]; exact hle), h.take]

namespace Standard

/-! ## One turn -/

variable {a : Standard} {d : Duplex}

theorem wrote_part (h : a.wpos ≠ buf.length) : a.wrote buf d = .again (.write, a, d) := by
  simp [wrote, h]

theorem wrote_first (h : a.wpos = buf.length) (hp : a.cmpPass = none) (hu : a.cmpUser = none) :
    a.wrote buf d =
      .again (.write, { a with rbuf := some (.replicate 2 0), wbuf := none }, d) := by
  rw [wrote, if_pos ⟨h, by simp [hp], by simp [hu]⟩]

theorem wrote_last (h : a.wpos = buf.length) (hp : a.cmpPass = some passwd)
    (hu : a.cmpUser = some user) :
    a.wrote buf d = .ready (.write, a, d)
      (.ret (if a.good then .ok () else .error (.socks .authenticate))) := by
  rw [wrote, if_neg (by simp [hp])]
  cases hg : a.good <;> simp [h, hp, hu]

/-- A write: the stream is not ready, or it takes some of what is left of `buf`. -/
theorem write_cases (hbuf : a.wbuf = some buf) (hlt : a.wpos < buf.length) :
    (∃ d', a.writeTurn d = .pending (.write, a, d') ∧ d.Takes [] d' ∧
      (d.Roomy 1 → d'.writes.length < d.writes.length) ∧
      d' = { d' with incoming := d.incoming, reads := d.reads }) ∨
    ∃ k d', 0 < k ∧ a.wpos + k ≤ buf.length ∧
      a.writeTurn d = { a with wpos := a.wpos + k }.wrote buf d' ∧
      d.Takes ((buf.drop a.wpos).take k) d' ∧ d'.writes.length < d.writes.length ∧
      d' = { d' with incoming := d.incoming, reads := d.reads } := by
  have hne : buf.drop a.wpos ≠ [] := by simpa using hlt
  obtain ⟨d', ⟨hwrite, htakes, hans⟩ | ⟨k, hk, hle, hwrite, htakes, hans⟩⟩ :=
    Duplex.pollWrite_takes d (buf.drop a.wpos) hne
  · exact .inl ⟨d', by simp only [writeTurn, hbuf, hwrite], htakes, hans,
      Duplex.of_pollWrite hwrite⟩
  · rw [List.length_drop] at hle
    refine .inr ⟨k, d', hk, by omega, ?_, htakes, hans, Duplex.of_pollWrite hwrite⟩
    simp only [writeTurn, hbuf, hwrite]
    rw [if_neg (Nat.ne_of_gt hk)]

/-- A read: the stream is not ready, it ends, or more of the message arrives. -/
theorem read_cases (hbuf : a.rbuf = some buf) (hgot : Got got buf len)
    (hpos : a.rpos = got.length) :
    (∃ reads, a.readTurn d = .pending (.write, a, { d with reads }) ∧
      (d.Ends → Duplex.Ends { d with reads } ∧ reads.length < d.reads.length)) ∨
    ((d.incoming = [] ∨ got.length = len) ∧
      ∃ d', a.readTurn d = .ready (.read, a, d') (.ret (.error (.io .unexpectedEof)))) ∨
    ∃ data rx reads buf', d.incoming = data ++ rx ∧ data ≠ [] ∧ Got (got ++ data) buf' len ∧
      (d.Ends → Duplex.Ends { d with incoming := rx, reads } ∧ reads.length < d.reads.length) ∧
      let a' := { a with rbuf := some buf', rpos := (got ++ data).length }
      let d' := { d with incoming := rx, reads }
      ((got ++ data).length = len → a.readTurn d = a'.full buf' d') ∧
      ((got ++ data).length ≠ len → a.readTurn d = .again (.read, a', d')) := by
  have hlenb := hgot.length
  have hle := hgot.le
  rcases Nat.eq_or_lt_of_le hle with hfull | hlt
  · refine .inr (.inl ⟨.inr hfull, d, ?_⟩)
    simp only [readTurn, hbuf, hpos, hlenb, hfull, Nat.sub_self, Duplex.pollRead_zero, if_true]
  have hcap : (ReadBuf.new (len - got.length)).remaining ≠ 0 := by
    rw [ReadBuf.remaining_new]
    omega
  cases hr : d.reads with
  | nil =>
    refine .inl ⟨d.reads, ?_, fun h => by simp [Duplex.Ends, hr, sizes] at h⟩
    simp only [readTurn, hbuf, hpos, hlenb, Duplex.pollRead_nil hr hcap]
  | cons x reads =>
    cases x with
    | pending =>
      refine .inl ⟨reads, ?_, fun h => ⟨by simpa [Duplex.Ends, hr, sizes] using h, by simp⟩⟩
      simp only [readTurn, hbuf, hpos, hlenb, Duplex.pollRead_pending hr hcap]
    | upTo n =>
      obtain ⟨rb, hrb, hread⟩ := Duplex.pollRead_upTo hr hcap
      obtain ⟨data, hdata⟩ : ∃ data, d.delivered n (len - got.length) = data := ⟨_, rfl⟩
      rw [ReadBuf.remaining_new] at hrb hread
      rw [hdata] at hrb hread
      have hlen : data.length = min (min (n + 1) (len - got.length)) d.incoming.length := by
        rw [← hdata, Duplex.length_delivered]
      by_cases hin : d.incoming = []
      · have h0 : data.length = 0 := by simp [hlen, hin]
        refine .inr (.inl ⟨.inl hin, d.behind reads data, ?_⟩)
        simp only [readTurn, hbuf, hpos, hlenb, hread, h0, if_true]
      · have hinpos : 0 < d.incoming.length := List.length_pos_iff.2 hin
        refine .inr (.inr ⟨data, d.incoming.drop data.length, reads,
          overwrite buf got.length data, ?_, List.length_pos_iff.1 (by omega),
          hgot.append (by omega), fun h => ⟨?_, by simp⟩, fun h => ?_, fun h => ?_⟩)
        · rw [← hdata, Duplex.drop_delivered, Duplex.delivered, List.take_append_drop]
        · simp only [Duplex.Ends, hr, sizes, List.length_cons, List.length_drop] at h ⊢
          omega
        all_goals
          rw [List.length_append] at h
          simp only [readTurn, hbuf, hread, hrb, hpos, hlenb, List.length_append]
          rw [if_neg (by omega)]
        · rw [if_pos h]
          rfl
        · rw [if_neg h]
          rfl

theorem full_head (hu : a.cmpUser = none) (hi : a.init = false) :
    a.full [v, u] d =
      if v ≠ 0x01 then .ready (.read, a, d) (.ret (.error (.socks .authenticate)))
      else .again (.read, { a with
        rbuf := some (.replicate (u.toNat + 1) 0), rpos := 0, init := true }, d) := by
  simp [full, hu, hi]

theorem full_user (hu : a.cmpUser = none) (hi : a.init = true) :
    a.full (user ++ [p]) d = .again (.read, { a with
      rpos := 0, cmpUser := some (user ++ [p]), rbuf := some (.replicate p.toNat 0) }, d) := by
  simp [full, hu, hi]

theorem full_pass (hu : a.cmpUser = some user) :
    a.full passwd d = .again (.check, { a with cmpPass := some passwd, rbuf := none }, d) := by
  simp [full, hu]

end Standard

/-! ## The negotiation as the bytes determine it -/

/-- `S5Authenticate::standard` behind `wpos` bytes of its first reply. -/
def Standard.fresh (username password : Bytes) (wpos : Nat) : Standard where
  rpos := 0
  rbuf := none
  wpos := wpos
  wbuf := some [0x05, 0x02]
  init := false
  good := false
  cmpUser := none
  cmpPass := none
  username := username
  password := password

/-- The status that a user name and a password are answered with. -/
def status (good : Bool) : Bytes := [0x01, if good then 0x00 else 0x01]

section
variable (username password rx sent : Bytes)

/-- The states of a negotiation on a stream that holds `rx`, with `sent` written before. -/
inductive Negotiating : AuthPc × Standard × Duplex → Prop where
  | reply : wpos < 2 → d.incoming = rx → d.sent = sent ++ ([0x05, 0x02] : Bytes).take wpos →
    Negotiating (.write, Standard.fresh username password wpos, d)
  | readHead : pc = .write ∨ pc = .read → Got got buf 2 → got.length < 2 → rx = got ++ d.incoming →
    d.sent = sent ++ [0x05, 0x02] →
    Negotiating (pc, { Standard.fresh username password 2 with
      wbuf := none, rbuf := some buf, rpos := got.length }, d)
  | readUser : pc = .write ∨ pc = .read → Got got buf (u.toNat + 1) → got.length < u.toNat + 1 →
    rx = [0x01, u] ++ got ++ d.incoming → d.sent = sent ++ [0x05, 0x02] →
    Negotiating (pc, { Standard.fresh username password 2 with
      wbuf := none, rbuf := some buf, rpos := got.length, init := true }, d)
  | readPass : pc = .write ∨ pc = .read → Got got buf p.toNat → got.length < p.toNat ∨ p.toNat = 0 →
    user.length = u.toNat → rx = [0x01, u] ++ user ++ [p] ++ got ++ d.incoming →
    d.sent = sent ++ [0x05, 0x02] →
    Negotiating (pc, { Standard.fresh username password 2 with
      wbuf := none, rbuf := some buf, rpos := got.length, init := true,
      cmpUser := some (user ++ [p]) }, d)
  | check : user.length = u.toNat → passwd.length = p.toNat → 0 < passwd.length →
    rx = credentials u user p passwd ++ d.incoming → d.sent = sent ++ [0x05, 0x02] →
    Negotiating (.check, { Standard.fresh username password 2 with
      wbuf := none, rpos := p.toNat, init := true,
      cmpUser := some (user ++ [p]), cmpPass := some passwd }, d)
  | answer : user.length = u.toNat → passwd.length = p.toNat → 0 < passwd.length →
    rx = credentials u user p passwd ++ d.incoming → wpos < 2 →
    good = decide (user = username ∧ passwd = password) →
    d.sent = sent ++ [0x05, 0x02] ++ (status good).take wpos →
    Negotiating (.write, { Standard.fresh username password wpos with
      wbuf := some (status good), rpos := p.toNat, init := true, good := good,
      cmpUser := some (user ++ [p]), cmpPass := some passwd }, d)

/-- How a negotiation ends. -/
inductive Negotiated (d : Duplex) : Exit Unit → Prop where
  | accepted : username.length = u.toNat → password.length = p.toNat →
    rx = credentials u username p password ++ d.incoming → Negotiated d (.ret (.ok ()))
  | refused : user.length = u.toNat → passwd.length = p.toNat →
    rx = credentials u user p passwd ++ d.incoming → ¬(user = username ∧ passwd = password) →
    d.sent = sent ++ [0x05, 0x02, 0x01, 0x01] → Negotiated d (.ret (.error (.socks .authenticate)))
  | version : rx = v :: rest → v ≠ 0x01 → Negotiated d (.ret (.error (.socks .authenticate)))
  | eof : ¬Complete rx → Negotiated d (.ret (.error (.io .unexpectedEof)))

end

namespace Negotiating
variable {username password rx sent : Bytes}

/-- What one turn leads to. -/
abbrev Next (username password rx sent : Bytes) (s : AuthPc × Standard × Duplex) : Prop :=
  (∃ s', Goes Standard.step s s' ∧ Negotiating username password rx sent s') ∨
  ∃ s' r, Standard.step s = .ready s' r ∧ Negotiated username password rx sent s'.2.2 r

theorem step_reply (hn : n < 2) (hin : d.incoming = rx)
    (hsent : d.sent = sent ++ ([0x05, 0x02] : Bytes).take n) :
    Next username password rx sent (.write, .fresh username password n, d) := by
  rcases Standard.write_cases (a := .fresh username password n) (d := d) rfl hn with
    ⟨d', hstep, htakes, -, hd'⟩ | ⟨k, d', hk, hle, hstep, htakes, -, hd'⟩
  · have hin' : d'.incoming = rx := by rw [hd', hin]
    exact .inl ⟨_, .inr hstep, .reply hn hin' (by rw [htakes.sent, hsent, List.append_nil])⟩
  · have hin' : d'.incoming = rx := by rw [hd', hin]
    have htake : d'.sent = sent ++ ([0x05, 0x02] : Bytes).take (n + k) := by
      rw [List.take_add, ← List.append_assoc, ← hsent]
      exact htakes.sent
    by_cases hfull : n + k = 2
    · rw [hfull] at htake
      refine .inl ⟨_, .inl (hstep.trans (Standard.wrote_first hfull rfl rfl)), ?_⟩
      simp only [Standard.fresh, hfull]
      exact readHead (.inl rfl) Got.nil (by simp) hin'.symm htake
    · have hlt : n + k < 2 := Nat.lt_of_le_of_ne hle hfull
      exact .inl ⟨_, .inl (hstep.trans (Standard.wrote_part hfull)), .reply hlt hin' htake⟩

/-- A poll that starts in the write loop finds nothing to write there. -/
theorem goes_read (h : a.wbuf = none) :
    Goes Standard.step (.write, a, (d : Duplex)) (.read, a, d) :=
  .inl (by simp [Standard.step, Standard.writeTurn, h])

theorem step_readHead (hpc : pc = .write ∨ pc = .read) (hgot : Got got buf 2) (hlt : got.length < 2)
    (hrx : rx = got ++ d.incoming) (hsent : d.sent = sent ++ [0x05, 0x02]) :
    Next username password rx sent (pc, { Standard.fresh username password 2 with
      wbuf := none, rbuf := some buf, rpos := got.length }, d) := by
  rcases hpc with rfl | rfl
  · exact .inl ⟨_, goes_read rfl, readHead (.inr rfl) hgot hlt hrx hsent⟩
  rcases Standard.read_cases (d := d) (a := { Standard.fresh username password 2 with
      wbuf := none, rbuf := some buf, rpos := got.length }) rfl hgot rfl with
    ⟨reads, hstep, -⟩ | ⟨hend, d', hstep⟩ |
    ⟨data, rest, reads, buf', hin, hdata, hgot', -, hfull, hpart⟩
  · exact .inl ⟨_, .inr hstep, readHead (.inl rfl) hgot hlt hrx hsent⟩
  · refine .inr ⟨_, _, hstep, .eof ?_⟩
    rintro ⟨u, user, p, passwd, tail, h, -⟩
    have hnil : d.incoming = [] := hend.resolve_right (by omega)
    have hlen := congrArg List.length (hrx.symm.trans h)
    simp [hnil, credentials] at hlen
    omega
  · have hrx' : rx = (got ++ data) ++ rest := by rw [hrx, hin, List.append_assoc]
    by_cases hlen : (got ++ data).length = 2
    · obtain ⟨v, u, hvu⟩ : ∃ v u, got ++ data = [v, u] := List.length_eq_two.1 hlen
      have hstep := hfull hlen
      rw [hgot'.eq hlen, hvu, Standard.full_head rfl rfl] at hstep
      rw [hvu] at hrx'
      by_cases hv : v = 0x01
      · rw [if_neg (by simpa using hv)] at hstep
        exact .inl ⟨_, .inl hstep,
          readUser (.inr rfl) Got.nil (by simp) (by rw [hrx', hv]; rfl) hsent⟩
      · rw [if_pos hv] at hstep
        exact .inr ⟨_, _, hstep, .version hrx' hv⟩
    · exact .inl ⟨_, .inl (hpart hlen), readHead (.inr rfl) hgot'
        (Nat.lt_of_le_of_ne hgot'.le hlen) hrx' hsent⟩

theorem step_readUser (hpc : pc = .write ∨ pc = .read) (hgot : Got got buf (u.toNat + 1))
    (hlt : got.length < u.toNat + 1) (hrx : rx = [0x01, u] ++ got ++ d.incoming)
    (hsent : d.sent = sent ++ [0x05, 0x02]) :
    Next username password rx sent (pc, { Standard.fresh username password 2 with
      wbuf := none, rbuf := some buf, rpos := got.length, init := true }, d) := by
  rcases hpc with rfl | rfl
  · exact .inl ⟨_, goes_read rfl, readUser (.inr rfl) hgot hlt hrx hsent⟩
  rcases Standard.read_cases (d := d) (a := { Standard.fresh username password 2 with
      wbuf := none, rbuf := some buf, rpos := got.length, init := true }) rfl hgot rfl with
    ⟨reads, hstep, -⟩ | ⟨hend, d', hstep⟩ |
    ⟨data, rest, reads, buf', hin, hdata, hgot', -, hfull, hpart⟩
  · exact .inl ⟨_, .inr hstep, readUser (.inl rfl) hgot hlt hrx hsent⟩
  · refine .inr ⟨_, _, hstep, .eof ?_⟩
    rintro ⟨u', user, p, passwd, tail, h, hu', -⟩
    have hnil : d.incoming = [] := hend.resolve_right (by omega)
    rw [hrx, hnil] at h
    simp only [credentials, List.cons_append, List.nil_append, List.append_assoc, List.append_nil,
      List.cons.injEq, true_and] at h
    have hlen := congrArg List.length h.2
    simp [← h.1] at hlen hu'
    omega
  · have hrx' : rx = [0x01, u] ++ (got ++ data) ++ rest := by
      rw [hrx, hin, List.append_assoc, List.append_assoc, List.append_assoc]
    by_cases hlen : (got ++ data).length = u.toNat + 1
    · obtain hnil | ⟨user, p, hp⟩ := List.eq_nil_or_concat (got ++ data)
      · simp [hnil] at hlen
      rw [List.concat_eq_append] at hp
      have hstep := hfull hlen
      rw [hgot'.eq hlen, hp, Standard.full_user rfl rfl] at hstep
      rw [hp] at hrx' hlen
      refine .inl ⟨_, .inl hstep, readPass (.inr rfl) Got.nil ?_ (by simpa using hlen)
        (by rw [hrx']; simp) hsent⟩
      exact (Nat.eq_zero_or_pos _).symm
    · exact .inl ⟨_, .inl (hpart hlen), readUser (.inr rfl) hgot'
        (Nat.lt_of_le_of_ne hgot'.le hlen) hrx' hsent⟩

theorem step_readPass (hpc : pc = .write ∨ pc = .read) (hgot : Got got buf p.toNat)
    (hlt : got.length < p.toNat ∨ p.toNat = 0) (hu : user.length = u.toNat)
    (hrx : rx = [0x01, u] ++ user ++ [p] ++ got ++ d.incoming)
    (hsent : d.sent = sent ++ [0x05, 0x02]) :
    Next username password rx sent (pc, { Standard.fresh username password 2 with
      wbuf := none, rbuf := some buf, rpos := got.length, init := true,
      cmpUser := some (user ++ [p]) }, d) := by
  rcases hpc with rfl | rfl
  · exact .inl ⟨_, goes_read rfl, readPass (.inr rfl) hgot hlt hu hrx hsent⟩
  rcases Standard.read_cases (d := d) (a := { Standard.fresh username password 2 with
      wbuf := none, rbuf := some buf, rpos := got.length, init := true,
      cmpUser := some (user ++ [p]) }) rfl hgot rfl with
    ⟨reads, hstep, -⟩ | ⟨hend, d', hstep⟩ |
    ⟨data, rest, reads, buf', hin, hdata, hgot', -, hfull, hpart⟩
  · exact .inl ⟨_, .inr hstep, readPass (.inl rfl) hgot hlt hu hrx hsent⟩
  · refine .inr ⟨_, _, hstep, .eof ?_⟩
    rintro ⟨u', user', p', passwd, tail, h, hu', hp', hpos⟩
    rw [hrx, List.append_assoc] at h
    obtain ⟨-, rfl, hrest⟩ := credentials_prefix hu hu' h
    have hlen := congrArg List.length hrest
    rw [List.length_append, List.length_append] at hlen
    rcases hend with hnil | hfull
    · rw [hnil, List.length_nil] at hlen
      omega
    · omega
  · have hrx' : rx = [0x01, u] ++ user ++ [p] ++ (got ++ data) ++ rest := by
      rw [hrx, hin]
      simp only [List.append_assoc]
    have hle := hgot'.le
    by_cases hlen : (got ++ data).length = p.toNat
    · have hstep := hfull hlen
      rw [hgot'.eq hlen, Standard.full_pass rfl] at hstep
      refine .inl ⟨_, .inl hstep, ?_⟩
      simp only [hlen]
      exact check hu hlen (List.length_pos_iff.2 (by simp [hdata])) hrx' hsent
    · exact .inl ⟨_, .inl (hpart hlen),
        readPass (.inr rfl) hgot' (.inl (Nat.lt_of_le_of_ne hle hlen)) hu hrx' hsent⟩

theorem step_check (hu : user.length = u.toNat) (hp : passwd.length = p.toNat)
    (hpos : 0 < passwd.length) (hrx : rx = credentials u user p passwd ++ d.incoming)
    (hsent : d.sent = sent ++ [0x05, 0x02]) :
    Next username password rx sent (.check, { Standard.fresh username password 2 with
      wbuf := none, rpos := p.toNat, init := true,
      cmpUser := some (user ++ [p]), cmpPass := some passwd }, d) := by
  have huser : (user ++ [p]).take ((user ++ [p]).length - 1) = user := by simp
  by_cases hgood : user = username ∧ passwd = password
  · have hstep : Standard.step (.check, { Standard.fresh username password 2 with
        wbuf := none, rpos := p.toNat, init := true,
        cmpUser := some (user ++ [p]), cmpPass := some passwd }, d) =
        .again (.write, { Standard.fresh username password 0 with
          wbuf := some (status true), rpos := p.toNat, init := true, good := true,
          cmpUser := some (user ++ [p]), cmpPass := some passwd }, d) := by
      simp only [Standard.step, Standard.checkTurn, huser]
      rw [if_pos ⟨hgood.2.symm, hgood.1⟩]
      rfl
    exact .inl ⟨_, .inl hstep,
      answer hu hp hpos hrx Nat.two_pos (by simp [hgood]) (by simp [hsent])⟩
  · have hstep : Standard.step (.check, { Standard.fresh username password 2 with
        wbuf := none, rpos := p.toNat, init := true,
        cmpUser := some (user ++ [p]), cmpPass := some passwd }, d) =
        .again (.write, { Standard.fresh username password 0 with
          wbuf := some (status false), rpos := p.toNat, init := true, good := false,
          cmpUser := some (user ++ [p]), cmpPass := some passwd }, d) := by
      simp only [Standard.step, Standard.checkTurn, huser]
      rw [if_neg fun h => hgood ⟨h.2, h.1.symm⟩]
      rfl
    exact .inl ⟨_, .inl hstep,
      answer hu hp hpos hrx Nat.two_pos (by simp [hgood]) (by simp [hsent])⟩

theorem step_answer (hu : user.length = u.toNat) (hp : passwd.length = p.toNat)
    (hpos : 0 < passwd.length) (hrx : rx = credentials u user p passwd ++ d.incoming) (hn : n < 2)
    (hgood : good = decide (user = username ∧ passwd = password))
    (hsent : d.sent = sent ++ [0x05, 0x02] ++ (status good).take n) :
    Next username password rx sent (.write, { Standard.fresh username password n with
      wbuf := some (status good), rpos := p.toNat, init := true, good := good,
      cmpUser := some (user ++ [p]), cmpPass := some passwd }, d) := by
  rcases Standard.write_cases (d := d) (a := { Standard.fresh username password n with
      wbuf := some (status good), rpos := p.toNat, init := true, good := good,
      cmpUser := some (user ++ [p]), cmpPass := some passwd }) rfl hn with
    ⟨d', hstep, htakes, -, hd'⟩ | ⟨k, d', hk, hle, hstep, htakes, -, hd'⟩
  · have hrx' : rx = credentials u user p passwd ++ d'.incoming := by rw [hd', hrx]
    exact .inl ⟨_, .inr hstep, answer hu hp hpos hrx' hn hgood
      (by rw [htakes.sent, hsent, List.append_nil])⟩
  · have hrx' : rx = credentials u user p passwd ++ d'.incoming := by rw [hd', hrx]
    have htake : d'.sent = sent ++ [0x05, 0x02] ++ (status good).take (n + k) := by
      rw [List.take_add, ← List.append_assoc, ← hsent]
      exact htakes.sent
    by_cases hfull : n + k = 2
    · have hall : (status good).take 2 = status good := rfl
      rw [hfull, hall] at htake
      refine .inr ⟨_, _, hstep.trans (Standard.wrote_last hfull rfl rfl), ?_⟩
      by_cases hmatch : user = username ∧ passwd = password
      · obtain ⟨rfl, rfl⟩ := hmatch
        obtain rfl : good = true := by simpa using hgood
        exact .accepted hu hp hrx'
      · obtain rfl : good = false := by simpa [hmatch] using hgood
        exact .refused hu hp hrx' hmatch (htake.trans (by simp [status]))
    · exact .inl ⟨_, .inl (hstep.trans (Standard.wrote_part hfull)),
        answer hu hp hpos hrx' (Nat.lt_of_le_of_ne hle hfull) hgood htake⟩

/-- One turn of the negotiation. -/
theorem step (h : Negotiating username password rx sent s) : Next username password rx sent s := by
  cases h with
  | reply hn hin hsent => exact step_reply hn hin hsent
  | readHead hpc hgot hlt hrx hsent => exact step_readHead hpc hgot hlt hrx hsent
  | readUser hpc hgot hlt hrx hsent => exact step_readUser hpc hgot hlt hrx hsent
  | readPass hpc hgot hlt hu hrx hsent => exact step_readPass hpc hgot hlt hu hrx hsent
  | check hu hp hpos hrx hsent => exact step_check hu hp hpos hrx hsent
  | answer hu hp hpos hrx hn hgood hsent => exact step_answer hu hp hpos hrx hn hgood hsent

end Negotiating

/-! ## The negotiation ends -/

/-- How many turns the next read or write is away. -/
def AuthPc.rank : AuthPc → Nat
  | .read => 0
  | .write => 1
  | .check => 2

namespace Standard

/-- How many bytes are still to be written. -/
def owed (a : Standard) : Nat :=
  match a.wbuf with
  | none => 2
  | some buf => buf.length - a.wpos + if a.cmpPass.isNone then 2 else 0

/-- The stream answers all that is still to be read and written. -/
def Supplied (s : AuthPc × Standard × Duplex) : Prop := s.2.2.Ends ∧ s.2.2.Roomy s.2.1.owed

/-- How far the negotiation is from its end. -/
def left (s : AuthPc × Standard × Duplex) : Nat :=
  3 * (s.2.2.reads.length + s.2.2.writes.length) + s.1.rank

/-- What a turn does that is not the last one. -/
abbrev Advances (s s' : AuthPc × Standard × Duplex) : Prop := Supplied s' ∧ left s' < left s

variable {a : Standard} {d d' : Duplex} {s s' : AuthPc × Standard × Duplex}

theorem supplied_iff (hw : a.wbuf = none) : Supplied (pc, a, d) ↔ d.Ends ∧ d.Roomy 2 := by
  simp only [Supplied, owed, hw]

/-- An answer counts more than the place in the loops. -/
theorem left_lt (h : s'.2.2.reads.length + s'.2.2.writes.length <
      s.2.2.reads.length + s.2.2.writes.length) : left s' < left s := by
  have hrank : s'.1.rank ≤ 2 := by cases s'.1 <;> simp [AuthPc.rank]
  simp only [left]
  omega

/-- Behind a write less is owed, and one answer is used up. -/
theorem wrote_advances (hbuf : a.wbuf = some buf) (hle : a.wpos + k ≤ buf.length)
    (hs : Supplied (.write, a, d)) (hends : d'.Ends) (hroom : ∀ n, d.Roomy (k + n) → d'.Roomy n)
    (hans : d'.reads.length + d'.writes.length < d.reads.length + d.writes.length)
    (hg : { a with wpos := a.wpos + k }.wrote buf d' = .again s') :
    Advances (.write, a, d) s' := by
  obtain ⟨-, hroomy⟩ := hs
  simp only [owed, hbuf] at hroomy
  unfold wrote at hg
  split at hg
  · next h =>
    cases hg
    refine ⟨(supplied_iff rfl).2 ⟨hends, hroom 2 ?_⟩, left_lt hans⟩
    have hfull : a.wpos + k = buf.length := h.1
    have hk : buf.length - a.wpos = k := by omega
    rwa [if_pos h.2.1, hk] at hroomy
  · split_ifs at hg
    cases hg
    refine ⟨⟨hends, ?_⟩, left_lt hans⟩
    simp only [owed, hbuf]
    refine hroom _ ?_
    have hk : buf.length - a.wpos = k + (buf.length - (a.wpos + k)) := by omega
    rwa [hk, Nat.add_assoc] at hroomy

theorem write_advances (hlt : ∀ buf, a.wbuf = some buf → a.wpos < buf.length)
    (hs : Supplied (.write, a, d)) (hg : Goes step (.write, a, d) s') :
    Advances (.write, a, d) s' := by
  simp only [Goes, step] at hg
  cases hbuf : a.wbuf with
  | none =>
    simp only [writeTurn, hbuf, Turn.again.injEq, reduceCtorEq, or_false] at hg
    subst hg
    exact ⟨hs, Nat.lt_succ_self _⟩
  | some buf =>
    rcases write_cases hbuf (hlt buf hbuf) (d := d) with
      ⟨d', hstep, htakes, hans, hd'⟩ | ⟨k, d', -, hle, hstep, htakes, hans, hd'⟩
    all_goals
      have hends : d'.Ends := by rw [hd']; exact hs.1
      have hreads : d'.reads = d.reads := by rw [hd']
    · simp only [hstep, Turn.pending.injEq, reduceCtorEq, false_or] at hg
      subst hg
      have hone : d.Roomy 1 := by
        have := hlt buf hbuf
        refine Nat.le_trans ?_ hs.2
        simp only [owed, hbuf]
        omega
      exact ⟨⟨hends, htakes.room _ (by simpa using hs.2)⟩,
        left_lt (by rw [hreads]; exact Nat.add_lt_add_left (hans hone) _)⟩
    · have hlen : ((buf.drop a.wpos).take k).length = k := by simp; omega
      rw [hstep] at hg
      refine wrote_advances hbuf hle hs hends (hlen ▸ htakes.room)
        (by rw [hreads]; exact Nat.add_lt_add_left hans _) ?_
      exact hg.resolve_right (by unfold wrote; split_ifs <;> simp)

/-- Behind a message, whatever it was, nothing was written and nothing is to be written yet. -/
theorem full_eq_again (hw : a.wbuf = none) (h : a.full buf d = .again s') :
    s'.2.1.wbuf = none ∧ s'.2.2 = d := by
  unfold full at h
  split_ifs at h
  · split at h
    · split_ifs at h
      cases h
      exact ⟨hw, rfl⟩
    · cases h
  · split at h
    · cases h
      exact ⟨hw, rfl⟩
    · cases h
  · cases h
    exact ⟨hw, rfl⟩

theorem full_ne_pending : a.full buf d ≠ .pending s' := by
  intro h
  unfold full at h
  split_ifs at h
  · split at h <;> [split_ifs at h; cases h]
  · split at h <;> cases h

theorem read_advances (hw : a.wbuf = none) (hbuf : a.rbuf = some buf) (hgot : Got got buf len)
    (hpos : a.rpos = got.length) (hs : Supplied (.read, a, d))
    (hg : Goes step (.read, a, d) s') : Advances (.read, a, d) s' := by
  obtain ⟨hends, hroomy⟩ := (supplied_iff hw).1 hs
  simp only [Goes, step] at hg
  rcases read_cases hbuf hgot hpos (d := d) with ⟨reads, hstep, hleft⟩ | ⟨-, d', hstep⟩ |
    ⟨data, rx, reads, buf', -, -, -, hleft, hfull, hpart⟩
  · obtain ⟨hends', hlt⟩ := hleft hends
    simp only [hstep, Turn.pending.injEq, reduceCtorEq, false_or] at hg
    subst hg
    exact ⟨(supplied_iff hw).2 ⟨hends', hroomy⟩, left_lt (Nat.add_lt_add_right hlt _)⟩
  · simp [hstep] at hg
  · obtain ⟨hends', hlt⟩ := hleft hends
    by_cases hlen : (got ++ data).length = len
    · rw [hfull hlen] at hg
      obtain ⟨pc', a', d''⟩ := s'
      obtain ⟨hw', rfl⟩ := full_eq_again (by exact hw) (hg.resolve_right full_ne_pending)
      exact ⟨(supplied_iff hw').2 ⟨hends', hroomy⟩, left_lt (Nat.add_lt_add_right hlt _)⟩
    · simp only [hpart hlen, Turn.again.injEq, reduceCtorEq, or_false] at hg
      subst hg
      refine ⟨(supplied_iff ?_).2 ⟨hends', hroomy⟩, left_lt (Nat.add_lt_add_right hlt _)⟩
      exact hw

theorem check_advances (hw : a.wbuf = none) (hs : Supplied (.check, a, d))
    (hg : Goes step (.check, a, d) s') : Advances (.check, a, d) s' := by
  obtain ⟨hends, hroomy⟩ := (supplied_iff hw).1 hs
  simp only [Goes, step, checkTurn] at hg
  split at hg
  · next hpass _ =>
    split_ifs at hg
    all_goals
      simp only [Turn.again.injEq, or_false] at hg
      subst hg
      exact ⟨⟨hends, by simpa [owed, hpass] using hroomy⟩, Nat.lt_succ_self _⟩
  · simp at hg

end Standard

/-- A turn of the negotiation uses an answer up, or the next read or write is nearer. -/
theorem Negotiating.advances (h : Negotiating username password rx sent s)
    (hs : Standard.Supplied s) (hg : Goes Standard.step s s') : Standard.Advances s s' := by
  cases h with
  | reply hn hin hsent =>
    refine Standard.write_advances ?_ hs hg
    rintro buf ⟨⟩
    exact hn
  | readHead hpc hgot | readUser hpc hgot | readPass hpc hgot =>
    rcases hpc with rfl | rfl
    · exact Standard.write_advances nofun hs hg
    · exact Standard.read_advances rfl rfl hgot rfl hs hg
  | check => exact Standard.check_advances rfl hs hg
  | answer hu hp hpos hrx hn =>
    refine Standard.write_advances ?_ hs hg
    rintro buf ⟨⟩
    exact hn

/-- A negotiation ends on a stream that has answers for all bytes of the client and its end, and for
the four bytes it is answered with. -/
theorem exists_negotiation (username password : Bytes) {d : Duplex} (hends : d.Ends)
    (hroom : d.Roomy 4) :
    ∃ t r, Drives Standard.step (.write, Standard.fresh username password 0, d) t r := by
  refine exists_drives
    (I := fun s => Negotiating username password d.incoming d.sent s ∧ Standard.Supplied s)
    Standard.left (fun s ⟨h, hs⟩ => ?_) ⟨.reply Nat.two_pos rfl (by simp), hends, hroom⟩
  rcases h.step with ⟨s', hg, h'⟩ | ⟨s', r, hready, -⟩
  · obtain ⟨hs', hlt⟩ := h.advances hs hg
    exact .inl ⟨s', hg, ⟨h', hs'⟩, hlt⟩
  · exact .inr ⟨s', r, hready⟩

/-- How a negotiation ends, whatever the schedule. -/
theorem negotiates {d : Duplex} (H : Drives Standard.step
    (.write, Standard.fresh username password 0, d) t r) :
    Negotiated username password d.incoming d.sent t.2.2 r :=
  H.post (I := Negotiating username password d.incoming d.sent)
    (Q := fun t r => Negotiated username password d.incoming d.sent t.2.2 r)
    (fun _ hs => hs.step) (.reply Nat.two_pos rfl (by simp))

end Fuso

import Fuso.Socks.Authentication
import Fuso.Socks.Request

/-!
# What a handshake takes from its stream

`Request` are the bytes a client sends as RFC 1928 and RFC 1929 have them, greeting, credentials and
request; no such string continues another one (`Front.inj`). `consumed_fields` says what a handshake
that resolves to a socket has taken, and `ends_request_iff` when that is a request: the octets 255
in front of a name must not have been taken for lengths, or must add up (`Aligned`).
-/

namespace Fuso.Socks5
open Turn

/-! ## The bytes of a client -/

/-- What the client sends when it is asked for a password, or is not. -/
def Login (password : Bool) (login : Bytes) : Prop :=
  if password then
    ∃ u user p pass, login = credentials u user p pass ∧ user.length = u.toNat ∧
      pass.length = p.toNat
  else login = []

/-- What comes in front of the address: the greeting, the credentials and four bytes of the
request. -/
def Front (password : Bool) (atype : UInt8) (front : Bytes) : Prop :=
  ∃ (nmethod : UInt8) (methods login : Bytes) (cmd rsv : UInt8), methods.length = nmethod.toNat ∧
    Login password login ∧ front = [0x05, nmethod] ++ methods ++ login ++ [0x05, cmd, rsv, atype]

/-- The address and the port. -/
inductive AddressFields : UInt8 → Bytes → Prop where
  | v4 : addr.length = 6 → AddressFields 0x01 addr
  | v6 : addr.length = 18 → AddressFields 0x04 addr
  | domain (len : UInt8) : addr.length = len.toNat + 2 → AddressFields 0x03 (len :: addr)

/-- Everything a client sends up to the last byte of its request. -/
def Request (password : Bool) (request : Bytes) : Prop :=
  ∃ atype front addr, Front password atype front ∧ AddressFields atype addr ∧
    request = front ++ addr

theorem Login.inj (h : Login password login) (h' : Login password login')
    (heq : login ++ rest = login' ++ rest') : login = login' ∧ rest = rest' := by
  cases password with
  | false =>
    simp only [Login, Bool.false_eq_true, if_false] at h h'
    subst h h'
    exact ⟨rfl, heq⟩
  | true =>
    simp only [Login, if_true] at h h'
    obtain ⟨u, user, p, pass, rfl, hu, hp⟩ := h
    obtain ⟨u', user', p', pass', rfl, hu', hp'⟩ := h'
    obtain ⟨rfl, rfl, rfl⟩ := credentials_inj hu hp hu' hp' heq
    obtain rfl : u = u' := UInt8.toNat.inj (hu.symm.trans hu')
    obtain rfl : p = p' := UInt8.toNat.inj (hp.symm.trans hp')
    exact ⟨rfl, rfl⟩

/-- The bytes in front of the address end where they say. -/
theorem Front.inj (h : Front password atype front) (h' : Front password atype' front')
    (heq : front ++ rest = front' ++ rest') :
    atype = atype' ∧ front = front' ∧ rest = rest' := by
  obtain ⟨nm, methods, login, cmd, rsv, hnm, hl, rfl⟩ := h
  obtain ⟨nm', methods', login', cmd', rsv', hnm', hl', rfl⟩ := h'
  simp only [List.append_assoc, List.cons_append, List.nil_append, List.cons.injEq, true_and] at heq
  obtain ⟨rfl, hmethods⟩ := heq
  obtain ⟨rfl, hlogin⟩ := List.append_inj hmethods (hnm.trans hnm'.symm)
  obtain ⟨rfl, heq⟩ := hl.inj hl' hlogin
  simp only [List.cons.injEq, true_and] at heq
  obtain ⟨rfl, rfl, rfl, rfl⟩ := heq
  exact ⟨rfl, rfl, rfl⟩

/-! ## What the parser takes -/

/-- The bytes that are taken for the address and the port: octets 255 in front of the length of a
name are taken for lengths too. -/
inductive TakenFields : UInt8 → Bytes → Prop where
  | v4 : addr.length = 6 → TakenFields 0x01 addr
  | v6 : addr.length = 18 → TakenFields 0x04 addr
  | domain (k : Nat) (len : UInt8) : len.toNat < 254 → addr.length = len.toNat + 2 →
    TakenFields 0x03 (.replicate k 255 ++ len :: addr)

theorem Conforms.rest_eq (h : Conforms p rx cuts out rest) (hne : out ≠ reset) : p.rest = rest := by
  unfold Conforms at h
  split at h
  · exact h.2.symm
  · exact absurd h.1 hne

theorem Parsed.message_rest {k : Bytes → Bytes → Parsed} (h : (Parsed.message len rx k).out = x)
    (hne : x ≠ reset) :
    (Parsed.message len rx k).rest = (k (rx.take len) (rx.drop len)).rest := by
  subst h
  revert hne
  unfold Parsed.message Parsed.count
  split
  · next h0 => simp [h0]
  · split
    · simp [Parsed.eof, Parsed.done]
    · split
      · simp [Parsed.eof, Parsed.done]
      · exact fun _ => rfl

theorem addTwo_some (h : addTwo oc b = some len) :
    b.toNat < 254 ∧ len.toNat = b.toNat + 2 ∨ b = 254 ∧ len = 0 ∨ b = 255 ∧ len = 1 := by
  have hlt := b.toNat_lt
  unfold addTwo at h
  split at h
  · cases h
  · obtain rfl : b + 2 = len := Option.some.inj h
    rcases Nat.lt_or_ge b.toNat 254 with hb | hb
    · exact .inl ⟨hb, by rw [UInt8.toNat_add, Nat.mod_eq_of_lt (by simp; omega)]; rfl⟩
    · obtain hb | hb : b.toNat = 254 ∨ b.toNat = 255 := by omega
      · obtain rfl : b = 254 := UInt8.toNat.inj hb
        exact .inr (.inl ⟨rfl, rfl⟩)
      · obtain rfl : b = 255 := UInt8.toNat.inj hb
        exact .inr (.inr ⟨rfl, rfl⟩)

theorem parseDomain_taken (h : (parseDomain oc cmd rsv rx).out = .ret (.ok socket)) :
    ∃ addr, TakenFields 0x03 addr ∧ rx = addr ++ (parseDomain oc cmd rsv rx).rest := by
  induction rx with
  | nil => exact nomatch h
  | cons b rx ih =>
    rw [parseDomain_eq] at h ⊢
    have hrest := Parsed.message_rest h (by simp)
    have h₁ := (Parsed.message_out h (by simp)).2
    rw [hrest]
    simp only [List.take_succ_cons, List.take_zero, List.drop_succ_cons, List.drop_zero] at h₁ ⊢
    cases hadd : addTwo oc b with
    | none =>
      simp only [hadd] at h₁
      exact nomatch h₁
    | some len =>
      simp only [hadd] at h₁ ⊢
      obtain ⟨hb, hlen⟩ | ⟨rfl, rfl⟩ | ⟨rfl, rfl⟩ := addTwo_some hadd
      · have hne : len ≠ 1 := by
          rintro rfl
          simp at hlen
        rw [if_neg hne] at h₁ ⊢
        rw [Parsed.message_rest h₁ (by simp)]
        obtain ⟨hle, -⟩ := Parsed.message_out h₁ (by simp)
        refine ⟨b :: rx.take len.toNat, .domain 0 b hb (by simp; omega), ?_⟩
        simp [parseAddressMessage, Parsed.done]
      · simp only [show (0 : UInt8) ≠ 1 by decide, if_false] at h₁
        obtain ⟨-, h₂⟩ := Parsed.message_out h₁ (by simp)
        have hport := parseAddress_domain (show parseAddress cmd rsv 0x03 (rx.take 0) = _ from h₂)
        exact absurd hport.1 (by simp)
      · simp only [if_true] at h₁ ⊢
        obtain ⟨addr, htaken, heq⟩ := ih h₁
        cases htaken with
        | domain k len hlen haddr =>
          refine ⟨_, .domain (k + 1) len hlen haddr, ?_⟩
          rw [List.replicate_succ, List.cons_append, List.cons_append, ← heq]

theorem parseRequest_taken (h : (parseRequest oc rx).out = .ret (.ok socket)) :
    ∃ cmd rsv atype addr, TakenFields atype addr ∧
      rx = [0x05, cmd, rsv, atype] ++ (addr ++ (parseRequest oc rx).rest) := by
  have hrest : (parseRequest oc rx).rest = _ := Parsed.message_rest h (by simp)
  obtain ⟨hlen, h₁⟩ := Parsed.message_out h (by simp)
  rw [hrest]
  obtain ⟨ver, cmd, rsv, atype, rx, rfl⟩ := exists_four hlen
  simp only [List.take_succ_cons, List.take_zero, List.drop_succ_cons, List.drop_zero,
    parseRequestHead] at h₁ ⊢
  by_cases hver : ver ≠ 0x05
  · rw [if_pos hver] at h₁
    cases h₁
  · rw [if_neg hver] at h₁ ⊢
    obtain rfl : ver = 0x05 := by simpa using hver
    cases hat : atypeLen atype with
    | none =>
      simp only [hat] at h₁
      cases h₁
    | some len =>
      simp only [hat] at h₁ ⊢
      refine ⟨cmd, rsv, atype, ?_⟩
      obtain ⟨rfl, rfl⟩ | ⟨rfl, rfl⟩ | ⟨rfl, rfl⟩ := atypeLen_eq hat
      · simp only [show (0x01 : UInt8) ≠ 0x03 by decide, if_false] at h₁ ⊢
        rw [Parsed.message_rest h₁ (by simp)]
        have hle := (Parsed.message_out h₁ (by simp)).1
        exact ⟨rx.take 6, .v4 (by simpa using hle), by simp [parseAddressMessage, Parsed.done]⟩
      · simp only [if_true] at h₁ ⊢
        obtain ⟨addr, htaken, heq⟩ := parseDomain_taken h₁
        exact ⟨addr, htaken, by rw [← heq]; rfl⟩
      · simp only [show (0x04 : UInt8) ≠ 0x03 by decide, if_false] at h₁ ⊢
        rw [Parsed.message_rest h₁ (by simp)]
        have hle := (Parsed.message_out h₁ (by simp)).1
        exact ⟨rx.take 18, .v6 (by simpa using hle), by simp [parseAddressMessage, Parsed.done]⟩

/-! ## What a handshake takes -/

theorem consumed_skip {d : Duplex} {t : Pc × Socks5 Duplex}
    (H : Drives (step oc) (.select, new .newSkip d) t (.ret (.ok socket))) :
    ∃ nmethod methods tail cuts, methods.length = UInt8.toNat nmethod ∧
      d.incoming = [0x05, nmethod] ++ methods ++ tail ∧
      Conforms (parseRequest oc tail) tail cuts (.ret (.ok socket)) t.2.stream.incoming := by
  obtain ⟨nm, methods, rest, m, hin, hnm, hst, hauth, hw, hrest, H₁⟩ := drives_greeting (by simp) H
  rcases Skipping.drives oc .write ⟨hst, hauth, Nat.two_pos⟩ with
    ⟨auth, writes, sent, hiff, -, -⟩ | ⟨hno, -⟩
  · have hconf :=
      conforms_request (m := { m with auth, stream := { m.stream with writes, sent } }) hw
      ((hiff _ _).1 H₁)
    exact ⟨nm, methods, rest, _, hnm, hin, hrest ▸ hconf⟩
  · exact absurd H₁ (hno _ _)

/-- The negotiations that a handshake starts with, and whether they ask for a password. -/
inductive Fresh : S5Authenticate → Bool → Prop where
  | skip : Fresh .newSkip false
  | standard (username password : Bytes) : Fresh (.newStandard username password) true

/-- A handshake that resolves to a socket has taken a greeting, the credentials it asked for, the
head of a request, and what it takes for an address. -/
theorem consumed_fields {d : Duplex} {t : Pc × Socks5 Duplex} (ha : Fresh a password)
    (H : Drives (step oc) (.select, new a d) t (.ret (.ok socket))) :
    ∃ atype front addr, Front password atype front ∧ TakenFields atype addr ∧
      d.incoming = front ++ (addr ++ t.2.stream.incoming) := by
  obtain ⟨nm, methods, login, tail, cuts, hnm, hlogin, hin, hconf⟩ :
      ∃ nmethod methods login tail cuts, methods.length = UInt8.toNat nmethod ∧
        Login password login ∧ d.incoming = [0x05, nmethod] ++ methods ++ (login ++ tail) ∧
        Conforms (parseRequest oc tail) tail cuts (.ret (.ok socket)) t.2.stream.incoming := by
    cases ha with
    | skip =>
      obtain ⟨nm, methods, tail, cuts, hnm, hin, hconf⟩ := consumed_skip H
      exact ⟨nm, methods, [], tail, cuts, hnm, rfl, hin, hconf⟩
    | standard username password =>
      obtain ⟨nm, methods, u, p, tail, cuts, hnm, hu, hp, hin, hconf⟩ :=
        authenticated_of_drives (by simp) H
      exact ⟨nm, methods, _, tail, cuts, hnm, ⟨u, username, p, password, rfl, hu, hp⟩, hin, hconf⟩
  obtain ⟨cmd, rsv, atype, addr, htaken, htail⟩ := parseRequest_taken (hconf.out_eq (by simp))
  rw [hconf.rest_eq (by simp)] at htail
  refine ⟨atype, _, addr, ⟨nm, methods, login, cmd, rsv, hnm, hlogin, rfl⟩, htaken, ?_⟩
  rw [hin, htail]
  simp only [List.append_assoc]

/-! ## Where a request ends -/

/-- In a request for a name, the octets 255 in front of what is taken for the length of the name add
up with it to the length of the name, or there are none. -/
def Aligned (password : Bool) (rx : Bytes) : Prop :=
  ∀ front k len rest, Front password 0x03 front →
    rx = front ++ (.replicate k 255 ++ len :: rest) → len ≠ 255 → k = 0 ∨ k + len.toNat = 255

theorem replicate_append_inj {k k' : Nat} {b b' : UInt8} (hb : b ≠ 255) (hb' : b' ≠ 255)
    (h : List.replicate k 255 ++ b :: rest = List.replicate k' 255 ++ b' :: rest') :
    k = k' ∧ b = b' := by
  induction k generalizing k' with
  | zero =>
    cases k' with
    | zero => exact ⟨rfl, (List.cons.inj h).1⟩
    | succ k' => exact absurd (List.cons.inj h).1 hb
  | succ k ih =>
    cases k' with
    | zero => exact absurd (List.cons.inj h).1.symm hb'
    | succ k' =>
      obtain ⟨rfl, rfl⟩ := ih (List.cons.inj h).2
      exact ⟨rfl, rfl⟩

theorem aligned_of_ne (hfront : Front password 0x03 front) (hrx : rx = front ++ len :: rest)
    (hne : len ≠ 255) : Aligned password rx := by
  intro front' k len' rest' hfront' heq hne'
  obtain ⟨-, -, h⟩ := hfront.inj hfront' (hrx.symm.trans heq)
  exact .inl (replicate_append_inj (k := 0) hne hne' h).1.symm

/-- What is taken ends where a request ends exactly when the request is aligned. -/
theorem ends_request_iff (hfront : Front password atype front) (htaken : TakenFields atype addr)
    (hrx : rx = front ++ (addr ++ rest)) :
    (∃ request, Request password request ∧ rx = request ++ rest) ↔ Aligned password rx := by
  have whole (h : AddressFields atype addr) : ∃ request, Request password request ∧
      rx = request ++ rest :=
    ⟨front ++ addr, ⟨atype, front, addr, hfront, h, rfl⟩, by rw [hrx, List.append_assoc]⟩
  have other (hne : atype ≠ 0x03) : Aligned password rx := by
    intro front' k len rest' hfront' heq _
    exact absurd (hfront.inj hfront' (hrx.symm.trans heq)).1 hne
  cases htaken with
  | v4 hlen => exact ⟨fun _ => other (by decide), fun _ => whole (.v4 hlen)⟩
  | v6 hlen => exact ⟨fun _ => other (by decide), fun _ => whole (.v6 hlen)⟩
  | @domain addr k len hlt hlen =>
    have hne : len ≠ 255 := by
      rintro rfl
      simp at hlt
    constructor
    · rintro ⟨request, ⟨atype', front', addr', hfront', haddr', rfl⟩, heq⟩
      obtain ⟨rfl, rfl, heq'⟩ := hfront.inj hfront' (by rw [← hrx, heq, List.append_assoc])
      obtain rfl := List.append_cancel_right heq'
      have hk : k = 0 ∨ k + len.toNat = 255 := by
        cases k with
        | zero => exact .inl rfl
        | succ k =>
          generalize hfields : List.replicate (k + 1) 255 ++ len :: addr = fields at haddr'
          cases haddr' with
          | @domain addr' len' hlen' =>
            simp only [List.replicate_succ, List.cons_append, List.cons.injEq] at hfields
            obtain ⟨rfl, hfields⟩ := hfields
            have := congrArg List.length hfields
            simp [hlen, hlen'] at this
            omega
      intro front₁ k₁ len₁ rest₁ hfront₁ heq₁ hne₁
      obtain ⟨-, -, heq₁⟩ := hfront.inj hfront₁ (hrx.symm.trans heq₁)
      rw [List.append_assoc, List.cons_append] at heq₁
      obtain ⟨rfl, rfl⟩ := replicate_append_inj hne hne₁ heq₁
      exact hk
    · intro haligned
      refine whole ?_
      rcases haligned front k len (addr ++ rest) hfront (by rw [hrx]; simp) hne with rfl | hk
      · exact .domain len hlen
      · cases k with
        | zero => exact .domain len hlen
        | succ k =>
          rw [List.replicate_succ, List.cons_append]
          exact .domain 255 (by simp [hlen]; omega)

end Fuso.Socks5

import Fuso.Socks.Parse

/-!
# Runs of the handshake conform to the parser

From the last message back to the first: the reply (`Finishing`), the address, the domain, the
request (`conforms_request`), the reply of `Skip` and the greeting (`conforms_parse`).
-/

namespace Fuso.Socks5
open Turn

variable {m : Socks5 Duplex}

/-! ## The reply -/

/-- The request was taken and what is left is to write the reply, from its first byte on. -/
structure Finishing (socket : Socket) (rx : Bytes) (s : Pc × Socks5 Duplex) : Prop where
  state : s.2.state = .success (some socket)
  readBuf : s.2.readBuf = []
  writeOffset : s.2.writeBuf ≠ [] → s.2.writeOffset = 0
  incoming : s.2.stream.incoming = rx
  pc : s.1 = .select ∨ s.1 = .write ∨ s.1 = .read

/-- One of the answers to come takes the whole reply. -/
def Taken (s : Pc × Socks5 Duplex) : Prop :=
  s.2.writeBuf = [] ∨ ∃ n ∈ sizes s.2.stream.writes, s.2.writeBuf.length ≤ n

/-- How many turns of the loops the next turn of the write loop is away. -/
def Pc.rank : Pc → Nat
  | .read => 2
  | .select => 1
  | _ => 0

/-- How far the reply is from being written. -/
def left (s : Pc × Socks5 Duplex) : Nat :=
  if s.2.writeBuf = [] then (if s.1 = .write then 3 else s.1.rank)
  else 3 * s.2.stream.writes.length + s.1.rank

/-- A turn of the write loop with a reply to write. -/
theorem Finishing.write (h : Finishing socket rx (.write, m)) (hne : m.writeBuf ≠ []) :
    ∃ s', Goes (Socks5.step oc) (.write, m) s' ∧ Finishing socket rx s' ∧
      (Taken s' ↔ Taken (.write, m)) ∧ (Taken (.write, m) → left s' < left (.write, m)) := by
  obtain ⟨hst, hrb, hwo, hin, -⟩ := h
  dsimp only at hst hrb hwo hin
  have hempty : m.writeBuf.isEmpty = false := by simpa using hne
  cases hws : m.stream.writes with
  | nil =>
    have hstep : Socks5.step oc (.write, m) = .pending (.select, m) := by
      simp only [Socks5.step, writeTurn, hempty, Bool.false_eq_true, if_false,
        Duplex.pollWrite_nil hws]
    refine ⟨_, .inr hstep, ⟨hst, hrb, hwo, hin, by simp⟩, .rfl, ?_⟩
    rintro (h | ⟨n, hn, -⟩)
    · exact absurd h hne
    · simp [hws, sizes] at hn
  | cons a writes =>
    cases a with
    | pending =>
      have hstep : Socks5.step oc (.write, m) =
          .pending (.select, { m with stream := { m.stream with writes } }) := by
        simp only [Socks5.step, writeTurn, hempty, Bool.false_eq_true, if_false,
          Duplex.pollWrite_pending hws]
      refine ⟨_, .inr hstep, ⟨hst, hrb, hwo, hin, by simp⟩, ?_, fun _ => ?_⟩
      · simp [Taken, hws, sizes]
      · simp only [left, if_neg hne, hws, List.length_cons, Pc.rank]
        omega
    | upTo n =>
      let stream := { m.stream with
        sent := m.stream.sent ++ m.writeBuf.take (min (n + 1) m.writeBuf.length), writes }
      have h0 : min (n + 1) m.writeBuf.length ≠ 0 := by
        have := List.length_pos_iff.2 hne
        omega
      have hstep : Socks5.step oc (.write, m) =
          if min (n + 1) m.writeBuf.length = m.writeBuf.length then
            .again (.read, { m with stream, writeOffset := 0, writeBuf := [] })
          else .again (.write, { m with stream }) := by
        simp only [Socks5.step, writeTurn, hempty, Bool.false_eq_true, if_false, hwo hne,
          List.drop_zero, Duplex.pollWrite_upTo hws, if_neg h0]
        rfl
      split at hstep
      · next hfull =>
        have htaken : Taken (.write, m) := .inr ⟨n + 1, by simp [hws, sizes], by dsimp only; omega⟩
        refine ⟨_, .inl hstep, ⟨hst, hrb, fun _ => rfl, hin, by simp⟩,
          ⟨fun _ => htaken, fun _ => .inl rfl⟩, fun _ => ?_⟩
        simp only [left, if_neg hne, hws, List.length_cons, if_true, reduceCtorEq, if_false,
          Pc.rank]
        omega
      · next hpart =>
        have hlt : ¬m.writeBuf.length ≤ n + 1 := by omega
        refine ⟨_, .inl hstep, ⟨hst, hrb, hwo, hin, by simp⟩, ?_, fun _ => ?_⟩
        · simp [Taken, hws, sizes, hne, hlt, stream]
        · simp only [left, if_neg hne, hws, List.length_cons]
          simp [stream]

theorem Finishing.step (h : Finishing socket rx s) :
    (∃ s', Goes (step oc) s s' ∧ Finishing socket rx s' ∧ (Taken s' ↔ Taken s) ∧
      (Taken s → left s' < left s)) ∨
    Taken s ∧ ∃ s', step oc s = .ready s' (.ret (.ok socket)) ∧ s'.2.stream.incoming = rx := by
  obtain ⟨pc, m⟩ := s
  obtain ⟨hst, hrb, hwo, hin, hpc⟩ := id h
  dsimp only at hst hrb hwo hin hpc
  obtain rfl | rfl | rfl := hpc
  · cases hw : m.writeBuf with
    | nil =>
      refine .inr ⟨.inl hw, (.select, { m with state := .success none }), ?_, hin⟩
      simp [Socks5.step, select, hst, hw]
    | cons b bs =>
      refine .inl ⟨(.write, m), .inl (by simp [Socks5.step, select, hst, hw]),
        ⟨hst, hrb, hwo, hin, by simp⟩, .rfl, fun _ => by simp [left, hw, Pc.rank]⟩
  · by_cases hw : m.writeBuf = []
    · exact .inl ⟨(.read, m), .inl (by simp [Socks5.step, writeTurn, hw]),
        ⟨hst, hrb, hwo, hin, by simp⟩, .rfl, fun _ => by simp [left, hw, Pc.rank]⟩
    · exact .inl (h.write hw)
  · refine .inl ⟨(.select, m), .inl (by simp [Socks5.step, readTurn, hrb]),
      ⟨hst, hrb, hwo, hin, by simp⟩, .rfl, fun _ => ?_⟩
    unfold left
    split <;> simp [Pc.rank]

theorem Finishing.drives (h : Finishing socket rx s) (H : Drives (Socks5.step oc) s t r) :
    r = .ret (.ok socket) ∧ t.2.stream.incoming = rx :=
  H.post (I := Finishing socket rx) (Q := fun t r => r = .ret (.ok socket) ∧
    t.2.stream.incoming = rx)
    (fun _ hs => hs.step.imp (fun ⟨s', hg, hs', _⟩ => ⟨s', hg, hs'⟩)
      fun ⟨_, s', hr, hin⟩ => ⟨s', _, hr, rfl, hin⟩) h

/-- The handshake ends exactly when its reply is taken. -/
theorem Finishing.resolves_iff (oc : Bool) (h : Finishing socket rx s) :
    (∃ t, Drives (Socks5.step oc) s t (.ret (.ok socket)) ∧ t.2.stream.incoming = rx) ↔
      Taken s := by
  constructor
  · rintro ⟨t, H, -⟩
    by_contra ht
    refine H.post (I := fun s => Finishing socket rx s ∧ ¬Taken s) (Q := fun _ _ => False) ?_
      ⟨h, ht⟩
    rintro s ⟨hs, hts⟩
    obtain ⟨s', hg, hs', hiff, -⟩ | ⟨hts', -⟩ := hs.step
    · exact .inl ⟨s', hg, hs', mt hiff.1 hts⟩
    · exact absurd hts' hts
  · intro ht
    obtain ⟨t, r, H⟩ : ∃ t r, Drives (Socks5.step oc) s t r := exists_drives
      (I := fun s => Finishing socket rx s ∧ Taken s) left
      (fun s ⟨hs, hts⟩ => hs.step.imp
        (fun ⟨s', hg, hs', hiff, hlt⟩ => ⟨s', hg, ⟨hs', hiff.2 hts⟩, hlt hts⟩)
        (fun ⟨_, s', hr, _⟩ => ⟨s', _, hr⟩)) ⟨h, ht⟩
    obtain ⟨rfl, hin⟩ := h.drives H
    exact ⟨t, H, hin⟩

/-! ## The request -/

theorem conforms_address (hst : m.state = .request 0x05 cmd rsv atype m.readOffset)
    (hne : atype ≠ 0) (hdom : atype = 0x03 → m.readOffset ≠ 1)
    (H : Drives (Socks5.step oc) (.select, m) t r) :
    Conforms (parseAddressMessage cmd rsv atype m.readBuf m.stream.incoming) m.stream.incoming
      (sizes m.stream.reads) r t.2.stream.incoming := by
  have hstep : Socks5.step oc (.select, m) = m.onAddress cmd rsv atype := by
    simp only [Socks5.step, select, hst]
    rw [if_neg (by tauto), if_neg (by tauto), if_pos (by simp)]
  unfold onAddress at hstep
  suffices h : r = parseAddress cmd rsv atype m.readBuf ∧
      t.2.stream.incoming = m.stream.incoming from h.1 ▸ h.2 ▸ .done
  split at hstep
  · next socket hparse =>
    rw [hparse]
    split at hstep
    · exact Finishing.drives ⟨rfl, rfl, by simp, rfl, by simp⟩
        ((drives_iff_of_goes (.inl hstep)).1 H)
    · exact Finishing.drives ⟨rfl, rfl, by simp, rfl, by simp⟩
        ((drives_iff_of_goes (.inl hstep)).1 H)
  all_goals
    next hparse =>
    obtain ⟨rfl, rfl⟩ := (drives_iff_of_ready hstep).1 H
    exact ⟨hparse.symm, rfl⟩

/-- The address message, which is empty when the length of the domain wraps to 0. -/
theorem conforms_addressMessage (hw : m.writeBuf = []) (hne : atype ≠ 0)
    (hdom : atype = 0x03 → len ≠ 1)
    (H : Drives (Socks5.step oc) (.write, m.expect (.request 0x05 cmd rsv atype len) len) t r) :
    Conforms (.message len m.stream.incoming (parseAddressMessage cmd rsv atype)) m.stream.incoming
      (sizes m.stream.reads) r t.2.stream.incoming := by
  refine .expect hw asks_request (fun _ _ => .done (parseAddress_ne_reset _ _ _ _))
    (fun reads _ H₁ => ?_) H
  let m₁ := received (m.expect (.request 0x05 cmd rsv atype len) len) reads
  have hst : m₁.state = .request 0x05 cmd rsv atype m₁.readOffset := by
    simp [m₁, received, expect]
  have h := conforms_address (m := m₁) hst hne (by simpa [m₁, received, expect] using hdom) H₁
  simpa [m₁, received, expect] using h

theorem parseDomain_eq (oc : Bool) (cmd rsv : UInt8) (rx : Bytes) :
    parseDomain oc cmd rsv rx = .message 1 rx fun data rest =>
      match data with
      | [] => .done .panic rest
      | b :: _ =>
        match addTwo oc b with
        | none => .done .panic rest
        | some len =>
          if len = 1 then parseDomain oc cmd rsv rest
          else .message len.toNat rest (parseAddressMessage cmd rsv 0x03) := by
  cases rx with
  | nil => simp [parseDomain, Parsed.message]
  | cons b rest =>
    simp only [parseDomain, Parsed.message, List.length_cons, List.take_succ_cons, List.take_zero,
      List.drop_succ_cons, List.drop_zero, Nat.one_ne_zero, if_false]
    have hlt : ¬ rest.length + 1 < 1 := by omega
    cases addTwo oc b <;> exact (if_neg hlt).symm

theorem conforms_domain (hw : m.writeBuf = [])
    (H : Drives (Socks5.step oc) (.write, m.expect (.request 0x05 cmd rsv 0x03 1) 1) t r) :
    Conforms (parseDomain oc cmd rsv m.stream.incoming) m.stream.incoming (sizes m.stream.reads) r
      t.2.stream.incoming := by
  generalize hrx : m.stream.incoming = rx
  induction rx generalizing m with
  | nil =>
    obtain ⟨n, reads, -, hH⟩ := drives_message (awaits_expect hw asks_request Nat.one_pos) rfl H
    rw [if_neg (by simp [expect, hrx])] at hH
    obtain ⟨rfl, hin⟩ := hH
    rw [hin]
    simp only [expect, hrx, List.drop_nil]
    exact .eof
  | cons b rest ih =>
    rw [← hrx, parseDomain_eq]
    refine .expect hw asks_request ?_ ?_ H
    · intro data rest
      split
      · exact .done (by simp)
      · split
        · exact .done (by simp)
        · split
          · exact fits_parseDomain
          · exact .message fun _ _ => .done (parseAddress_ne_reset _ _ _ _)
    · intro reads _ H₁
      let m₁ := received (m.expect (.request 0x05 cmd rsv 0x03 1) 1) reads
      have hstep : Socks5.step oc (.select, m₁) = m₁.onDomain oc cmd rsv := by
        simp [m₁, Socks5.step, select, received, expect]
      have hbuf : m₁.readBuf = [b] := by simp [m₁, received, expect, hrx]
      simp only [onDomain, hbuf] at hstep
      simp only [hrx, List.take_succ_cons, List.take_zero, List.drop_succ_cons, List.drop_zero]
      have hin : m₁.stream.incoming = rest := by simp [m₁, received, expect, hrx]
      cases hlen : addTwo oc b with
      | none =>
        simp only [hlen] at hstep
        obtain ⟨rfl, rfl⟩ := (drives_iff_of_ready hstep).1 H₁
        rw [hin]
        exact .done
      | some len =>
        simp only [hlen] at hstep
        have H₂ := (drives_iff_of_goes (.inl hstep)).1 H₁
        dsimp only
        by_cases h1 : len = 1
        · subst h1
          rw [if_pos rfl]
          exact ih (m := m₁) hw H₂ hin
        · have h1' : len.toNat ≠ 1 := fun h => h1 (UInt8.toNat.inj h)
          rw [if_neg h1]
          exact hin ▸ conforms_addressMessage hw (by simp) (fun _ => h1') H₂

theorem atypeLen_eq {atype : UInt8} (h : atypeLen atype = some len) :
    atype = 0x01 ∧ len = 6 ∨ atype = 0x03 ∧ len = 1 ∨ atype = 0x04 ∧ len = 18 := by
  unfold atypeLen at h
  split_ifs at h <;> simp_all

theorem conforms_request (hw : m.writeBuf = [])
    (H : Drives (Socks5.step oc) (.write, m.expect (.request 0x05 0 0 0 4) 4) t r) :
    Conforms (parseRequest oc m.stream.incoming) m.stream.incoming (sizes m.stream.reads) r
      t.2.stream.incoming := by
  refine .expect hw asks_request (fun _ _ => fits_requestHead) ?_ H
  intro reads hlen H₁
  let m₁ := received (m.expect (.request 0x05 0 0 0 4) 4) reads
  have hstep : Socks5.step oc (.select, m₁) = m₁.onRequest := by
    simp [m₁, Socks5.step, select, received, expect]
  obtain ⟨ver, cmd, rsv, atype, hdata⟩ :
      ∃ ver cmd rsv atype, m₁.readBuf = [ver, cmd, rsv, atype] := by
    have : m₁.readBuf.length = 4 := by simpa [m₁, received, expect] using hlen
    obtain ⟨ver, cmd, rsv, atype, rest, hbuf⟩ := exists_four (Nat.le_of_eq this.symm)
    obtain rfl : rest = [] := by simpa [hbuf] using this
    exact ⟨ver, cmd, rsv, atype, hbuf⟩
  simp only [onRequest, hdata] at hstep
  have hrx : m.stream.incoming.take 4 = m₁.readBuf := rfl
  rw [hrx]
  simp only [parseRequestHead, hdata]
  split at hstep
  · next hver =>
    obtain ⟨rfl, rfl⟩ := (drives_iff_of_ready hstep).1 H₁
    rw [if_pos hver]
    exact .done
  · next hver =>
    rw [if_neg hver]
    cases hat : atypeLen atype with
    | none =>
      simp only [hat] at hstep
      obtain ⟨rfl, rfl⟩ := (drives_iff_of_ready hstep).1 H₁
      exact .done
    | some len =>
      simp only [hat] at hstep
      have H₂ := (drives_iff_of_goes (.inl hstep)).1 H₁
      dsimp only
      obtain ⟨rfl, rfl⟩ | ⟨rfl, rfl⟩ | ⟨rfl, rfl⟩ := atypeLen_eq hat
      · exact conforms_addressMessage (m := m₁) hw (by decide) (by decide) H₂
      · exact conforms_domain (m := m₁) hw H₂
      · exact conforms_addressMessage (m := m₁) hw (by decide) (by decide) H₂

/-! ## The reply of `Skip` -/

/-- The handshake is in `poll_auth` with `Skip` and has written `offset` bytes of the reply. -/
structure Skipping (offset : Nat) (m : Socks5 Duplex) : Prop where
  state : m.state = .authentication m.readOffset
  auth : m.auth = .skip [0x05, 0x00] offset
  lt : offset < 2

theorem Skipping.select (h : Skipping off m) :
    Socks5.step oc (.select, m) = .again (.auth .write, m) := by
  simp [Socks5.step, Socks5.select, h.state]

theorem Skipping.write_nil (h : Skipping off m) (hw : m.stream.writes = []) :
    Socks5.step oc (.auth pc, m) = .pending (.select, m) := by
  simp only [Socks5.step, authTurn, h.auth, S5Authenticate.pollAuth, skipTurn,
    Duplex.pollWrite_nil hw, Turn.map]
  rw [← h.auth]

theorem Skipping.write_pending (h : Skipping off m) (hw : m.stream.writes = .pending :: writes) :
    Socks5.step oc (.auth pc, m) =
      .pending (.select, { m with stream := { m.stream with writes } }) := by
  simp only [Socks5.step, authTurn, h.auth, S5Authenticate.pollAuth, skipTurn,
    Duplex.pollWrite_pending hw, Turn.map]

/-- The handshake behind a write of `n` bytes of the reply of `Skip`. -/
def behindSkip (m : Socks5 Duplex) (offset : Nat) (writes : List Answer) (data : Bytes) :
    Socks5 Duplex :=
  { m with
    auth := .skip [0x05, 0x00] (offset + data.length)
    stream := { m.stream with sent := m.stream.sent ++ data, writes } }

theorem Skipping.write_upTo (oc : Bool) (pc : AuthPc) (h : Skipping off m)
    (hw : m.stream.writes = .upTo n :: writes) :
    ∃ data, data.length = min (n + 1) (2 - off) ∧
      Socks5.step oc (.auth pc, m) =
        if off + data.length = 2 then
          .again (.write, (behindSkip m off writes data).expect (.request 0x05 0 0 0 4) 4)
        else .again (.auth pc, behindSkip m off writes data) := by
  have hlt := h.lt
  have hl : ([0x05, 0x00] : Bytes).length = 2 := rfl
  have hdrop : (([0x05, 0x00] : Bytes).drop off).length = 2 - off := by simp
  refine ⟨(([0x05, 0x00] : Bytes).drop off).take (min (n + 1) (2 - off)), by simp, ?_⟩
  simp only [Socks5.step, authTurn, h.auth, S5Authenticate.pollAuth, skipTurn,
    Duplex.pollWrite_upTo hw, hdrop, hl]
  rw [if_neg (by omega)]
  simp only [List.length_take, hdrop, min_self, Nat.min_assoc, behindSkip]
  by_cases hfull : off + min (n + 1) (2 - off) = 2
  · simp only [if_pos hfull, Turn.map]
    rfl
  · simp only [if_neg hfull, Turn.map]

/-- The reply of `Skip`: the handshake goes on to the request with the bytes of the client as they
were, behind the first answers to its writes that add up to two bytes, or it never becomes ready
because they do not add up to two bytes. -/
theorem Skipping.drives (oc : Bool) (pc : AuthPc) (h : Skipping off m) :
    (∃ auth writes sent,
      (∀ t r, Drives (Socks5.step oc) (.auth pc, m) t r ↔ Drives (Socks5.step oc) (.write,
        expect { m with auth, stream := { m.stream with writes, sent } } (.request 0x05 0 0 0 4) 4)
        t r) ∧
      (∃ a, sizes m.stream.writes = a ++ sizes writes ∧ 2 ≤ off + a.sum) ∧
      ∀ a b, sizes m.stream.writes = a ++ b → 2 ≤ off + a.sum → b <:+ sizes writes) ∨
    (∀ t r, ¬Drives (Socks5.step oc) (.auth pc, m) t r) ∧
      off + (sizes m.stream.writes).sum < 2 := by
  generalize hw : m.stream.writes = answers
  induction answers generalizing m off pc with
  | nil =>
    refine .inr ⟨fun t r H => ?_, by simpa [sizes] using h.lt⟩
    refine H.post (I := fun s => s = (.select, m) ∨ ∃ pc, s = (.auth pc, m))
      (Q := fun _ _ => False) ?_ (.inr ⟨_, rfl⟩)
    rintro s (rfl | ⟨pc, rfl⟩)
    · exact .inl ⟨_, .inl h.select, .inr ⟨_, rfl⟩⟩
    · exact .inl ⟨_, .inr (h.write_nil hw), .inl rfl⟩
  | cons a writes ih =>
    cases a with
    | pending =>
      let m' : Socks5 Duplex := { m with stream := { m.stream with writes } }
      have h' : Skipping off m' := ⟨h.state, h.auth, h.lt⟩
      have hiff : ∀ t r, Drives (Socks5.step oc) (.auth pc, m) t r ↔
          Drives (Socks5.step oc) (.auth .write, m') t r := fun t r =>
        (drives_iff_of_goes (.inr (h.write_pending hw))).trans (drives_iff_of_goes (.inl h'.select))
      simp only [hiff, sizes]
      exact ih .write h' rfl
    | upTo n =>
      obtain ⟨data, hlen, hstep⟩ := h.write_upTo oc pc hw
      split at hstep
      · next hfull =>
        refine .inl ⟨_, _, _, fun t r => drives_iff_of_goes (.inl hstep),
          ⟨[n + 1], rfl, by simp; omega⟩, fun a b hab hsum => ?_⟩
        cases a with
        | nil => simp at hsum; have := h.lt; omega
        | cons x a =>
          simp only [sizes, List.cons_append, List.cons.injEq] at hab
          exact hab.2 ▸ List.suffix_append a b
      · next hfull =>
        have hlt := h.lt
        have h' : Skipping (off + data.length) (behindSkip m off writes data) :=
          ⟨h.state, rfl, by omega⟩
        simp only [drives_iff_of_goes (.inl hstep)]
        rcases ih pc h' rfl with ⟨auth, writes', sent, hiff, ⟨a, ha, hsum⟩, hrest⟩ | ⟨hno, hsum⟩
        · refine .inl ⟨auth, writes', sent, hiff,
            ⟨(n + 1) :: a, by rw [sizes, ha, List.cons_append], by simp only [List.sum_cons]; omega⟩,
            fun a b hab hsum => ?_⟩
          cases a with
          | nil => simp at hsum; omega
          | cons x a =>
            simp only [sizes, List.cons_append, List.cons.injEq] at hab
            simp only [List.sum_cons, ← hab.1] at hsum
            exact hrest a b hab.2 (by omega)
        · exact .inr ⟨hno, by simp only [sizes, List.sum_cons]; omega⟩

/-! ## The greeting -/

theorem select_new {d : Duplex} :
    Socks5.step oc (.select, new a d) = .again (.write, (new a d).expect .handshake 2) := rfl

/-- The handshake behind the first two bytes, at least two of which were there. -/
theorem select_greeting {d : Duplex} (hlen : 2 ≤ d.incoming.length) :
    Socks5.step oc (.select, ((new a d).expect .handshake 2).received reads) =
      (((new a d).expect .handshake 2).received reads).onHead := by
  have hne : (d.incoming.take 2).isEmpty = false := by
    cases h : d.incoming <;> simp_all
  simp [Socks5.step, select, received, expect, new, hne]

/-- A handshake that does not end in `ConnectionReset` has read the first two bytes. -/
theorem drives_head {d : Duplex} {t : Pc × Socks5 Duplex}
    (hr : r ≠ .ret (.error (.io .connectionReset)))
    (H : Drives (Socks5.step oc) (.select, new a d) t r) :
    ∃ v nm rest, ∃ m : Socks5 Duplex, d.incoming = v :: nm :: rest ∧ m.state = .handshake ∧
      m.auth = a ∧ m.writeBuf = [] ∧ m.stream.incoming = rest ∧
      (Socks5.step oc (.select, m) =
        if v ≠ 0x05 then .ready (.select, m) (.ret (.error (.socks (.head v nm))))
        else .again (.write, m.expect (.authentication nm.toNat) nm.toNat)) ∧
      Drives (Socks5.step oc) (.select, m) t r := by
  obtain ⟨reads, hlen, H₁⟩ := drives_received (m := new a d) rfl asks_handshake hr
    ((drives_iff_of_goes (.inl select_new)).1 H)
  have hstream : (new a d).stream.incoming = d.incoming := rfl
  rw [hstream] at hlen
  let m₁ := received ((new a d).expect .handshake 2) reads
  have hbuf : m₁.readBuf.take m₁.readOffset = d.incoming.take 2 := by
    simp [m₁, received, expect, new]
  have hstep : Socks5.step oc (.select, m₁) = m₁.onHead := select_greeting hlen
  obtain ⟨v, nm, rest, hin⟩ := exists_two hlen
  rw [onHead, hbuf, hin] at hstep
  simp only [List.take_succ_cons, List.take_zero, Head.tryFrom] at hstep
  refine ⟨v, nm, rest, m₁, hin, rfl, rfl, rfl, ?_, ?_, H₁⟩
  · simp [m₁, received, expect, new, hin]
  · rw [hstep]
    by_cases hv : v ≠ 0x05
    · simp only [if_pos hv]
    · simp only [if_neg hv]

theorem conforms_greeting {d : Duplex} {t : Pc × Socks5 Duplex} {auth : Bytes → Parsed}
    (hf : ∀ rest, Fits (auth rest) rest)
    (hauth : ∀ m : Socks5 Duplex,
      m.state = .authentication m.readOffset → m.auth = a → m.writeBuf = [] →
      Drives (Socks5.step oc) (.auth .write, m) t r →
      Conforms (auth m.stream.incoming) m.stream.incoming (sizes m.stream.reads) r
        t.2.stream.incoming)
    (H : Drives (Socks5.step oc) (.select, new a d) t r) :
    Conforms (parseGreeting auth d.incoming) d.incoming (sizes d.reads) r t.2.stream.incoming := by
  refine .expect (m := new a d) rfl asks_handshake (fun _ _ => fits_methods hf)
    (fun reads hlen H₁ => ?_) ((drives_iff_of_goes (.inl select_new)).1 H)
  let m₁ := received ((new a d).expect .handshake 2) reads
  have hbuf : m₁.readBuf.take m₁.readOffset = d.incoming.take 2 := by
    simp [m₁, received, expect, new]
  have hstep : Socks5.step oc (.select, m₁) = m₁.onHead := select_greeting hlen
  have hstream : (new a d).stream.incoming = d.incoming := rfl
  have hrest : d.incoming.drop 2 = m₁.stream.incoming := by simp [m₁, received, expect, new]
  rw [hstream, hrest]
  unfold onHead at hstep
  unfold parseMethods
  rw [hbuf] at hstep
  cases hhead : Head.tryFrom (d.incoming.take 2) with
  | error e =>
    simp only [hhead] at hstep
    obtain ⟨rfl, rfl⟩ := (drives_iff_of_ready hstep).1 H₁
    exact .done
  | ok nm =>
    simp only [hhead] at hstep
    have H₂ := (drives_iff_of_goes (.inl hstep)).1 H₁
    dsimp only
    refine .expect (m := m₁) rfl asks_authentication (fun _ _ => hf _) (fun reads' _ H₃ => ?_) H₂
    let m₂ := received (m₁.expect (.authentication nm.toNat) nm.toNat) reads'
    have hst : m₂.state = .authentication m₂.readOffset := by simp [m₂, received, expect]
    have hsel : Socks5.step oc (.select, m₂) = .again (.auth .write, m₂) := by
      simp [Socks5.step, select, hst]
    have h := hauth m₂ hst rfl rfl ((drives_iff_of_goes (.inl hsel)).1 H₃)
    simpa [m₂, received, expect] using h

/-- Every handshake without authentication that becomes ready conforms to `parse`. -/
theorem conforms_parse {d : Duplex} {t : Pc × Socks5 Duplex}
    (H : Drives (Socks5.step oc) (.select, new .newSkip d) t r) :
    Conforms (parse oc d.incoming) d.incoming (sizes d.reads) r t.2.stream.incoming := by
  refine conforms_greeting (fun _ => fits_parseRequest) (fun m hst ha hw H₁ => ?_) H
  rcases Skipping.drives oc .write ⟨hst, ha, Nat.two_pos⟩ with
    ⟨auth, writes, sent, hiff, -, -⟩ | ⟨hno, -⟩
  · exact conforms_request (m := { m with auth, stream := { m.stream with writes, sent } }) hw
      ((hiff _ _).1 H₁)
  · exact absurd H₁ (hno _ _)

end Fuso.Socks5

import Fuso.Socks.Runs

/-!
# The reply to a CONNECT

The write loop of `Socks5::poll` does not move `write_offset`, and it is left when a single write
took as many bytes as the reply has. So the reply is written once only if the first write that is
ready takes all of it (`Socks5.reply_once_iff`); otherwise bytes are written again.
-/

namespace Fuso.Socks5
open Turn

variable {m m₀ : Socks5 Duplex} {oc : Bool} {socket : Socket} {rsv : UInt8}

/-- The request was taken and the reply is to be written from its first byte on. -/
structure Replying (socket : Socket) (rsv : UInt8) (m : Socks5 Duplex) : Prop where
  state : m.state = .success (some socket)
  readBuf : m.readBuf = []
  writeBuf : m.writeBuf = reply rsv
  writeOffset : m.writeOffset = 0

namespace Replying

theorem congr (h : Replying socket rsv m) (stream : Duplex) :
    Replying socket rsv { m with stream } :=
  ⟨h.state, h.readBuf, h.writeBuf, h.writeOffset⟩

theorem select (h : Replying socket rsv m) :
    Socks5.step oc (.select, m) = .again (.write, m) := by
  simp [Socks5.step, Socks5.select, h.state, h.writeBuf, reply]

theorem notEmpty (h : Replying socket rsv m) : m.writeBuf.isEmpty = false := by
  simp [h.writeBuf, reply]

theorem write_nil (h : Replying socket rsv m) (hw : m.stream.writes = []) :
    Socks5.step oc (.write, m) = .pending (.select, m) := by
  simp only [Socks5.step, writeTurn, h.notEmpty, Bool.false_eq_true, if_false,
    Duplex.pollWrite_nil hw]

theorem write_pending (h : Replying socket rsv m) (hw : m.stream.writes = .pending :: writes) :
    Socks5.step oc (.write, m) =
      .pending (.select, { m with stream := { m.stream with writes } }) := by
  simp only [Socks5.step, writeTurn, h.notEmpty, Bool.false_eq_true, if_false,
    Duplex.pollWrite_pending hw]

/-- A write that takes all of the reply. -/
theorem write_all (h : Replying socket rsv m) (hw : m.stream.writes = .upTo n :: writes)
    (hn : 10 ≤ n + 1) : Socks5.step oc (.write, m) = .again (.read, { m with
      stream := { m.stream with sent := m.stream.sent ++ reply rsv, writes }
      writeOffset := 0, writeBuf := [] }) := by
  have hlen : min (n + 1) (reply rsv).length = (reply rsv).length := Nat.min_eq_right hn
  simp only [Socks5.step, writeTurn, h.writeOffset, List.drop_zero, h.writeBuf,
    Duplex.pollWrite_upTo hw, hlen, List.take_length, if_true]
  rfl

/-- A write that takes a part of the reply: the next one starts again from the first byte. -/
theorem write_part (h : Replying socket rsv m) (hw : m.stream.writes = .upTo n :: writes)
    (hn : n + 1 < 10) : Socks5.step oc (.write, m) = .again (.write, { m with
      stream := { m.stream with sent := m.stream.sent ++ (reply rsv).take (n + 1), writes } }) := by
  have hlen : min (n + 1) (reply rsv).length = n + 1 := Nat.min_eq_left (Nat.le_of_lt hn)
  have hne : n + 1 ≠ (reply rsv).length := Nat.ne_of_lt hn
  simp only [Socks5.step, writeTurn, h.writeOffset, List.drop_zero, Nat.succ_ne_zero, h.writeBuf,
    Duplex.pollWrite_upTo hw, hlen, if_neg hne]
  rfl

/-- Behind the reply the handshake is over. -/
theorem drives_read (hst : m.state = .success (some socket)) (hr : m.readBuf = [])
    (hw : m.writeBuf = []) :
    Drives (Socks5.step oc) (.read, m) (.select, { m with state := .success none })
      (.ret (.ok socket)) := by
  have hread : Socks5.step oc (.read, m) = .again (.select, m) := by
    simp [Socks5.step, readTurn, hr]
  exact .again hread (.ready (by simp [Socks5.step, Socks5.select, hst, hw]))

/-- The reply is still to be written, or its ten bytes are out. -/
def Due (socket : Socket) (rsv : UInt8) (base : Nat) (s : Pc × Socks5 Duplex) : Prop :=
  Replying socket rsv s.2 ∧ (s.1 = .select ∨ s.1 = .write) ∧ base ≤ s.2.stream.sent.length ∨
  s.2.state = .success (some socket) ∧ s.2.readBuf = [] ∧ s.2.writeBuf = [] ∧
    (s.1 = .read ∨ s.1 = .select) ∧ base + 10 ≤ s.2.stream.sent.length

theorem due_write (h : Replying socket rsv m) (hle : base ≤ m.stream.sent.length) :
    ∃ s', Goes (Socks5.step oc) (.write, m) s' ∧ Due socket rsv base s' := by
  cases hw : m.stream.writes with
  | nil => exact ⟨_, .inr (h.write_nil hw), .inl ⟨h, .inl rfl, hle⟩⟩
  | cons a writes =>
    cases a with
    | pending => exact ⟨_, .inr (h.write_pending hw), .inl ⟨h.congr _, .inl rfl, hle⟩⟩
    | upTo n =>
      rcases Nat.lt_or_ge (n + 1) 10 with hn | hn
      · refine ⟨_, .inl (h.write_part hw hn), .inl ⟨h.congr _, .inr rfl, ?_⟩⟩
        exact Nat.le_trans hle (by simp)
      · refine ⟨_, .inl (h.write_all hw hn), .inr ⟨h.state, h.readBuf, rfl, .inl rfl, ?_⟩⟩
        rw [List.length_append]
        exact Nat.add_le_add_right hle 10

theorem Due.step (h : Due socket rsv base s) :
    (∃ s', Goes (Socks5.step oc) s s' ∧ Due socket rsv base s') ∨
    ∃ s' r, Socks5.step oc s = .ready s' r ∧ base + 10 ≤ s'.2.stream.sent.length := by
  obtain ⟨pc, m⟩ := s
  obtain ⟨h, rfl | rfl, hle⟩ | ⟨hst, hr, hw, rfl | rfl, hle⟩ := h <;> dsimp only at *
  · exact .inl ⟨_, .inl h.select, .inl ⟨h, .inr rfl, hle⟩⟩
  · exact .inl (due_write h hle)
  · exact .inl ⟨(.select, m), .inl (by simp [Socks5.step, readTurn, hr]),
      .inr ⟨hst, hr, hw, .inr rfl, hle⟩⟩
  · exact .inr ⟨(.select, { m with state := .success none }), .ret (.ok socket),
      by simp [Socks5.step, Socks5.select, hst, hw], hle⟩

/-- When the handshake is over ten bytes at least were written. -/
theorem length_sent (h : Replying socket rsv m) (H : Drives (Socks5.step oc) (.write, m) t r) :
    m.stream.sent.length + 10 ≤ t.2.stream.sent.length :=
  H.post (Q := fun t _ => m.stream.sent.length + 10 ≤ t.2.stream.sent.length)
    (fun _ hs => Due.step hs) (.inl ⟨h, .inr rfl, Nat.le_refl _⟩)

/-- The reply is written once if and only if the first write that is ready takes ten bytes. -/
theorem once_iff (h : Replying socket rsv m) :
    (∃ t, Drives (Socks5.step oc) (.write, m) t (.ret (.ok socket)) ∧
      t.2.stream.sent = m.stream.sent ++ reply rsv) ↔
    ∃ k, (sizes m.stream.writes).head? = some k ∧ 10 ≤ k := by
  generalize hw : m.stream.writes = answers
  induction answers generalizing m with
  | nil =>
    refine iff_of_false ?_ (by simp [sizes])
    rintro ⟨t, H, -⟩
    refine H.post (I := fun s => (s.1 = .select ∨ s.1 = .write) ∧ s.2 = m) (Q := fun _ _ => False)
      ?_ ⟨.inr rfl, rfl⟩
    rintro ⟨_, _⟩ ⟨rfl | rfl, rfl⟩
    · exact .inl ⟨_, .inl h.select, .inr rfl, rfl⟩
    · exact .inl ⟨_, .inr (h.write_nil hw), .inl rfl, rfl⟩
  | cons a writes ih =>
    cases a with
    | pending =>
      have h' := h.congr { m.stream with writes }
      have hiff : ∀ t, Drives (Socks5.step oc) (.write, m) t (.ret (.ok socket)) ↔ Drives
          (Socks5.step oc) (.write, { m with stream := { m.stream with writes } }) t
          (.ret (.ok socket)) := fun t =>
        (drives_iff_of_goes (.inr (h.write_pending hw))).trans (drives_iff_of_goes (.inl h'.select))
      simp only [hiff, sizes]
      exact ih h' rfl
    | upTo n =>
      rcases Nat.lt_or_ge (n + 1) 10 with hn | hn
      · refine iff_of_false ?_ ?_
        · rintro ⟨t, H, hsent⟩
          have h' := h.congr { m.stream with
            sent := m.stream.sent ++ (reply rsv).take (n + 1), writes }
          have hlen := h'.length_sent ((drives_iff_of_goes (.inl (h.write_part hw hn))).1 H)
          rw [hsent] at hlen
          simp [reply] at hlen
        · rintro ⟨k, hk, hle⟩
          obtain rfl : n + 1 = k := Option.some.inj hk
          omega
      · refine iff_of_true ⟨_, .again (h.write_all hw hn) (drives_read h.state h.readBuf rfl), rfl⟩
          ⟨n + 1, rfl, hn⟩

end Replying

/-- The turn in which a request for a tcp socket is taken. -/
theorem replying_of_select (hreq : m₀.state = .request ver cmd rsv atype n)
    (hstep : Socks5.step oc (.select, m₀) = .again (.write, m))
    (hok : m.state = .success (some socket)) (htcp : socket.isUdp = false) :
    Replying socket rsv m ∧ m.stream = m₀.stream := by
  simp only [Socks5.step, Socks5.select, hreq] at hstep
  split at hstep
  · -- The first four bytes of the request do not end it,
    simp only [onRequest] at hstep
    repeat' split at hstep
    all_goals cases hstep
    cases hok
  · split at hstep
    · -- and the length of a domain does not either.
      simp only [onDomain] at hstep
      repeat' split at hstep
      all_goals cases hstep
      cases hok
    · split at hstep
      · simp only [onAddress] at hstep
        split at hstep
        · split at hstep
          · cases hstep
            cases hok
            simp_all
          · cases hstep
            cases hok
            exact ⟨⟨rfl, rfl, rfl, rfl⟩, rfl⟩
        all_goals cases hstep
      · cases hstep
        rw [hreq] at hok
        cases hok

/-- The handshake that has taken a request for a tcp socket ends with the reply written once, if and
only if the first write that is ready takes ten bytes. -/
theorem reply_once_iff (hreq : m₀.state = .request ver cmd rsv atype n)
    (hstep : Socks5.step oc (.select, m₀) = .again (.write, m))
    (hok : m.state = .success (some socket)) (htcp : socket.isUdp = false) :
    (∃ t, Drives (Socks5.step oc) (.select, m₀) t (.ret (.ok socket)) ∧
      t.2.stream.sent = m₀.stream.sent ++ reply rsv) ↔
    ∃ k, (sizes m₀.stream.writes).head? = some k ∧ 10 ≤ k := by
  obtain ⟨h, hstream⟩ := replying_of_select hreq hstep hok htcp
  simp only [drives_iff_of_goes (.inl hstep), ← hstream]
  exact h.once_iff

/-- A handshake that has read the request to connect to 127.0.0.1:80. -/
def loopback (writes : List Answer) : Socks5 Duplex where
  state := .request 0x05 0x01 0x00 0x01 6
  readBuf := [127, 0, 0, 1, 0, 80]
  writeBuf := []
  readOffset := 6
  writeOffset := 0
  auth := .newSkip
  stream := ⟨[], [], writes, [], []⟩

/-- A reply that is taken as a whole. -/
theorem reply_loopback : ∃ t socket,
    Drives (Socks5.step false) (.select, loopback [.pending, .upTo 9]) t (.ret (.ok socket)) ∧
      t.2.stream.sent = reply 0x00 := by
  have hstep : Socks5.step false (.select, loopback [.pending, .upTo 9]) = .again (.write, _) := rfl
  obtain ⟨t, H, hsent⟩ := (reply_once_iff rfl hstep rfl rfl).2 ⟨10, rfl, by decide⟩
  exact ⟨t, _, H, hsent⟩

/-- A reply of which the first write takes four bytes, although ten more writes take all they are
offered. -/
theorem not_reply_once : ¬ ∀ (m₀ m : Socks5 Duplex) (oc : Bool) ver cmd rsv atype n socket,
    m₀.state = .request ver cmd rsv atype n → Socks5.step oc (.select, m₀) = .again (.write, m) →
    m.state = .success (some socket) → socket.isUdp = false →
    10 ≤ (sizes m₀.stream.writes).length →
    ∃ t, Drives (Socks5.step oc) (.select, m₀) t (.ret (.ok socket)) ∧
      t.2.stream.sent = m₀.stream.sent ++ reply rsv := by
  intro h
  let m₀ := loopback (.upTo 3 :: .replicate 10 (.upTo 9))
  have hstep : Socks5.step false (.select, m₀) = .again (.write, _) := rfl
  obtain ⟨t, H, hsent⟩ := h m₀ _ false 0x05 0x01 0x00 0x01 6 _ rfl hstep rfl rfl (by decide)
  obtain ⟨hr, -⟩ := replying_of_select rfl hstep rfl rfl
  obtain ⟨k, hk, hle⟩ := hr.once_iff.1 ⟨t, (drives_iff_of_goes (.inl hstep)).1 H, hsent⟩
  obtain rfl : 4 = k := Option.some.inj hk
  omega

end Fuso.Socks5

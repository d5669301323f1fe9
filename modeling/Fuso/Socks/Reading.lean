import Fuso.Socks.Handshake

/-!
# Reading one message of the handshake

A message of the handshake is read into a buffer of its length. `Socks5.drives_message` says what
becomes of a handshake that awaits one: a single read that fills the buffer leads on to the next
state, and every other way of delivering the message ends in `ConnectionReset` with the message
consumed, because the read loop compares the offset with the length of the slice it read into last.
-/

namespace Fuso.Socks5
open Turn

/-- The state asks for a message of `len` bytes. -/
def State.Asks : State → Nat → Prop
  | .handshake, len => len = 2
  | .authentication k, len => len = k
  | .request ver _ _ _ n, len => ver = 0x05 ∧ len = n
  | .success _, _ => False

theorem asks_handshake : State.handshake.Asks 2 := rfl

theorem asks_authentication : (State.authentication len).Asks len := rfl

theorem asks_request : (State.request 0x05 cmd rsv atype len).Asks len := ⟨rfl, rfl⟩

/-- The handshake has set up `read_buf` for a message and has no reply to write. -/
structure Awaits (m : Socks5 S) : Prop where
  quiet : m.writeBuf = []
  pos : 0 < m.readBuf.length
  size : m.state.Asks m.readBuf.length

/-- The handshake with the message it awaits in `read_buf`. -/
def received (m : Socks5 Duplex) (reads : List Answer) : Socks5 Duplex :=
  { m with
    readBuf := m.stream.incoming.take m.readBuf.length
    readOffset := m.readBuf.length
    stream := { m.stream with incoming := m.stream.incoming.drop m.readBuf.length, reads } }

section
variable [AsyncRead S] [AsyncWrite S] {m : Socks5 S}

/-- No arm of the match takes a message that is not complete. -/
theorem Awaits.select (h : m.Awaits) (hlt : m.readOffset < m.readBuf.length) :
    step oc (.select, m) = .again (.write, m) := by
  have hne : m.readBuf.isEmpty = false := by
    cases hb : m.readBuf with
    | nil => simp [hb] at hlt
    | cons => rfl
  have hsize := h.size
  simp only [step, Socks5.select]
  cases hs : m.state with
  | handshake =>
    simp only [hs, State.Asks] at hsize
    rw [hne, if_neg Bool.false_ne_true, if_neg (by omega)]
  | authentication k =>
    simp only [hs, State.Asks] at hsize
    exact if_neg (by omega)
  | request ver cmd rsv atype n =>
    simp only [hs, State.Asks] at hsize
    dsimp only
    rw [if_neg (by omega), if_neg (by omega), if_neg (by omega)]
  | success => simp only [hs, State.Asks] at hsize

theorem Awaits.write (h : m.Awaits) : step oc (.write, m) = .again (.read, m) := by
  simp [step, writeTurn, h.quiet]

end

variable {m : Socks5 Duplex}

theorem Awaits.not_isEmpty (h : m.Awaits) : m.readBuf.isEmpty = false := by
  have := h.pos
  cases hb : m.readBuf <;> simp_all

/-! ## One read -/

theorem read_nil (oc : Bool) (h : m.Awaits) (hlt : m.readOffset < m.readBuf.length)
    (hr : m.stream.reads = []) : step oc (.read, m) = .pending (.select, m) := by
  have hb : (ReadBuf.new (m.readBuf.length - m.readOffset)).remaining ≠ 0 := by simp; omega
  simp only [step, readTurn, h.not_isEmpty, Bool.false_eq_true, if_false,
    Duplex.pollRead_nil hr hb]

theorem read_pending (oc : Bool) (h : m.Awaits) (hlt : m.readOffset < m.readBuf.length)
    (hr : m.stream.reads = .pending :: reads) :
    step oc (.read, m) = .pending (.select, { m with stream := { m.stream with reads } }) := by
  have hb : (ReadBuf.new (m.readBuf.length - m.readOffset)).remaining ≠ 0 := by simp; omega
  simp only [step, readTurn, h.not_isEmpty, Bool.false_eq_true, if_false,
    Duplex.pollRead_pending hr hb]

/-- The handshake behind a read that was answered with `data`. -/
def behindRead (m : Socks5 Duplex) (reads : List Answer) (data : Bytes) : Socks5 Duplex :=
  { m with
    readBuf := overwrite m.readBuf m.readOffset data
    readOffset := m.readOffset + data.length
    stream := m.stream.behind reads data }

theorem read_upTo (oc : Bool) (h : m.Awaits) (hlt : m.readOffset < m.readBuf.length)
    (hr : m.stream.reads = .upTo n :: reads) (hne : m.stream.incoming ≠ [])
    (hd : m.stream.delivered n (m.readBuf.length - m.readOffset) = data) :
    step oc (.read, m) =
      if m.readOffset + data.length = m.readBuf.length - m.readOffset then
        .again (.select, behindRead m reads data)
      else .again (.read, behindRead m reads data) := by
  have hin : m.stream.incoming.length ≠ 0 := by simpa using hne
  have h0 : data.length ≠ 0 := by rw [← hd, Duplex.length_delivered]; omega
  obtain ⟨buf, hbuf, hread⟩ := Duplex.pollRead_upTo hr 
    (show m.readBuf.length - m.readOffset ≠ 0 by omega)
  simp only [step, readTurn, h.not_isEmpty, Bool.false_eq_true, if_false, hread, hbuf, hd,
    if_neg h0]
  rfl

/-- A read at the end of the stream ends the handshake. -/
theorem read_eof (oc : Bool) (h : m.Awaits) (hlt : m.readOffset < m.readBuf.length)
    (hr : m.stream.reads = .upTo n :: reads) (hin : m.stream.incoming = []) :
    ∃ m', step oc (.read, m) = .ready (.read, m') (.ret (.error (.io .connectionReset))) ∧
      m'.stream.incoming = [] := by
  obtain ⟨buf, hbuf, hread⟩ := Duplex.pollRead_upTo hr 
    (show m.readBuf.length - m.readOffset ≠ 0 by omega)
  have hd : m.stream.delivered n (m.readBuf.length - m.readOffset) = [] := by
    simp [Duplex.delivered, hin]
  simp only [step, readTurn, h.not_isEmpty, Bool.false_eq_true, if_false, hread, hd,
    List.length_nil, if_true]
  exact ⟨_, rfl, by simp [Duplex.behind, hin]⟩

/-- With the buffer full, the loop reads into an empty slice, and the handshake ends. -/
theorem read_full (oc : Bool) (h : m.Awaits) (hfull : m.readOffset = m.readBuf.length) :
    ∃ m', step oc (.read, m) = .ready (.read, m') (.ret (.error (.io .connectionReset))) ∧
      m'.stream.incoming = m.stream.incoming := by
  simp only [step, readTurn, h.not_isEmpty, Bool.false_eq_true, if_false,
    show m.readBuf.length - m.readOffset = 0 by omega, Duplex.pollRead_zero, if_true]
  exact ⟨_, rfl, rfl⟩

theorem Awaits.next (h : m.Awaits) (hd : m.readOffset + data.length ≤ m.readBuf.length) :
    (behindRead m reads data).Awaits where
  quiet := h.quiet
  pos := by simpa [Socks5.behindRead, length_overwrite _ _ hd] using h.pos
  size := by simpa [Socks5.behindRead, length_overwrite _ _ hd] using h.size

/-! ## A message that is cut -/

/-- The first `readOffset` bytes of a message of `len` bytes were read, and not all by one read. -/
structure Cut (len : Nat) (rx : Bytes) (s : Pc × Socks5 Duplex) : Prop where
  awaits : s.2.Awaits
  length : s.2.readBuf.length = len
  pos : 0 < s.2.readOffset
  pc : s.1 = .read ∧ s.2.readOffset = len ∨
    s.2.readOffset < len ∧ (s.1 = .select ∨ s.1 = .write ∨ s.1 = .read)
  incoming : s.2.stream.incoming = rx.drop s.2.readOffset
  le : s.2.readOffset ≤ rx.length

/-- A turn of a handshake whose message is cut: the message stays cut, or the handshake ends in
`ConnectionReset` with the message consumed. -/
theorem Cut.step (h : Cut len rx s) :
    (∃ s', Goes (step oc) s s' ∧ Cut len rx s') ∨
    ∃ s' r, step oc s = .ready s' r ∧ r = .ret (.error (.io .connectionReset)) ∧
      s'.2.stream.incoming = rx.drop len := by
  obtain ⟨pc, m⟩ := s
  obtain ⟨haw, hlen, hpos, hpc, hin, hle⟩ := h
  dsimp only at *
  obtain ⟨rfl, hfull⟩ | ⟨hlt, rfl | rfl | rfl⟩ := hpc
  · obtain ⟨m', hm', hin'⟩ := read_full oc haw (hfull.trans hlen.symm)
    exact .inr ⟨_, _, hm', rfl, by rw [hin', hin, hfull]⟩
  · exact .inl ⟨_, .inl (haw.select (hlen ▸ hlt)), haw, hlen, hpos, .inr ⟨hlt, by simp⟩, hin, hle⟩
  · exact .inl ⟨_, .inl haw.write, haw, hlen, hpos, .inr ⟨hlt, by simp⟩, hin, hle⟩
  · cases hr : m.stream.reads with
    | nil =>
      exact .inl ⟨_, .inr (read_nil oc haw (hlen ▸ hlt) hr),
        haw, hlen, hpos, .inr ⟨hlt, by simp⟩, hin, hle⟩
    | cons a reads =>
      cases a with
      | pending =>
        exact .inl ⟨_, .inr (read_pending oc haw (hlen ▸ hlt) hr),
          ⟨haw.quiet, haw.pos, haw.size⟩, hlen, hpos, .inr ⟨hlt, by simp⟩, hin, hle⟩
      | upTo n =>
        by_cases hne : m.stream.incoming = []
        · obtain ⟨m', hm', hin'⟩ := read_eof oc haw (hlen ▸ hlt) hr hne
          rw [hin] at hne
          have : rx.length ≤ m.readOffset := List.drop_eq_nil_iff.1 hne
          exact .inr ⟨_, _, hm', rfl, by rw [hin', List.drop_eq_nil_of_le (by omega)]⟩
        · obtain ⟨data, hdata⟩ :
              ∃ data, m.stream.delivered n (m.readBuf.length - m.readOffset) = data := ⟨_, rfl⟩
          have hstep := read_upTo oc haw (hlen ▸ hlt) hr hne hdata
          have hl : data.length =
              min (min (n + 1) (len - m.readOffset)) (rx.length - m.readOffset) := by
            rw [← hdata, Duplex.length_delivered, hin, hlen, List.length_drop]
          have hfits : m.readOffset + data.length ≤ m.readBuf.length := by omega
          have hnext : ∀ pc, (pc = .read ∨ pc = .select ∧ m.readOffset + data.length < len) →
              Cut len rx (pc, behindRead m reads data) := by
            intro pc hpc
            refine ⟨haw.next hfits, ?_, by simp [behindRead]; omega, ?_, ?_, ?_⟩
            · simp [behindRead, length_overwrite _ _ hfits, hlen]
            · simp only [behindRead]
              rcases Nat.lt_or_eq_of_le (hlen ▸ hfits) with hlt' | heq
              · exact .inr ⟨hlt', by tauto⟩
              · exact .inl ⟨by rcases hpc with h | h <;> [exact h; omega], heq⟩
            · simp [behindRead, Duplex.behind, hin]
            · simp [behindRead]; omega
          split at hstep
          · exact .inl ⟨_, .inl hstep, hnext _ (.inr ⟨rfl, by omega⟩)⟩
          · exact .inl ⟨_, .inl hstep, hnext _ (.inl rfl)⟩

theorem Cut.drives (h : Cut len rx s) (H : Drives (Socks5.step oc) s t r) :
    r = .ret (.error (.io .connectionReset)) ∧ t.2.stream.incoming = rx.drop len :=
  H.post (I := Cut len rx) (Q := fun t r => r = .ret (.error (.io .connectionReset)) ∧
    t.2.stream.incoming = rx.drop len) (fun _ hs => Cut.step hs) h

/-! ## A message -/

/-- The handshake with the read answers it has yet to see that are not `Pending`. -/
def awake (m : Socks5 Duplex) : Socks5 Duplex :=
  { m with stream := { m.stream with reads := m.stream.reads.dropWhile (· = .pending) } }

/-- Reads that are `Pending` change nothing. -/
theorem Awaits.drives_awake (h : m.Awaits) (hlt : m.readOffset < m.readBuf.length) :
    Drives (Socks5.step oc) (.write, m) t r ↔ Drives (Socks5.step oc) (.write, m.awake) t r := by
  generalize hr : m.stream.reads = answers
  induction answers generalizing m with
  | nil => rw [show m.awake = m by simp only [awake, hr, List.dropWhile_nil]; rw [← hr]]
  | cons a reads ih =>
    cases a with
    | pending =>
      let m' : Socks5 Duplex := { m with stream := { m.stream with reads } }
      have h' : m'.Awaits := ⟨h.quiet, h.pos, h.size⟩
      have hm : m.awake = m'.awake := by simp [awake, hr, m']
      rw [drives_iff_of_goes (.inl h.write), drives_iff_of_goes (.inr (read_pending oc h hlt hr)),
        drives_iff_of_goes (.inl (h'.select hlt)), ih h' hlt rfl, hm]
    | upTo n =>
      have hm : m.awake = m := by
        simp only [awake, hr]
        rw [List.dropWhile_cons_of_neg (by simp), ← hr]
      rw [hm]

theorem awake_reads (m : Socks5 Duplex) : sizes m.awake.stream.reads = sizes m.stream.reads ∧
    (m.awake.stream.reads = [] ∨ ∃ n reads, m.awake.stream.reads = .upTo n :: reads) := by
  simp only [awake]
  induction m.stream.reads with
  | nil => exact ⟨rfl, .inl rfl⟩
  | cons a reads ih =>
    cases a with
    | pending => simpa [sizes] using ih
    | upTo n => exact ⟨rfl, .inr ⟨n, reads, rfl⟩⟩

/-- A read that is never answered leaves the handshake where it is. -/
theorem Awaits.stalls (h : m.Awaits) (hlt : m.readOffset < m.readBuf.length)
    (hr : m.stream.reads = []) : ¬Drives (Socks5.step oc) (.write, m) t r := by
  intro H
  refine H.post (I := fun s => s = (.select, m) ∨ s = (.write, m) ∨ s = (.read, m))
    (Q := fun _ _ => False) ?_ (.inr (.inl rfl))
  rintro s (rfl | rfl | rfl)
  · exact .inl ⟨_, .inl (h.select hlt), by simp⟩
  · exact .inl ⟨_, .inl h.write, by simp⟩
  · exact .inl ⟨_, .inr (read_nil oc h hlt hr), by simp⟩

/-- A message that one read delivers whole. -/
theorem Awaits.whole (oc : Bool) (h : m.Awaits) (h0 : m.readOffset = 0)
    (hr : m.stream.reads = .upTo n :: reads) (hn : m.readBuf.length ≤ n + 1)
    (hin : m.readBuf.length ≤ m.stream.incoming.length) :
    Reaches (Socks5.step oc) (.write, m) (.select, m.received reads) := by
  have hpos := h.pos
  have hne : m.stream.incoming ≠ [] := List.length_pos_iff.1 (by omega)
  have hdata : m.stream.delivered n (m.readBuf.length - m.readOffset) =
      m.stream.incoming.take m.readBuf.length := by
    rw [Duplex.delivered, h0, Nat.sub_zero, Nat.min_eq_right hn]
  have hstep := read_upTo oc h (h0 ▸ hpos) hr hne hdata
  have hlen : (m.stream.incoming.take m.readBuf.length).length = m.readBuf.length := by simp [hin]
  have hgot : behindRead m reads (m.stream.incoming.take m.readBuf.length) = m.received reads := by
    simp only [behindRead, received, Duplex.behind, hlen, h0, Nat.zero_add, overwrite,
      List.take_zero, List.nil_append, List.drop_length, List.append_nil]
  rw [if_pos (by omega), hgot] at hstep
  exact .head (.inl h.write) (.head (.inl hstep) .refl)

/-- A message that the first read does not deliver whole. -/
theorem Awaits.cut (h : m.Awaits) (h0 : m.readOffset = 0) (hr : m.stream.reads = .upTo n :: reads)
    (hcut : ¬(m.readBuf.length ≤ n + 1 ∧ m.readBuf.length ≤ m.stream.incoming.length))
    (H : Drives (Socks5.step oc) (.write, m) t r) :
    r = .ret (.error (.io .connectionReset)) ∧
      t.2.stream.incoming = m.stream.incoming.drop m.readBuf.length := by
  have hlt : m.readOffset < m.readBuf.length := h0 ▸ h.pos
  have H' := (drives_iff_of_goes (.inl h.write)).1 H
  by_cases hne : m.stream.incoming = []
  · obtain ⟨m', hm', hin'⟩ := read_eof oc h hlt hr hne
    obtain ⟨rfl, rfl⟩ := (drives_iff_of_ready hm').1 H'
    exact ⟨rfl, by simp [hin', hne]⟩
  · obtain ⟨data, hdata⟩ :
        ∃ data, m.stream.delivered n (m.readBuf.length - m.readOffset) = data := ⟨_, rfl⟩
    have hstep := read_upTo oc h hlt hr hne hdata
    have hl : data.length = min (min (n + 1) m.readBuf.length) m.stream.incoming.length := by
      rw [← hdata, Duplex.length_delivered, h0, Nat.sub_zero]
    have hpos : 0 < m.stream.incoming.length := List.length_pos_iff.2 hne
    rw [if_neg (by omega)] at hstep
    have hfits : m.readOffset + data.length ≤ m.readBuf.length := by omega
    have hcut : Cut m.readBuf.length m.stream.incoming (.read, behindRead m reads data) := by
      refine ⟨h.next hfits, by simp [behindRead, length_overwrite _ _ hfits], ?_, ?_, ?_, ?_⟩
      · simp [behindRead]; omega
      · rcases Nat.lt_or_eq_of_le hfits with hlt' | heq
        · exact .inr ⟨hlt', by simp⟩
        · exact .inl ⟨rfl, heq⟩
      · simp [behindRead, Duplex.behind, h0]
      · simp [behindRead]; omega
    exact hcut.drives ((drives_iff_of_goes (.inl hstep)).1 H')

/-- A handshake that awaits a message and becomes ready read the whole message at once, or ended in
`ConnectionReset` with the message consumed. -/
theorem drives_message (h : m.Awaits) (h0 : m.readOffset = 0)
    (H : Drives (Socks5.step oc) (.write, m) t r) :
    ∃ n reads, sizes m.stream.reads = n :: sizes reads ∧
      if m.readBuf.length ≤ n ∧ m.readBuf.length ≤ m.stream.incoming.length then
        Drives (Socks5.step oc) (.select, m.received reads) t r
      else r = .ret (.error (.io .connectionReset)) ∧
        t.2.stream.incoming = m.stream.incoming.drop m.readBuf.length := by
  have hlt : m.readOffset < m.readBuf.length := h0 ▸ h.pos
  have h' : m.awake.Awaits := ⟨h.quiet, h.pos, h.size⟩
  have H' := (h.drives_awake hlt).1 H
  obtain ⟨hsizes, hr | ⟨n, reads, hr⟩⟩ := m.awake_reads
  · exact absurd H' (h'.stalls hlt hr)
  · refine ⟨n + 1, reads, by rw [← hsizes, hr, sizes], ?_⟩
    split
    · next hw => exact (drives_iff_of_reaches (h'.whole oc h0 hr hw.1 hw.2)).1 H'
    · next hw => exact h'.cut h0 hr hw H'

/-- A message that the next read delivers whole is read. -/
theorem Awaits.reads (oc : Bool) (h : m.Awaits) (h0 : m.readOffset = 0)
    (hr : sizes m.stream.reads = n :: cuts) (hn : m.readBuf.length ≤ n)
    (hin : m.readBuf.length ≤ m.stream.incoming.length) :
    ∃ reads, sizes reads = cuts ∧ ∀ t r, Drives (Socks5.step oc) (.write, m) t r ↔
      Drives (Socks5.step oc) (.select, m.received reads) t r := by
  have h' : m.awake.Awaits := ⟨h.quiet, h.pos, h.size⟩
  obtain ⟨hsizes, hd | ⟨k, reads, hd⟩⟩ := m.awake_reads
  · rw [← hsizes, hd] at hr
    cases hr
  · rw [← hsizes, hd, sizes, List.cons.injEq] at hr
    exact ⟨reads, hr.2, fun t r => (h.drives_awake (h0 ▸ h.pos)).trans
      (drives_iff_of_reaches (h'.whole oc h0 hd (hr.1 ▸ hn) hin))⟩

/-! ## A message that was asked for -/

theorem awaits_expect (hw : m.writeBuf = []) (hst : st.Asks len) (hpos : 0 < len) :
    (m.expect st len).Awaits :=
  ⟨hw, by simpa [expect] using hpos, by simpa [expect] using hst⟩

/-- A message of length 0 is there without a read. -/
theorem reaches_expect_zero (oc : Bool) (st : State) (hw : m.writeBuf = []) :
    Reaches (Socks5.step oc) (.write, m.expect st 0)
      (.select, (m.expect st 0).received m.stream.reads) := by
  have hwrite : Socks5.step oc (.write, m.expect st 0) = .again (.read, m.expect st 0) := by
    simp [Socks5.step, writeTurn, expect, hw]
  have hread : Socks5.step oc (.read, m.expect st 0) = .again (.select, m.expect st 0) := by
    simp [Socks5.step, readTurn, expect]
  exact .head (.inl hwrite) (.head (.inl hread) .refl)

/-- A message that the next read delivers whole, or that has no bytes. -/
theorem reaches_received (oc : Bool) (hw : m.writeBuf = []) (hst : st.Asks len)
    (hr : m.stream.reads = .upTo n :: reads) (hn : len ≤ n + 1)
    (hin : len ≤ m.stream.incoming.length) :
    ∃ reads', Reaches (Socks5.step oc) (.write, m.expect st len)
      (.select, (m.expect st len).received reads') ∧ (0 < len → reads' = reads) := by
  rcases Nat.eq_zero_or_pos len with rfl | hpos
  · exact ⟨_, reaches_expect_zero oc st hw, fun h => absurd h (Nat.lt_irrefl 0)⟩
  · have hlen : (m.expect st len).readBuf.length = len := List.length_replicate
    have hwhole := (awaits_expect hw hst hpos).whole oc rfl hr (hlen.symm ▸ hn) (hlen.symm ▸ hin)
    exact ⟨reads, hwhole, fun _ => rfl⟩

/-- A handshake that does not end in `ConnectionReset` read the message it asked for. -/
theorem drives_received (hw : m.writeBuf = []) (hst : st.Asks len)
    (hr : r ≠ .ret (.error (.io .connectionReset)))
    (H : Drives (Socks5.step oc) (.write, m.expect st len) t r) :
    ∃ reads, len ≤ m.stream.incoming.length ∧
      Drives (Socks5.step oc) (.select, (m.expect st len).received reads) t r := by
  rcases Nat.eq_zero_or_pos len with rfl | hpos
  · exact ⟨_, Nat.zero_le _, (drives_iff_of_reaches (reaches_expect_zero oc st hw)).1 H⟩
  · obtain ⟨n, reads, -, hH⟩ := drives_message (awaits_expect hw hst hpos) rfl H
    split at hH
    · next hwhole => exact ⟨reads, by simpa [expect] using hwhole.2, hH⟩
    · exact absurd hH.1 hr

end Fuso.Socks5

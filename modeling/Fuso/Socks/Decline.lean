import Fuso.Guard.Fallback
import Fuso.Socks.Runs

/-!
# How a handshake is declined

The error that lets another adapter have the stream is the one of a greeting that is not of version
5 (`drives_declined`). All that a handshake has done by then is to read, so on a `Fallback` that was
marked before it what was read is still there (`Greeting.drives`).
-/

namespace Fuso
open Turn

/-- The outcome is the error of a client that speaks another protocol. -/
def Declined : Exit α → Prop
  | .ret (.error e) => e.isSocksError
  | _ => False

/-- The errors that the polls of a stream return satisfy `E`. -/
structure Fails (S : Type u) [AsyncRead S] [AsyncWrite S] (E : Error → Prop) : Prop where
  read : ∀ {d d' : S} {buf buf' : ReadBuf} {e : Error},
    AsyncRead.pollRead d buf = (d', buf', .ready (.error e)) → E e
  write : ∀ {d d' : S} {buf : Bytes} {e : Error},
    AsyncWrite.pollWrite d buf = (d', .ready (.error e)) → E e

theorem Duplex.fails : Fails Duplex fun _ => False where
  read {d d' buf buf' e} := by
    simp only [AsyncRead.pollRead, pollRead]
    split_ifs
    · simp
    · split <;> simp
  write {d d' buf e} := by
    simp only [AsyncWrite.pollWrite, pollWrite]
    split <;> simp

/-! ## The turns behind the greeting -/

theorem parseAddress_not_declined : ¬Declined (parseAddress cmd rsv atype data) := by
  have haddr : ∀ e, parseAddr atype data = .ret (.error e) → e.isSocksError = false := by
    intro e h
    unfold parseAddr at h
    split_ifs at h <;> cases h
    rfl
  unfold parseAddress
  split
  · simp [Declined, Error.isSocksError]
  · split
    · split_ifs <;> simp [Declined, Error.isSocksError]
    · next e he => simp [Declined, haddr e he]
    · simp [Declined]
    · simp [Declined]

/-- The turn leaves a state that satisfies `P`, and if it is the last one and declines, then with an
error that satisfies `E`. -/
def Turn.Keeps (E : Error → Prop) (P : σ → Prop) : Turn σ (Exit α) → Prop
  | .again s | .pending s => P s
  | .ready s r => P s ∧ (Declined r → ∃ e, r = .ret (.error e) ∧ E e)

theorem Turn.Keeps.state {turn : Turn σ (Exit α)} (h : turn.Keeps E P) : P turn.state := by
  cases turn with
  | again s | pending s => exact h
  | ready s r => exact h.1

section
variable [AsyncRead S] [AsyncWrite S]

theorem Standard.step_keeps (hE : Fails S E) {s : AuthPc × Standard × S} :
    (Standard.step s).Keeps E fun _ => True := by
  obtain ⟨pc, a, d⟩ := s
  cases pc with
  | write =>
    simp only [step, writeTurn]
    split
    · trivial
    · split
      · trivial
      · next h => exact ⟨trivial, fun _ => ⟨_, rfl, hE.write h⟩⟩
      · split
        · simp [Keeps, Declined, Error.isSocksError]
        · unfold wrote
          split_ifs <;> simp [Keeps, Declined, Error.isSocksError]
  | read =>
    simp only [step, readTurn]
    split
    · trivial
    · split
      · trivial
      · next h => exact ⟨trivial, fun _ => ⟨_, rfl, hE.read h⟩⟩
      · split
        · simp [Keeps, Declined, Error.isSocksError]
        · split
          · unfold full
            split
            · split
              · split <;> simp [Keeps, Declined, Error.isSocksError]
              · simp [Keeps, Declined]
            · split
              · split <;> simp [Keeps, Declined]
              · trivial
          · trivial
  | check =>
    simp only [step, checkTurn]
    split
    · split <;> trivial
    · simp [Keeps, Declined]

theorem S5Authenticate.pollAuth_keeps (hE : Fails S E) {s : AuthPc × S5Authenticate × S} :
    (pollAuth s).Keeps E fun _ => True := by
  obtain ⟨pc, a, d⟩ := s
  cases a with
  | skip reply offset =>
    simp only [pollAuth, skipTurn]
    split
    · trivial
    · next h => exact ⟨trivial, fun _ => ⟨_, rfl, hE.write h⟩⟩
    · split_ifs <;> simp [Turn.map, Keeps, Declined, Error.isSocksError]
  | standard a =>
    have h := Standard.step_keeps hE (s := (pc, a, d))
    simp only [pollAuth]
    cases hturn : Standard.step (pc, a, d) <;> rw [hturn] at h <;> exact h

namespace Socks5

/-- The greeting was taken. -/
def Greeted (s : Pc × Socks5 S) : Prop := s.2.state ≠ .handshake

omit [AsyncRead S] [AsyncWrite S] in
theorem select_keeps {m : Socks5 S} (h : m.state ≠ .handshake) : (m.select oc).Keeps E Greeted := by
  unfold select
  split
  · exact absurd ‹_› h
  · split <;> exact h
  · split
    · unfold onRequest
      split
      · split
        · simp [Keeps, Declined, Error.isSocksError, Greeted, h]
        · split <;> simp [Keeps, Declined, Error.isSocksError, Greeted, expect, h]
      · simp [Keeps, Declined, Greeted, h]
    · split
      · unfold onDomain
        split
        · split <;> simp [Keeps, Declined, Greeted, expect, h]
        · simp [Keeps, Declined, Greeted, h]
      · split
        · unfold onAddress
          split
          · dsimp only
            split <;> simp [Keeps, Greeted]
          · next hparse =>
            exact ⟨h, fun hdecl => absurd (hparse ▸ hdecl) parseAddress_not_declined⟩
          · simp [Keeps, Declined, Greeted, h]
          · simp [Keeps, Declined, Greeted, h]
        · exact h
  · split
    · split <;> simp [Keeps, Declined, Greeted, h]
    · exact h

/-- A handshake that has taken the greeting does not go back to it, and it declines only with an
error of its stream. -/
theorem step_keeps (hE : Fails S E) (oc : Bool) {s : Pc × Socks5 S} (h : Greeted s) :
    (step oc s).Keeps E Greeted := by
  obtain ⟨pc, m⟩ := s
  cases pc with
  | select => exact select_keeps h
  | auth pc =>
    have hauth := S5Authenticate.pollAuth_keeps hE (s := (pc, m.auth, m.stream))
    simp only [step, authTurn]
    split
    · exact h
    · exact h
    · next hready =>
      rw [hready] at hauth
      unfold authenticated
      split
      · simp [Keeps, Greeted, expect]
      · refine ⟨h, fun hdecl => ?_⟩
        obtain ⟨_, he, hstream⟩ := hauth.2 hdecl
        cases he
        exact ⟨_, rfl, hstream⟩
      · exact ⟨h, False.elim⟩
      · exact ⟨h, False.elim⟩
  | write =>
    simp only [step, writeTurn]
    split
    · exact h
    · split
      · exact h
      · next herr => exact ⟨h, fun _ => ⟨_, rfl, hE.write herr⟩⟩
      · split_ifs
        · exact ⟨h, fun hdecl => absurd hdecl (by simp [Declined, Error.isSocksError])⟩
        · exact h
        · exact h
  | read =>
    simp only [step, readTurn]
    split
    · exact h
    · split
      · exact h
      · next herr => exact ⟨h, fun _ => ⟨_, rfl, hE.read herr⟩⟩
      · split_ifs
        · exact ⟨h, fun hdecl => absurd hdecl (by simp [Declined, Error.isSocksError])⟩
        · exact h
        · exact h

/-- No state leads back to the first one. -/
theorem handshake_of_step {s : Pc × Socks5 S} (h : (step oc s).state.2.state = .handshake) :
    s.2.state = .handshake := by
  by_contra hne
  have hany : Fails S fun _ => True := ⟨fun _ => trivial, fun _ => trivial⟩
  exact (step_keeps hany oc hne).state h

end Socks5
end

namespace Socks5

/-- On a stream without errors it does not decline at all. -/
theorem Greeted.drives {s : Pc × Socks5 Duplex} (h : Greeted s) (H : Drives (step oc) s t r) :
    ¬Declined r := by
  refine H.post (I := Greeted) (Q := fun _ r => ¬Declined r) (fun s hs => ?_) h
  have hk := step_keeps Duplex.fails oc hs
  cases hstep : step oc s with
  | again s' => exact .inl ⟨s', .inl hstep, by rwa [hstep] at hk⟩
  | pending s' => exact .inl ⟨s', .inr hstep, by rwa [hstep] at hk⟩
  | ready s' r =>
    rw [hstep] at hk
    refine .inr ⟨s', r, rfl, fun hdecl => ?_⟩
    obtain ⟨_, -, herr⟩ := hk.2 hdecl
    exact herr

/-- A handshake declines a greeting of another version, and nothing else. -/
theorem drives_declined {d : Duplex} {t : Pc × Socks5 Duplex} (hr : Declined r)
    (H : Drives (step oc) (.select, new a d) t r) :
    t.2.state = .handshake ∧ ∃ v rest, d.incoming = v :: rest ∧ v ≠ 0x05 := by
  have hne : r ≠ .ret (.error (.io .connectionReset)) := by
    rintro rfl
    exact absurd hr (by simp [Declined, Error.isSocksError])
  obtain ⟨v, nm, rest, m, hin, hst, -, -, -, hstep, H₁⟩ := drives_head hne H
  by_cases hv : v ≠ 0x05
  · rw [if_pos hv] at hstep
    obtain ⟨rfl, rfl⟩ := (drives_iff_of_ready hstep).1 H₁
    exact ⟨hst, v, _, hin, hv⟩
  · rw [if_neg hv] at hstep
    have hgreeted : Greeted (.write, m.expect (.authentication nm.toNat) nm.toNat) := by
      simp [Greeted, expect]
    exact absurd hr (hgreeted.drives ((drives_iff_of_goes (.inl hstep)).1 H₁))

/-! ## The greeting on a `Fallback` -/

/-- A handshake that has only read from a marked `Fallback` on a stream that held `rx`. -/
structure Greeting (rx : Bytes) (s : Pc × Socks5 (Fallback Duplex)) : Prop where
  pc : s.1 = .select ∨ s.1 = .write ∨ s.1 = .read
  quiet : s.2.writeBuf = []
  fresh : s.2.stream.backedBuf = none
  marking : s.2.stream.markedBuf.isSome
  recorded : s.2.stream.marked ++ s.2.stream.target.incoming = rx

/-- A read of a marked `Fallback` with nothing to be read again. -/
theorem Greeting.pollRead {f : Fallback Duplex} (hb : f.backedBuf = none) (hm : f.markedBuf.isSome)
    (hrx : f.marked ++ f.target.incoming = rx) (n : Nat) :
    ∃ (f' : Fallback Duplex) (buf : ReadBuf) (poll : Poll (Result Nat)),
      AsyncRead.pollRead f (.new n) = (f', buf, poll) ∧
      f'.backedBuf = none ∧ f'.markedBuf.isSome ∧ f'.marked ++ f'.target.incoming = rx ∧
      ∀ e, poll ≠ .ready (.error e) := by
  obtain ⟨reads, buf, rest, hin, ⟨hread, hnil⟩ | ⟨hread, -⟩⟩ := f.target.pollRead_new n
  · refine ⟨{ f with target := { f.target with incoming := rest, reads } }, buf, .pending, ?_, hb,
      hm, ?_, by simp⟩
    · simp only [AsyncRead.pollRead, Fallback.pollRead, hb] at hread ⊢
      rw [hread]
    · rw [hnil, List.nil_append] at hin
      rw [← hrx, hin]
      rfl
  · let f₁ : Fallback Duplex :=
      { f with target := { f.target with incoming := rest, reads }, backedBuf := none }
    have hmarked : (f₁.record buf).marked = f.marked ++ buf.filled := Fallback.marked_record hm buf
    refine ⟨f₁.record buf, buf, .ready (.ok buf.filled.length), ?_, rfl, ?_, ?_, by simp⟩
    · simp only [AsyncRead.pollRead, Fallback.pollRead, hb] at hread ⊢
      rw [hread]
    · rwa [Fallback.isSome_record]
    · rw [hmarked, ← hrx, hin, List.append_assoc]
      rfl

theorem Greeting.step {s : Pc × Socks5 (Fallback Duplex)} (h : Greeting rx s)
    (hst : (Socks5.step oc s).state.2.state = .handshake) :
    Greeting rx (Socks5.step oc s).state := by
  have hst₀ := handshake_of_step hst
  obtain ⟨pc, m⟩ := s
  obtain ⟨hpc, hw, hb, hm, hrx⟩ := h
  dsimp only at *
  revert hst
  obtain rfl | rfl | rfl := hpc
  · simp only [Socks5.step, select, hst₀]
    split
    · exact fun _ => ⟨by simp [Turn.state], hw, hb, hm, hrx⟩
    · split
      · unfold onHead
        split
        · exact fun _ => ⟨by simp [Turn.state], hw, hb, hm, hrx⟩
        · simp [Turn.state, expect]
      · exact fun _ => ⟨by simp [Turn.state], hw, hb, hm, hrx⟩
  · simp only [Socks5.step, writeTurn, hw, List.isEmpty_nil, if_true]
    exact fun _ => ⟨by simp [Turn.state], hw, hb, hm, hrx⟩
  · simp only [Socks5.step, readTurn]
    split
    · exact fun _ => ⟨by simp [Turn.state], hw, hb, hm, hrx⟩
    · obtain ⟨f', buf, poll, hread, hb', hm', hrx', herr⟩ :=
        Greeting.pollRead hb hm hrx (m.readBuf.length - m.readOffset)
      simp only [hread]
      rcases poll with _ | e | n
      · exact fun _ => ⟨by simp [Turn.state], hw, hb', hm', hrx'⟩
      · exact absurd rfl (herr e)
      · dsimp only
        split_ifs <;> exact fun _ => ⟨by simp [Turn.state], hw, hb', hm', hrx'⟩

/-- A handshake that ends in front of its second state has left nothing but a record behind. -/
theorem Greeting.drives {s t : Pc × Socks5 (Fallback Duplex)} (h : Greeting rx s)
    (H : Drives (Socks5.step oc) s t r) : t.2.state = .handshake → Greeting rx t := by
  refine H.post (I := fun s => s.2.state = .handshake → Greeting rx s)
    (Q := fun t _ => t.2.state = .handshake → Greeting rx t) (fun s hs => ?_) fun _ => h
  have hnext : (Socks5.step oc s).state.2.state = .handshake →
      Greeting rx (Socks5.step oc s).state :=
    fun hst => (hs (handshake_of_step hst)).step hst
  cases hstep : Socks5.step oc s with
  | again s' => exact .inl ⟨s', .inl hstep, by rwa [hstep] at hnext⟩
  | pending s' => exact .inl ⟨s', .inr hstep, by rwa [hstep] at hnext⟩
  | ready s' r => exact .inr ⟨s', r, rfl, by rwa [hstep] at hnext⟩

end Socks5
end Fuso

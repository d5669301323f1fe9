import Fuso.Socks.Handshake

/-!
# The handshake on a stream seen through another

A turn of the handshake on a stream is a turn of the handshake on its view (`Socks5.step_view`), so
it runs the same on both (`Socks5.drives_view`).
-/

namespace Fuso
open Turn

/-! ## The negotiation -/

namespace Standard

theorem wrote_view (g : S → T) (a : Standard) (buf : Bytes) (d : S) :
    a.wrote buf (g d) = (a.wrote buf d).map (fun s => (s.1, s.2.1, g s.2.2)) id := by
  unfold wrote
  split_ifs <;> rfl

theorem full_view (g : S → T) (a : Standard) (buf : Bytes) (d : S) :
    a.full buf (g d) = (a.full buf d).map (fun s => (s.1, s.2.1, g s.2.2)) id := by
  unfold full
  split
  · split
    · split <;> rfl
    · rfl
  · split
    · split <;> rfl
    · rfl

theorem state_wrote (a : Standard) (buf : Bytes) (d : S) : (a.wrote buf d).state.2.2 = d := by
  unfold wrote
  split_ifs <;> rfl

theorem state_full (a : Standard) (buf : Bytes) (d : S) : (a.full buf d).state.2.2 = d := by
  unfold full
  split
  · split
    · split <;> rfl
    · rfl
  · split
    · split <;> rfl
    · rfl

end Standard

section
variable [AsyncRead S] [AsyncWrite S] [AsyncRead T] [AsyncWrite T] {g : S → T} {I : S → Prop}

namespace Standard

theorem step_view (h : View g I) {s : AuthPc × Standard × S} (hs : I s.2.2) :
    step (s.1, s.2.1, g s.2.2) = (step s).map (fun s => (s.1, s.2.1, g s.2.2)) id ∧
      I (step s).state.2.2 := by
  obtain ⟨pc, a, d⟩ := s
  cases pc with
  | write =>
    simp only [step, writeTurn]
    cases a.wbuf with
    | none => exact ⟨rfl, hs⟩
    | some buf =>
      obtain ⟨hI, hw⟩ := h.write d (buf.drop a.wpos) hs
      dsimp only
      rw [hw]
      generalize pollWrite d (buf.drop a.wpos) = w at hI ⊢
      obtain ⟨d', p⟩ := w
      cases p with
      | pending => exact ⟨rfl, hI⟩
      | ready r =>
        cases r with
        | error e => exact ⟨rfl, hI⟩
        | ok n =>
          dsimp only
          split
          · exact ⟨rfl, hI⟩
          · exact ⟨wrote_view _ _ _ _, by rwa [state_wrote]⟩
  | read =>
    simp only [step, readTurn]
    cases a.rbuf with
    | none => exact ⟨rfl, hs⟩
    | some buf =>
      obtain ⟨hI, hr⟩ := h.read d (.new (buf.length - a.rpos)) hs
      dsimp only
      rw [hr]
      generalize pollRead d (.new (buf.length - a.rpos)) = w at hI ⊢
      obtain ⟨d', rb, p⟩ := w
      cases p with
      | pending => exact ⟨rfl, hI⟩
      | ready r =>
        cases r with
        | error e => exact ⟨rfl, hI⟩
        | ok n =>
          dsimp only
          split
          · exact ⟨rfl, hI⟩
          · split
            · exact ⟨full_view _ _ _ _, by rwa [state_full]⟩
            · exact ⟨rfl, hI⟩
  | check =>
    simp only [step, checkTurn]
    split
    · split <;> exact ⟨rfl, hs⟩
    · exact ⟨rfl, hs⟩

end Standard

theorem skipTurn_view (h : View g I) (reply : Bytes) (offset : Nat) {d : S} (hd : I d) :
    skipTurn reply offset (g d) = (skipTurn reply offset d).map (fun s => (s.1, g s.2)) id ∧
      I (skipTurn reply offset d).state.2 := by
  obtain ⟨hI, hw⟩ := h.write d (reply.drop offset) hd
  simp only [skipTurn]
  rw [hw]
  generalize pollWrite d (reply.drop offset) = w at hI ⊢
  obtain ⟨d', p⟩ := w
  cases p with
  | pending => exact ⟨rfl, hI⟩
  | ready r =>
    cases r with
    | error e => exact ⟨rfl, hI⟩
    | ok n =>
      dsimp only
      split
      · exact ⟨rfl, hI⟩
      · split <;> exact ⟨rfl, hI⟩

theorem S5Authenticate.pollAuth_view (h : View g I) {s : AuthPc × S5Authenticate × S}
    (hs : I s.2.2) :
    pollAuth (s.1, s.2.1, g s.2.2) = (pollAuth s).map (fun s => (s.1, s.2.1, g s.2.2)) id ∧
      I (pollAuth s).state.2.2 := by
  obtain ⟨pc, a, d⟩ := s
  cases a with
  | skip reply offset =>
    obtain ⟨hv, hI⟩ := skipTurn_view h reply offset hs
    simp only [pollAuth, hv]
    cases hturn : skipTurn reply offset d <;> rw [hturn] at hI <;> exact ⟨rfl, hI⟩
  | standard a =>
    obtain ⟨hv, hI⟩ := Standard.step_view h (s := (pc, a, d)) hs
    simp only [pollAuth] at hv ⊢
    rw [hv]
    cases hturn : Standard.step (pc, a, d) <;> rw [hturn] at hI <;> exact ⟨rfl, hI⟩

/-! ## The handshake -/

namespace Socks5

/-- The handshake with its stream seen through `g`. -/
def view (g : S → T) (s : Pc × Socks5 S) : Pc × Socks5 T :=
  (s.1, { s.2 with stream := g s.2.stream })

theorem select_view (oc : Bool) (m : Socks5 S) :
    step oc (view g (.select, m)) = (step oc (.select, m)).map (view g) id ∧
      (step oc (.select, m)).state.2.stream = m.stream := by
  obtain ⟨state, readBuf, writeBuf, readOffset, writeOffset, auth, stream⟩ := m
  simp only [step, view, select]
  cases state with
  | handshake =>
    dsimp only
    split
    · exact ⟨rfl, rfl⟩
    · split
      · simp only [onHead]
        split <;> exact ⟨rfl, rfl⟩
      · exact ⟨rfl, rfl⟩
  | authentication methods =>
    dsimp only
    split <;> exact ⟨rfl, rfl⟩
  | request ver cmd rsv atype n =>
    dsimp only
    split
    · simp only [onRequest]
      split
      · split
        · exact ⟨rfl, rfl⟩
        · split <;> exact ⟨rfl, rfl⟩
      · exact ⟨rfl, rfl⟩
    · split
      · simp only [onDomain]
        split
        · split <;> exact ⟨rfl, rfl⟩
        · exact ⟨rfl, rfl⟩
      · split
        · simp only [onAddress]
          split
          · split <;> exact ⟨rfl, rfl⟩
          all_goals exact ⟨rfl, rfl⟩
        · exact ⟨rfl, rfl⟩
  | success socket =>
    dsimp only
    split
    · split <;> exact ⟨rfl, rfl⟩
    · exact ⟨rfl, rfl⟩

theorem step_view (h : View g I) {s : Pc × Socks5 S} (hs : I s.2.stream) :
    step oc (view g s) = (step oc s).map (view g) id ∧ I (step oc s).state.2.stream := by
  obtain ⟨pc, m⟩ := s
  cases pc with
  | select =>
    obtain ⟨hv, hstream⟩ := select_view (g := g) oc m
    exact ⟨hv, hstream ▸ hs⟩
  | auth pc =>
    obtain ⟨hv, hI⟩ := S5Authenticate.pollAuth_view h (s := (pc, m.auth, m.stream)) hs
    simp only [step, view, authTurn] at hv ⊢
    rw [hv]
    cases hturn : S5Authenticate.pollAuth (pc, m.auth, m.stream) with
    | again s => exact ⟨rfl, by rwa [hturn] at hI⟩
    | pending s => exact ⟨rfl, by rwa [hturn] at hI⟩
    | ready s r =>
      rw [hturn] at hI
      rcases r with (e | _) | _ | _ <;> exact ⟨rfl, hI⟩
  | write =>
    obtain ⟨hI, hw⟩ := h.write m.stream (m.writeBuf.drop m.writeOffset) hs
    simp only [step, view, writeTurn]
    split
    · exact ⟨rfl, hs⟩
    · rw [hw]
      generalize pollWrite m.stream (m.writeBuf.drop m.writeOffset) = w at hI ⊢
      obtain ⟨d', p⟩ := w
      cases p with
      | pending => exact ⟨rfl, hI⟩
      | ready r =>
        cases r with
        | error e => exact ⟨rfl, hI⟩
        | ok n =>
          dsimp only
          split
          · exact ⟨rfl, hI⟩
          · split <;> exact ⟨rfl, hI⟩
  | read =>
    obtain ⟨hI, hr⟩ := h.read m.stream (.new (m.readBuf.length - m.readOffset)) hs
    simp only [step, view, readTurn]
    split
    · exact ⟨rfl, hs⟩
    · rw [hr]
      generalize pollRead m.stream (.new (m.readBuf.length - m.readOffset)) = w at hI ⊢
      obtain ⟨d', rb, p⟩ := w
      cases p with
      | pending => exact ⟨rfl, hI⟩
      | ready r =>
        cases r with
        | error e => exact ⟨rfl, hI⟩
        | ok n =>
          dsimp only
          split
          · exact ⟨rfl, hI⟩
          · split <;> exact ⟨rfl, hI⟩

/-- A handshake runs the same on a stream and on its view. -/
theorem drives_view (h : View g I) {s t : Pc × Socks5 S} (hs : I s.2.stream)
    (H : Drives (step oc) s t r) : Drives (step oc) (view g s) (view g t) r :=
  H.map (I := fun s => I s.2.stream) (fun _ _ hs hg => hg.state_eq ▸ (step_view h hs).2)
    (fun _ hs => (step_view h hs).1) hs

end Socks5
end
end Fuso

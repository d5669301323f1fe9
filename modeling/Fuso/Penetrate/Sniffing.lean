import Fuso.Penetrate.Selector
import Fuso.Socks.Consumed
import Fuso.Socks.Decline
import Fuso.Socks.View

/-!
# Sniffing is transparent

What a visit hands over with the shipped chain of adapters, a SOCKS adapter in front of
`DirectMock`. A visit that is routed has written and left in its streams what the adapter owes the
other side (`Transparent`) unless a SOCKS request has the octet 255 for the length of a name
(`transparent_iff`).
-/

namespace Fuso.Visit
open Turn Socks5

/-- Whether `get_auth!` asks for a password. -/
def asksPassword (cfg : Config) : Bool := cfg.socks5Password.isSome

/-- What is written to `dst` and what can still be read from `src` is what the visitor sent, behind
its request if it was the SOCKS adapter that took the visitor. -/
def Transparent (cfg : Config) (visitor dst : Duplex) (adapter : Adapter) (src dst' : Duplex) :
    Prop :=
  ∃ data, dst'.sent = dst.sent ++ data ∧
    if adapter = .directMock then visitor.incoming = data ++ src.incoming
    else ∃ request, Socks5.Request (asksPassword cfg) request ∧
      visitor.incoming = request ++ (data ++ src.incoming)

theorem fresh_getAuth (cfg : Config) : Fresh cfg.getAuth (asksPassword cfg) := by
  obtain ⟨_, _, username, password, _⟩ := cfg
  cases password with
  | none => exact .skip
  | some pwd =>
    cases username with
    | none => exact .standard _ _
    | some username => exact .standard _ _

section
variable {oc : Bool} {cfg : Config} {dst : Duplex}

/-! ## The hand-over -/

theorem backData_eq (f : Fallback S) :
    f.backData = ({ f with backedBuf := none }, if f.backed = [] then none else some f.backed) := by
  cases hb : f.backedBuf with
  | none => simp [Fallback.backData, Fallback.backed, hb]
  | some b =>
    simp only [Fallback.backData, Fallback.backed, hb, Option.bind_some, Option.elim_some,
      Buffer.readToBuffer_fst, b.len_contents, List.take_length, List.isEmpty_iff]

/-- A visitor that is handed over is preceded by what was read from it and can be read again. -/
theorem mapped_route {f : Fallback Duplex}
    (H : Drives (step oc cfg dst) (.mapped a f) t (.ret (.ok (.route adapter src dst')))) :
    adapter = a ∧ src = f.backward.target ∧ dst'.sent = dst.sent ++ f.backward.backed := by
  let f₁ : Fallback Duplex := { f.backward with backedBuf := none }
  by_cases hnil : f.backward.backed = []
  · have hstep : step oc cfg dst (.mapped a f) =
        .ready (.mapped a f₁) (.ret (.ok (.route a f₁.intoInner dst))) := by
      simp only [step, backData_eq, if_pos hnil, f₁]
    obtain ⟨-, hr⟩ := (drives_iff_of_ready hstep).1 H
    cases hr
    exact ⟨rfl, rfl, by rw [hnil, List.append_nil]⟩
  · have hstep : step oc cfg dst (.mapped a f) =
        .again (.copy a f₁ ((f.backward.backed, 0), dst)) := by
      simp only [step, backData_eq, if_neg hnil, f₁]
    have H₁ := (drives_iff_of_goes (.inl hstep)).1 H
    obtain ⟨t₁, t₂, r, H₂, hready, H₃⟩ := Drives.nested WriteAll.step
      (Visit.copy a f₁) (t := ((f.backward.backed, 0), dst))
      (fun s s' h => by simp [step, h])
      (fun s s' h => ⟨_, by simp only [step, h], .inl rfl⟩) H₁
    obtain ⟨rfl, hsent⟩ := WriteAll.drives hnil H₂
    have hlast : step oc cfg dst (.copy a f₁ t₁) =
        .ready (.copy a f₁ t₂) (.ret (.ok (.route a f₁.intoInner t₂.2))) := by
      simp only [step, hready]
    obtain ⟨-, hr⟩ := (drives_iff_of_ready hlast).1 H₃
    cases hr
    exact ⟨rfl, rfl, hsent⟩

/-- `DirectMock` takes the visitor with what was read from it. -/
theorem direct_route {f : Fallback Duplex} (hrx : f.backed ++ f.marked ++ f.target.incoming = rx)
    (H : Drives (step oc cfg dst) (.select [.directMock] f) t
      (.ret (.ok (.route adapter src dst')))) :
    adapter = .directMock ∧ ∃ data, dst'.sent = dst.sent ++ data ∧ rx = data ++ src.incoming := by
  have hstep : step oc cfg dst (.select [.directMock] f) = .again (.mapped .directMock f.mark) :=
    rfl
  obtain ⟨rfl, rfl, hsent⟩ := mapped_route ((drives_iff_of_goes (.inl hstep)).1 H)
  obtain ⟨hbacked, -, htarget⟩ := Fallback.backward_of_some f.isSome_mark
  rw [hbacked, Fallback.backed_mark, Fallback.marked_mark] at hsent
  exact ⟨rfl, _, hsent, by rw [htarget, Fallback.target_mark, hrx]⟩

/-! ## Behind the handshake -/

/-- A visitor that asks for udp forwarding is not routed. -/
theorem finishUdp_not_route :
    ¬Drives (step oc cfg dst) (.finishUdp writeAll) t (.ret (.ok (.route adapter src dst'))) := by
  intro H
  refine H.post (I := fun s => ∃ writeAll, s = .finishUdp writeAll)
    (Q := fun _ r => r ≠ .ret (.ok (.route adapter src dst'))) ?_ ⟨_, rfl⟩ rfl
  rintro _ ⟨writeAll, rfl⟩
  cases hw : WriteAll.step writeAll with
  | again writeAll' => exact .inl ⟨_, .inl (by simp only [step, hw]; rfl), _, rfl⟩
  | pending writeAll' => exact .inl ⟨_, .inr (by simp only [step, hw]; rfl), _, rfl⟩
  | ready writeAll' r =>
    cases r with
    | ok => exact .inr ⟨_, _, by simp only [step, hw]; rfl, by simp⟩
    | error e => exact .inr ⟨_, _, by simp only [step, hw]; rfl, by simp⟩

/-- What the handshake has read is not given to the other side. -/
theorem onSocket_route {s : Visit} {f : Fallback Duplex}
    (hstep : step oc cfg dst s = onSocket cfg a socket f)
    (H : Drives (step oc cfg dst) s t (.ret (.ok (.route adapter src dst')))) :
    adapter = a ∧ src = f.target ∧ dst'.sent = dst.sent := by
  unfold onSocket at hstep
  split at hstep
  · obtain ⟨rfl, rfl, hsent⟩ := mapped_route ((drives_iff_of_goes (.inl hstep)).1 H)
    rw [Fallback.backward_of_none rfl] at hsent ⊢
    exact ⟨rfl, rfl, by simpa [Fallback.backed, Fallback.consumeBackData] using hsent⟩
  · split at hstep
    · cases ((drives_iff_of_ready hstep).1 H).2
    · exact absurd ((drives_iff_of_goes (.inl hstep)).1 H) finishUdp_not_route
  · cases ((drives_iff_of_ready hstep).1 H).2

/-- A handshake that is polled by a visit. -/
theorem handshake_nested {socks : Pc × Socks5 (Fallback Duplex)}
    (H : Drives (step oc cfg dst) (.handshake a adapters socks) t r) :
    ∃ socks₁ socks' r', Drives (Socks5.step oc) socks socks' r' ∧
      Socks5.step oc socks₁ = .ready socks' r' ∧
      Drives (step oc cfg dst) (.handshake a adapters socks₁) t r :=
  Drives.nested _ (Visit.handshake a adapters) (fun s s' h => by simp only [step, h])
    (fun s s' h => ⟨_, by simp only [step, h], .inl rfl⟩) H

/-- A visit whose SOCKS adapter is asked. -/
theorem handshake_route {visitor : Duplex} {f : Fallback Duplex} (ha : a ≠ .directMock)
    (hf : f.target = visitor ∧ f.strict = false ∧ f.backedBuf = none ∧ f.marked = [] ∧
      f.markedBuf.isSome)
    (H : Drives (step oc cfg dst) (.handshake a [.directMock] (.select, Socks5.new cfg.getAuth f)) t
      (.ret (.ok (.route adapter src dst')))) :
    Transparent cfg visitor dst adapter src dst' ↔
      Aligned (asksPassword cfg) visitor.incoming := by
  obtain ⟨hftarget, hstrict, hbacked, hmarked, hsome⟩ := hf
  obtain ⟨socks₁, ⟨pc, m⟩, r', H₁, hready, H₂⟩ := handshake_nested H
  have Hview := drives_view Fallback.view (s := (.select, Socks5.new cfg.getAuth f))
    ⟨hbacked, hstrict⟩ H₁
  simp only [view, Socks5.new, hftarget] at Hview
  rcases r' with (e | socket) | _ | _
  · by_cases he : e.isSocksError
    · have hstep : step oc cfg dst (.handshake a [.directMock] socks₁) =
          .again (.select [.directMock] m.stream.backward) := by
        simp only [step, hready, if_pos he]
      obtain ⟨hst, v, rest, hin, hv⟩ := drives_declined (r := .ret (.error e)) he Hview
      have hgreeting : Greeting visitor.incoming (.select, Socks5.new cfg.getAuth f) :=
        ⟨.inl rfl, rfl, hbacked, hsome, by simp [Socks5.new, hmarked, hftarget]⟩
      obtain ⟨-, -, hfresh, hmarking, hrx⟩ := hgreeting.drives H₁ hst
      obtain ⟨hb, hnone, htarget⟩ := Fallback.backward_of_some hmarking
      have hrx' : m.stream.backward.backed ++ m.stream.backward.marked ++
          m.stream.backward.target.incoming = visitor.incoming := by
        rw [hb, htarget, ← hrx]
        dsimp only at hfresh hnone ⊢
        simp [Fallback.backed, Fallback.marked, hnone, hfresh]
      obtain ⟨rfl, data, hsent, hdata⟩ := direct_route hrx' ((drives_iff_of_goes (.inl hstep)).1 H₂)
      refine iff_of_true ⟨data, hsent, by rw [if_pos rfl, hdata]⟩ ?_
      rintro front k len rest' ⟨nm, methods, login, cmd, rsv, -, -, rfl⟩ heq
      exact absurd (List.cons.inj (hin.symm.trans heq)).1 hv
    · have hstep : step oc cfg dst (.handshake a [.directMock] socks₁) =
          .ready (.handshake a [.directMock] (pc, m)) (.ret (.error e)) := by
        simp only [step, hready, if_neg he]
      cases ((drives_iff_of_ready hstep).1 H₂).2
  · have hstep : step oc cfg dst (.handshake a [.directMock] socks₁) =
        onSocket cfg a socket m.stream := by
      simp only [step, hready]
    obtain ⟨rfl, rfl, hsent⟩ := onSocket_route hstep H₂
    obtain ⟨atype, front, addr, hfront, htaken, hrx⟩ := consumed_fields (fresh_getAuth cfg) Hview
    rw [← ends_request_iff hfront htaken hrx]
    unfold Transparent
    simp only [if_neg ha, hsent, List.self_eq_append_right, exists_eq_left, List.nil_append]
  · have hstep : step oc cfg dst (.handshake a [.directMock] socks₁) =
        .ready (.handshake a [.directMock] (pc, m)) .panic := by simp only [step, hready]
    cases ((drives_iff_of_ready hstep).1 H₂).2
  · have hstep : step oc cfg dst (.handshake a [.directMock] socks₁) =
        .ready (.handshake a [.directMock] (pc, m)) .undefined := by simp only [step, hready]
    cases ((drives_iff_of_ready hstep).1 H₂).2

/-- A routed visit is transparent exactly when the SOCKS adapter is off or the visitor's request, if
it sends one, is aligned. -/
theorem transparent_iff {visitor : Duplex} (ha : a ≠ .directMock)
    (H : Drives (step oc cfg dst) (start visitor [a, .directMock]) t
      (.ret (.ok (.route adapter src dst')))) :
    Transparent cfg visitor dst adapter src dst' ↔
      (cfg.enableSocks → Aligned (asksPassword cfg) visitor.incoming) := by
  let f : Fallback Duplex := (Fallback.new visitor false).mark.mark
  have hstep : step oc cfg dst (start visitor [a, .directMock]) =
      if cfg.enableSocks then
        .again (.handshake a [.directMock] (.select, Socks5.new cfg.getAuth f))
      else .again (.select [.directMock] f.backward) := by
    simp only [start, step, if_neg ha]
    rfl
  by_cases hs : cfg.enableSocks
  · rw [if_pos hs] at hstep
    simp only [hs, forall_const]
    exact handshake_route ha ⟨rfl, rfl, rfl, rfl, rfl⟩ ((drives_iff_of_goes (.inl hstep)).1 H)
  · rw [if_neg hs] at hstep
    refine iff_of_true ?_ fun h => absurd h hs
    have hrx : f.backward.backed ++ f.backward.marked ++ f.backward.target.incoming =
      visitor.incoming := rfl
    obtain ⟨rfl, data, hsent, hdata⟩ := direct_route hrx
      ((drives_iff_of_goes (.inl hstep)).1 H)
    exact ⟨data, hsent, by rw [if_pos rfl, hdata]⟩

end

/-- A visitor that asks for the name `host` and goes on with `body`. -/
def asking (host body : Bytes) : Duplex :=
  { incoming := [0x05, 0x01, 0x00, 0x05, 0x01, 0x00, 0x03] ++
      (.ofNat host.length :: (host ++ toBeBytes 80 ++ body))
    reads := .replicate 6 (.upTo 299), writes := .replicate 2 (.upTo 9), closes := [], sent := [] }

/-- A data connection that nothing was written to. -/
def mapping : Duplex := { incoming := [], reads := [], writes := [], closes := [], sent := [] }

/-- A server with the SOCKS adapter on, without a password. -/
def socksOn : Config where
  enableSocks := true
  enableSocksUdp := false
  socks5Username := none
  socks5Password := none
  whoami := []

theorem front_asking : Front false 0x03 [0x05, 0x01, 0x00, 0x05, 0x01, 0x00, 0x03] :=
  ⟨0x01, [0x00], [], 0x01, 0x00, rfl, rfl, rfl⟩

/-- The visitor behind the handshake, with `incoming` still to be read. -/
def answered (visitor : Duplex) (incoming : Bytes) (reads : List Answer) : Duplex :=
  { visitor with incoming, reads, writes := [], sent := [0x05, 0x00] ++ reply 0x00 }

/-- A request for a name of 11 bytes, and two bytes behind it. -/
theorem transparent_iff_asking :
    Transparent socksOn (asking (.replicate 11 48) [1, 2]) mapping .simpleSocksMock
      (answered (asking (.replicate 11 48) [1, 2]) [1, 2] [.upTo 299]) mapping := by
  have H : Drives (step false socksOn mapping)
      (start (asking (.replicate 11 48) [1, 2]) [.simpleSocksMock, .directMock]) _
      (.ret (.ok (.route .simpleSocksMock
        (answered (asking (.replicate 11 48) [1, 2]) [1, 2] [.upTo 299]) mapping))) :=
    drives_of_run (n := 40) rfl
  exact (transparent_iff (by decide) H).2 fun _ => aligned_of_ne front_asking rfl (by decide)

set_option maxRecDepth 10000 in
/-- Of a request for a name of 255 bytes, the handshake takes the first byte of the name for its
length and leaves most of it to the other side. -/
theorem not_transparent : ¬∀ (oc : Bool) (cfg : Config) (a : Adapter) (visitor dst : Duplex)
    (t : Visit) (adapter : Adapter) (src dst' : Duplex), a ≠ .directMock →
    Drives (step oc cfg dst) (start visitor [a, .directMock]) t
      (.ret (.ok (.route adapter src dst'))) → Transparent cfg visitor dst adapter src dst' := by
  intro h
  let visitor := asking (.replicate 255 48) [1, 2]
  have H : Drives (step false socksOn mapping) (start visitor [.simpleSocksMock, .directMock]) _
      (.ret (.ok (.route .simpleSocksMock (answered visitor (visitor.incoming.drop 59) [])
        mapping))) := drives_of_run (n := 40) rfl
  obtain ⟨data, hdata, request, hrequest, heq⟩ := h _ _ _ _ _ _ _ _ _ (by decide) H
  obtain rfl : data = [] := by simpa [mapping] using hdata
  have htaken : TakenFields 0x03 (.replicate 1 255 ++ 48 :: .replicate 50 48) :=
    .domain 1 48 (by decide) rfl
  have hrx : visitor.incoming = [0x05, 0x01, 0x00, 0x05, 0x01, 0x00, 0x03] ++
    ((.replicate 1 255 ++ 48 :: .replicate 50 48) ++ visitor.incoming.drop 59) := rfl
  have haligned : Aligned false visitor.incoming :=
    (ends_request_iff front_asking htaken hrx).1 ⟨request, hrequest, heq⟩
  have := haligned _ 1 48 _ front_asking rfl (by decide)
  simp at this

end Fuso.Visit

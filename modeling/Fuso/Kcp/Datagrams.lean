import Fuso.Kcp.Arrival
import Fuso.Kcp.Core

/-!
# What a datagram is taken for

Every datagram is a row of segments and a tail, which is too short for a header or for the data that
its header promises (`exists_segments`). `Kcp::input` takes the segments one by one and fails at a
tail with a header, and `Session::input` calls it once: what it leaves is too short for another turn
(`session_input_once`).
-/

namespace Fuso.ThirdParty

namespace Kcp

/-- There is no complete segment at the front. -/
def Incomplete (buf : Bytes) : Prop :=
  buf.length < overhead ∨ buf.length < overhead + (header buf).2

/-- The segment at the front. -/
def firstSegment (buf : Bytes) : KcpSegment :=
  { (header buf).1 with data := (buf.drop overhead).take (header buf).2 }

/-- A segment as it comes out of its encoding. -/
structure Received (s : KcpSegment) : Prop where
  wire_eq : s.wire = s
  length_lt : s.data.length < 2 ^ 32

/-- A complete segment in the loop of `input`. -/
def accept (k : Kcp) (acked : Option UInt32) (seg : KcpSegment) :
    Kcp × KcpResult (Option UInt32) :=
  if seg.conv ≠ k.conv ∧ !k.inputConv then (k, .error (.convInconsistent k.conv seg.conv))
  else
    let k := if seg.conv ≠ k.conv then { k with conv := seg.conv, inputConv := false } else k
    if !knownCmd seg.cmd then (k, .error (.unsupportedCmd seg.cmd))
    else
      let (k, acked) := k.inputSegment seg acked
      (k, .ok acked)

/-- The segments of a datagram, each of them once and in their order, up to the first that is not
accepted. -/
def acceptAll (k : Kcp) (acked : Option UInt32) : List KcpSegment → Kcp × KcpResult (Option UInt32)
  | [] => (k, .ok acked)
  | seg :: segs =>
    match k.accept acked seg with
    | (k, .error e) => (k, .error e)
    | (k, .ok acked) => acceptAll k acked segs

/-- A header whose data is cut off. -/
def rejectTail (k : Kcp) (tail : Bytes) : Kcp × KcpResult (Option UInt32) :=
  let (seg, len) := header tail
  if seg.conv ≠ k.conv ∧ !k.inputConv then (k, .error (.convInconsistent k.conv seg.conv))
  else
    (if seg.conv ≠ k.conv then { k with conv := seg.conv, inputConv := false } else k,
      .error (.invalidSegmentDataSize len (tail.drop overhead).length))

/-- A datagram. -/
def acceptDatagram (k : Kcp) (segs : List KcpSegment) (tail : Bytes) :
    Kcp × KcpResult (Option UInt32) :=
  match k.acceptAll none segs with
  | (k, .error e) => (k, .error e)
  | (k, .ok acked) => if tail.length < overhead then (k, .ok acked) else k.rejectTail tail

/-- What `input` does behind its loop. -/
def settle (old k : Kcp) (acked : Option UInt32) : Kcp :=
  let k := match acked with
    | some sn => k.parseFastack sn
    | none => k
  if old.sndUna < k.sndUna ∧ k.cwnd < k.rmtWnd then k.grow else k

/-! ## The segments of a datagram -/

theorem take_one_drop {bytes : Bytes} (h : i < bytes.length) :
    (bytes.drop i).take 1 = [bytes.getD i 0] := by
  rw [List.drop_eq_getElem_cons h, List.take_succ_cons, List.take_zero]
  simp [h]

theorem toLeBytes_ofNat {bytes : Bytes} (h : bytes.length = 4) :
    toLeBytes (UInt32.ofNat (fromLeBytes bytes)).toNat = bytes := by
  have hlt := fromLeBytes_lt bytes
  rw [h] at hlt
  have hmod : fromLeBytes bytes % 2 ^ 32 = fromLeBytes bytes := Nat.mod_eq_of_lt hlt
  rw [UInt32.toNat_ofNat', hmod, toLeBytes_fromLeBytes h]

theorem toLeBytes16_ofNat {bytes : Bytes} (h : bytes.length = 2) :
    toLeBytes16 (UInt16.ofNat (fromLeBytes bytes)).toNat = bytes := by
  obtain ⟨a, b, rfl⟩ := List.length_eq_two.1 h
  have ha := a.toNat_lt
  have hb := b.toNat_lt
  simp only [toLeBytes16, fromLeBytes, List.cons.injEq, and_true, ← UInt8.toNat_inj,
    UInt8.toNat_ofNat', UInt16.toNat_ofNat']
  omega

/-- A header and its data are the encoding of a segment. -/
theorem encode_header {buf : Bytes} (h : overhead + (header buf).2 ≤ buf.length) :
    (firstSegment buf).encode ++ buf.drop (overhead + (header buf).2) = buf := by
  have hlen : 24 ≤ buf.length := by
    unfold overhead at h
    omega
  have hdata : ((buf.drop overhead).take (header buf).2).length = (header buf).2 := by
    rw [List.length_take, List.length_drop]
    omega
  have hsize : toLeBytes ((header buf).2 % 2 ^ 32) = (buf.drop 20).take 4 := by
    have h4 : ((buf.drop 20).take 4).length = 4 := by simp; omega
    have hlt := fromLeBytes_lt ((buf.drop 20).take 4)
    rw [h4] at hlt
    have hmod : (header buf).2 % 2 ^ 32 = fromLeBytes ((buf.drop 20).take 4) :=
      Nat.mod_eq_of_lt hlt
    rw [hmod, toLeBytes_fromLeBytes h4]
  have hword : ∀ i, i + 4 ≤ 24 →
      toLeBytes (UInt32.ofNat (fromLeBytes ((buf.drop i).take 4))).toNat = (buf.drop i).take 4 :=
    fun i hi => toLeBytes_ofNat (by simp; omega)
  have hwnd : toLeBytes16 (UInt16.ofNat (fromLeBytes ((buf.drop 6).take 2))).toNat =
      (buf.drop 6).take 2 := toLeBytes16_ofNat (by simp; omega)
  have hfront : buf.take overhead = (buf.drop 0).take 4 ++ ([buf.getD 4 0, buf.getD 5 0] ++
      ((buf.drop 6).take 2 ++ ((buf.drop 8).take 4 ++ ((buf.drop 12).take 4 ++
        ((buf.drop 16).take 4 ++ (buf.drop 20).take 4))))) := by
    have hsum : overhead = 4 + (1 + (1 + (2 + (4 + (4 + (4 + 4)))))) := rfl
    rw [hsum]
    simp only [List.take_add, List.drop_drop]
    rw [take_one_drop (by omega), take_one_drop (by omega)]
    rfl
  have hencode : (firstSegment buf).encode =
      buf.take overhead ++ (buf.drop overhead).take (header buf).2 := by
    have hconv := hword 0 (by omega)
    simp only [List.drop_zero] at hconv
    simp only [firstSegment, KcpSegment.encode, header] at hsize hdata ⊢
    rw [hdata, hsize, hconv, hword 8 (by omega), hword 12 (by omega), hword 16 (by omega), hwnd,
      hfront]
    simp only [List.append_assoc, List.drop_zero]
  rw [hencode, List.append_assoc, ← List.drop_drop, List.take_append_drop,
    List.take_append_drop]

/-- What is read of a header is a segment as it comes out of its encoding. -/
theorem received_firstSegment (buf : Bytes) : Received (firstSegment buf) where
  wire_eq := rfl
  length_lt := by
    have hlt := fromLeBytes_lt ((buf.drop 20).take 4)
    have h4 : ((buf.drop 20).take 4).length ≤ 4 := List.length_take_le _ _
    have hpow := Nat.pow_le_pow_right (n := 256) (by omega) h4
    have hlen : ((buf.drop overhead).take (header buf).2).length ≤ (header buf).2 :=
      List.length_take_le _ _
    have hsize : (header buf).2 = fromLeBytes ((buf.drop 20).take 4) := rfl
    have hdata : (firstSegment buf).data = (buf.drop overhead).take (header buf).2 := rfl
    rw [hdata]
    omega

/-- Every datagram is a row of complete segments with a tail that is not one. -/
theorem exists_segments (data : Bytes) :
    ∃ (segs : List KcpSegment) (tail : Bytes), data = segs.flatMap (·.encode) ++ tail ∧
      Incomplete tail ∧ ∀ s ∈ segs, Received s := by
  induction hn : data.length using Nat.strongRecOn generalizing data with
  | ind n ih =>
    by_cases hshort : data.length < overhead + (header data).2
    · exact ⟨[], data, rfl, .inr hshort, fun s hs => by cases hs⟩
    · have hwhole : overhead + (header data).2 ≤ data.length := Nat.le_of_not_lt hshort
      have hless : (data.drop (overhead + (header data).2)).length < n := by
        have hpos : 0 < overhead := by decide
        rw [List.length_drop]
        omega
      obtain ⟨segs, tail, hrest, htail, hsegs⟩ := ih _ hless _ rfl
      refine ⟨firstSegment data :: segs, tail, ?_, htail, ?_⟩
      · rw [List.flatMap_cons, List.append_assoc, ← hrest]
        exact (encode_header hwhole).symm
      · intro s hs
        rcases List.mem_cons.1 hs with rfl | hs
        · exact received_firstSegment data
        · exact hsegs s hs

/-! ## The loops -/

/-- A turn of the loop of `input` at a complete segment. -/
theorem inputLoop_accept (k : Kcp) (acked : Option UInt32) (s : KcpSegment) (rest : Bytes)
    (hs : Received s) (fuel : Nat) :
    inputLoop (fuel + 1) k acked (s.encode ++ rest) =
      match k.accept acked s with
      | (k, .error e) => (k, .error e)
      | (k, .ok acked) => inputLoop fuel k acked rest := by
  obtain ⟨hheader, hdrop⟩ := header_encode s rest hs.length_lt
  have hlong : ¬ (s.encode ++ rest).length < overhead := by
    rw [List.length_append, s.length_encode]
    omega
  have hfits : ¬ (s.data ++ rest).length < s.data.length := by
    rw [List.length_append]
    omega
  rw [hs.wire_eq] at hheader
  conv_lhs => unfold inputLoop
  simp only [if_neg hlong, hheader, hdrop, if_neg hfits, List.take_left, List.drop_left, accept]
  split
  · rfl
  · split <;> rfl

/-- The turn at the tail. -/
theorem inputLoop_tail (k : Kcp) (acked : Option UInt32) {tail : Bytes} (h : Incomplete tail)
    (fuel : Nat) :
    inputLoop (fuel + 1) k acked tail =
      if tail.length < overhead then (k, .ok (acked, tail))
      else ((k.rejectTail tail).1, (k.rejectTail tail).2.map fun _ => (acked, tail)) := by
  unfold inputLoop
  split
  · rfl
  · next hlong =>
    have hcut : (tail.drop overhead).length < (header tail).2 := by
      have := h.resolve_left hlong
      rw [List.length_drop]
      omega
    simp only [rejectTail, if_pos hcut]
    split <;> rfl

/-- With a turn for every segment and one for the tail the loop comes to its end. -/
theorem inputLoop_datagram (k : Kcp) (acked : Option UInt32) {segs : List KcpSegment} {tail : Bytes}
    (hsegs : ∀ s ∈ segs, Received s) (htail : Incomplete tail) (hfuel : segs.length < fuel) :
    inputLoop fuel k acked (segs.flatMap (·.encode) ++ tail) =
      match k.acceptAll acked segs with
      | (k, .error e) => (k, .error e)
      | (k, .ok acked) =>
        if tail.length < overhead then (k, .ok (acked, tail))
        else ((k.rejectTail tail).1, (k.rejectTail tail).2.map fun _ => (acked, tail)) := by
  induction segs generalizing k acked fuel with
  | nil =>
    obtain ⟨fuel, rfl⟩ : ∃ m, fuel = m + 1 := Nat.exists_eq_add_one.2 (by simpa using hfuel)
    exact inputLoop_tail k acked htail fuel
  | cons s segs ih =>
    obtain ⟨fuel, rfl⟩ : ∃ m, fuel = m + 1 := Nat.exists_eq_add_one.2 (by simp at hfuel; omega)
    rw [List.flatMap_cons, List.append_assoc,
      inputLoop_accept k acked s _ (hsegs s List.mem_cons_self)]
    simp only [acceptAll]
    cases haccept : k.accept acked s with
    | mk k' r =>
      cases r with
      | error e => rfl
      | ok acked' =>
        exact ih k' acked' (fun s hs => hsegs s (List.mem_cons_of_mem _ hs)) (by simpa using hfuel)

theorem rejectTail_error (k : Kcp) (tail : Bytes) : ∃ k' e, k.rejectTail tail = (k', .error e) := by
  simp only [rejectTail]
  split <;> exact ⟨_, _, rfl⟩

/-- `input` takes all segments of a datagram, and returns how many bytes these are. -/
theorem input_datagram (k : Kcp) {segs : List KcpSegment} {data tail : Bytes}
    (hdata : data = segs.flatMap (·.encode) ++ tail) (hsegs : ∀ s ∈ segs, Received s)
    (htail : Incomplete tail) (hlong : overhead ≤ data.length) :
    k.input data =
      match k.acceptDatagram segs tail with
      | (k', .error e) => (k', .error e)
      | (k', .ok acked) => (k.settle k' acked, .ok (data.length - tail.length)) := by
  have hfuel : segs.length < data.length := by
    have hlen := length_encodings segs
    have hsum := congrArg List.length hdata
    rw [List.length_append] at hsum
    unfold overhead at hlen hlong
    omega
  have hloop := inputLoop_datagram k none hsegs htail hfuel
  rw [← hdata] at hloop
  unfold input acceptDatagram
  rw [if_neg (Nat.not_lt.2 hlong), hloop]
  cases k.acceptAll none segs with
  | mk k' r =>
    cases r with
    | error e => rfl
    | ok acked =>
      by_cases hshort : tail.length < overhead
      · simp only [if_pos hshort]
        rfl
      · obtain ⟨k'', e, hreject⟩ := rejectTail_error k' tail
        simp only [if_neg hshort, hreject]
        rfl

/-- A datagram that is taken has a tail without a header. -/
theorem acceptDatagram_ok {k k' : Kcp} (h : k.acceptDatagram segs tail = (k', .ok acked)) :
    tail.length < overhead := by
  unfold acceptDatagram at h
  split at h
  · cases h
  · split at h
    · assumption
    · next k₁ _ _ _ =>
      obtain ⟨k'', e, hreject⟩ := rejectTail_error k₁ tail
      rw [hreject] at h
      cases h

end Kcp
end Fuso.ThirdParty

namespace Fuso.Kcp
open ThirdParty Kcp

/-- A datagram in the core of a session. -/
def KcpCore.acceptDatagram (c : KcpCore) (segs : List KcpSegment) (tail : Bytes) :
    KcpCore × KcpResult Unit :=
  match c.kcp.acceptDatagram segs tail with
  | (kcp, .error e) => ({ c with kcp }, .error e)
  | (kcp, .ok acked) => ({ c with kcp := c.kcp.settle kcp acked }, .ok ())

theorem Session.inputLoop_short {c : KcpCore} (h : next.length < overhead) (data : Bytes)
    (fuel : Nat) : inputLoop data fuel c next = (c, .ok ()) := by
  cases fuel with
  | zero => rfl
  | succ fuel => rw [inputLoop, if_neg (Nat.not_le.2 h)]

/-- The loop of `Session::input` calls `Kcp::input` once. -/
theorem Session.inputLoop_datagram (c : KcpCore) {segs : List KcpSegment} {data tail : Bytes}
    (hdata : data = segs.flatMap (·.encode) ++ tail) (hsegs : ∀ s ∈ segs, Received s)
    (htail : Incomplete tail) (hlong : overhead ≤ data.length) (hfuel : 2 ≤ fuel) :
    inputLoop data fuel c data = c.acceptDatagram segs tail := by
  obtain ⟨fuel, rfl⟩ : ∃ m, fuel = m + 1 := Nat.exists_eq_add_one.2 (by omega)
  have hinput := input_datagram c.kcp hdata hsegs htail hlong
  rw [inputLoop, if_pos hlong, hinput, KcpCore.acceptDatagram]
  cases haccept : c.kcp.acceptDatagram segs tail with
  | mk k r =>
    cases r with
    | error e => rfl
    | ok acked =>
      have hrest : data.drop (data.length - tail.length) = tail := by
        rw [hdata, List.length_append, Nat.add_sub_cancel, List.drop_left]
      simp only [hrest]
      exact inputLoop_short (acceptDatagram_ok haccept) data fuel

/-- Every datagram is a row of complete segments and a tail. The loop of `Session::input` ends, and
so does the one of `Kcp::input`; the segments are taken once each and in order, up to the first that
is an error; and a position that is returned is the one of the tail, which is too short for another
turn. -/
theorem session_input_once (c : KcpCore) (data : Bytes) :
    ∃ (segs : List KcpSegment) (tail : Bytes),
      data = segs.flatMap (·.encode) ++ tail ∧ Incomplete tail ∧ (∀ s ∈ segs, Received s) ∧
      (∀ fuel, 2 ≤ fuel ∨ fuel = data.length → Session.inputLoop data fuel c data =
        if data.length < overhead then (c, .ok ()) else c.acceptDatagram segs tail) ∧
      (∀ fuel, segs.length < fuel → Kcp.inputLoop fuel c.kcp none data =
        Kcp.inputLoop (segs.length + 1) c.kcp none data) ∧
      ∀ k n, c.kcp.input data = (k, .ok n) →
        n ≤ data.length ∧ data.drop n = tail ∧ tail.length < overhead := by
  obtain ⟨segs, tail, hdata, htail, hsegs⟩ := exists_segments data
  refine ⟨segs, tail, hdata, htail, hsegs, ?_, ?_, ?_⟩
  · intro fuel hfuel
    split
    · next hshort => exact Session.inputLoop_short hshort data fuel
    · next hlong =>
      have hlen : overhead ≤ data.length := Nat.le_of_not_lt hlong
      refine Session.inputLoop_datagram c hdata hsegs htail hlen ?_
      unfold overhead at hlen
      omega
  · intro fuel hfuel
    rw [hdata, Kcp.inputLoop_datagram c.kcp none hsegs htail hfuel,
      Kcp.inputLoop_datagram c.kcp none hsegs htail (Nat.lt_succ_self _)]
  · intro k n hinput
    have hlong : overhead ≤ data.length := by
      apply Nat.le_of_not_lt
      intro hshort
      rw [Kcp.input, if_pos hshort] at hinput
      cases hinput
    rw [input_datagram c.kcp hdata hsegs htail hlong] at hinput
    cases haccept : c.kcp.acceptDatagram segs tail with
    | mk k' r =>
      rw [haccept] at hinput
      cases r with
      | error e => cases hinput
      | ok acked =>
        cases hinput
        refine ⟨Nat.sub_le _ _, ?_, acceptDatagram_ok haccept⟩
        rw [hdata, List.length_append, Nat.add_sub_cancel, List.drop_left]

end Fuso.Kcp

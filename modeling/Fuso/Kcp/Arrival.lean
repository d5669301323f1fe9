import Fuso.Kcp.Update

/-!
# Packets that arrive

`input` takes the segments of a packet one by one, as they were encoded (`input_segments`). Only
data and the segments that close a conversation change what is received.
-/

namespace Fuso.ThirdParty

/-- The segment with what its encoding has of it. -/
def KcpSegment.wire (s : KcpSegment) : KcpSegment :=
  { conv := s.conv, cmd := s.cmd, frg := s.frg, wnd := s.wnd, ts := s.ts, sn := s.sn, una := s.una,
    data := s.data }

/-- The segment can be encoded, and belongs to the conversation. -/
structure KcpSegment.Fits (conv : UInt32) (s : KcpSegment) : Prop where
  conv_eq : s.conv = conv
  known : Kcp.knownCmd s.cmd
  length_lt : s.data.length < 2 ^ 32

theorem fromLeBytes_toLeBytes16 (n : UInt16) : fromLeBytes (toLeBytes16 n.toNat) = n.toNat := by
  have := n.toNat_lt
  simp [toLeBytes16, fromLeBytes]
  omega

namespace Kcp

theorem header_encode (s : KcpSegment) (rest : Bytes) (h : s.data.length < 2 ^ 32) :
    header (s.encode ++ rest) = ({ s.wire with data := [] }, s.data.length) ∧
      (s.encode ++ rest).drop overhead = s.data ++ rest := by
  have hheader : header (s.encode ++ rest) =
      ({ conv := .ofNat (fromLeBytes (toLeBytes s.conv.toNat)), cmd := s.cmd, frg := s.frg
         wnd := .ofNat (fromLeBytes (toLeBytes16 s.wnd.toNat))
         ts := .ofNat (fromLeBytes (toLeBytes s.ts.toNat))
         sn := .ofNat (fromLeBytes (toLeBytes s.sn.toNat))
         una := .ofNat (fromLeBytes (toLeBytes s.una.toNat)) },
        fromLeBytes (toLeBytes (s.data.length % 2 ^ 32))) := rfl
  refine ⟨?_, rfl⟩
  rw [hheader, Nat.mod_eq_of_lt h, fromLeBytes_toLeBytes h, fromLeBytes_toLeBytes16,
    fromLeBytes_toLeBytes s.conv.toNat_lt, fromLeBytes_toLeBytes s.ts.toNat_lt,
    fromLeBytes_toLeBytes s.sn.toNat_lt, fromLeBytes_toLeBytes s.una.toNat_lt]
  simp [KcpSegment.wire]

/-- A turn of the loop of `input`. -/
theorem inputLoop_encode (k : Kcp) (acked : Option UInt32) (s : KcpSegment) (rest : Bytes)
    (hlen : s.data.length < 2 ^ 32) (hconv : s.conv = k.conv) (hcmd : knownCmd s.cmd) (fuel : Nat) :
    inputLoop (fuel + 1) k acked (s.encode ++ rest) =
      inputLoop fuel (k.inputSegment s.wire acked).1 (k.inputSegment s.wire acked).2 rest := by
  obtain ⟨hheader, hdrop⟩ := header_encode s rest hlen
  have hlong : ¬ (s.encode ++ rest).length < overhead := by
    rw [List.length_append, s.length_encode]
    omega
  have hfits : ¬ (s.data ++ rest).length < s.data.length := by
    rw [List.length_append]
    omega
  conv_lhs => unfold inputLoop
  simp only [if_neg hlong, hheader, hdrop, KcpSegment.wire, hconv, ne_eq, not_true_eq_false,
    false_and, if_false, if_neg hfits, hcmd, Bool.not_true, Bool.false_eq_true, List.take_left,
    List.drop_left]

/-! ## What stays -/

theorem steady_updateAck (k : Kcp) (rtt : UInt32) : (k.updateAck rtt).steady = k.steady := by
  unfold updateAck steady standing sending
  simp only
  split <;> rfl

theorem steady_parseAck (k : Kcp) (sn : UInt32) : (k.parseAck sn).steady = k.steady := by
  unfold parseAck
  split <;> rfl

theorem steady_parseFastack (k : Kcp) (sn : UInt32) : (k.parseFastack sn).steady = k.steady := by
  unfold parseFastack
  split <;> rfl

theorem steady_inputAck (k : Kcp) (seg : KcpSegment) : (k.inputAck seg).steady = k.steady := by
  have hshrink : ∀ k : Kcp, k.shrinkBuf.steady = k.steady := fun _ => rfl
  rw [inputAck, hshrink, steady_parseAck]
  split
  · exact steady_updateAck k _
  · rfl

theorem steady_grow (k : Kcp) : k.grow.steady = k.steady := by
  have hcwnd : k.growCwnd.steady = k.steady := by
    unfold growCwnd
    split
    · rfl
    · simp only
      split <;> split <;> rfl
  have hcap : ∀ k : Kcp, k.capCwnd.steady = k.steady := fun k => by
    unfold capCwnd
    split <;> rfl
  rw [grow, hcap, hcwnd]

theorem steady_grow_if (k : Kcp) (c : Prop) [Decidable c] :
    (if c then k.grow else k).steady = k.steady := by
  split
  · exact steady_grow k
  · rfl

/-- Only data and the segments that close a conversation matter. -/
theorem standing_inputSegment (k : Kcp) (seg : KcpSegment) (acked : Option UInt32)
    (h : seg.cmd = cmdAck ∨ seg.cmd = cmdWask ∨ seg.cmd = cmdWins) :
    (k.inputSegment seg acked).1.standing = k.standing := by
  rcases h with h | h | h <;> simp only [inputSegment, h]
  · exact congrArg Prod.fst (steady_inputAck _ seg)
  · rfl
  · rfl

/-- What the header of a segment says about the packets that were sent. -/
def inputHeader (k : Kcp) (seg : KcpSegment) : Kcp :=
  (({ k with rmtWnd := seg.wnd }).parseUna seg.una).shrinkBuf

theorem inputSegment_push (k : Kcp) (acked : Option UInt32) (h : seg.cmd = cmdPush) :
    (k.inputSegment seg acked).1 = (k.inputHeader seg).inputPush seg := by
  simp only [inputSegment, h]
  rfl

theorem inputSegment_cls (k : Kcp) (acked : Option UInt32) (h : seg.cmd = cmdCls) :
    (k.inputSegment seg acked).1 = (k.inputHeader seg).inputCls := by
  simp only [inputSegment, h]
  rfl

theorem closing_inputPush (k : Kcp) (seg : KcpSegment) :
    (k.inputPush seg).conv = k.conv ∧ (k.inputPush seg).closeState = k.closeState := by
  unfold inputPush
  split
  · simp only
    split
    · unfold parseData
      split <;> exact ⟨rfl, rfl⟩
    · exact ⟨rfl, rfl⟩
  · exact ⟨rfl, rfl⟩

/-! ## What is to be sent -/

theorem sending_inputPush (k : Kcp) (seg : KcpSegment) :
    (k.inputPush seg).sending = k.sending := by
  unfold inputPush
  split
  · simp only
    split
    · unfold parseData
      split <;> rfl
    · rfl
  · rfl

theorem sending_inputCls (k : Kcp) : k.inputCls.sending = k.sending := by
  unfold inputCls
  simp only
  split <;> split <;> rfl

/-- No segment that arrives matters. -/
theorem sending_inputSegment (k : Kcp) (seg : KcpSegment) (acked : Option UInt32) :
    (k.inputSegment seg acked).1.sending = k.sending := by
  have hheader : (k.inputHeader seg).sending = k.sending := rfl
  unfold inputSegment
  simp only
  split
  · exact congrArg Prod.snd (steady_inputAck (k.inputHeader seg) seg)
  split
  · exact sending_inputPush (k.inputHeader seg) seg
  split
  · rfl
  split
  · exact sending_inputCls (k.inputHeader seg)
  split <;> exact hheader

theorem sending_inputLoop (fuel : Nat) (k : Kcp) (acked : Option UInt32) (buf : Bytes) :
    (inputLoop fuel k acked buf).1.sending = k.sending := by
  induction fuel generalizing k acked buf with
  | zero => rfl
  | succ fuel ih =>
    have hconv : ∀ (c : Prop) [Decidable c] (conv : UInt32),
        (if c then { k with conv, inputConv := false } else k).sending = k.sending :=
      fun c _ conv => by split <;> rfl
    unfold inputLoop
    split
    · rfl
    simp only
    split
    · rfl
    split
    · exact hconv _ _
    split
    · exact hconv _ _
    · exact (ih _ _ _).trans ((sending_inputSegment _ _ _).trans (hconv _ _))

theorem sending_input (k : Kcp) (buf : Bytes) : (k.input buf).1.sending = k.sending := by
  have hloop := sending_inputLoop buf.length k none buf
  unfold input
  split
  · rfl
  split
  · next k' e heq =>
    rw [heq] at hloop
    exact hloop
  · next k' acked rest heq =>
    rw [heq] at hloop
    cases acked with
    | none => exact (congrArg Prod.snd (steady_grow_if _ _)).trans hloop
    | some sn =>
      have hack := congrArg Prod.snd (steady_parseFastack k' sn)
      exact (congrArg Prod.snd (steady_grow_if _ _)).trans (hack.trans hloop)

/-! ## The segments of a packet -/

section
variable {P : Nat → Kcp → Prop} {conv : UInt32} {segs : List KcpSegment}

/-- The invariant rule of `input`, for an invariant that counts the segments. -/
theorem inputLoop_segments (hfits : ∀ s ∈ segs, s.Fits conv)
    (hconv : ∀ n k, P n k → k.conv = conv)
    (hstep : ∀ n k acked, ∀ s ∈ segs, P n k → P (n + 1) (k.inputSegment s.wire acked).1)
    (hP : P n k) (hfuel : segs.length ≤ fuel) (acked : Option UInt32) :
    ∃ k' acked', inputLoop fuel k acked (segs.flatMap (·.encode)) = (k', .ok (acked', [])) ∧
      P (n + segs.length) k' := by
  induction segs generalizing n k acked fuel with
  | nil =>
    refine ⟨k, acked, ?_, hP⟩
    cases fuel with
    | zero => rfl
    | succ fuel => rfl
  | cons s segs ih =>
    obtain ⟨fuel, rfl⟩ : ∃ m, fuel = m + 1 := Nat.exists_eq_add_one.2 (by simp at hfuel; omega)
    have hs := hfits s List.mem_cons_self
    obtain ⟨k', acked', hloop, hP'⟩ := ih (fun s hs => hfits s (List.mem_cons_of_mem _ hs))
      (fun n k acked s hs => hstep n k acked s (List.mem_cons_of_mem _ hs))
      (hstep n k acked s List.mem_cons_self hP) (by simpa using hfuel)
      (k.inputSegment s.wire acked).2
    refine ⟨k', acked', ?_, ?_⟩
    · rw [List.flatMap_cons, inputLoop_encode k acked s _ hs.length_lt
        (hs.conv_eq.trans (hconv n k hP).symm) hs.known, hloop]
    · rw [List.length_cons, Nat.add_comm segs.length, ← Nat.add_assoc]
      exact hP'

theorem length_encodings (segs : List KcpSegment) :
    overhead * segs.length ≤ (segs.flatMap (·.encode)).length := by
  induction segs with
  | nil => exact Nat.zero_le _
  | cons s segs ih =>
    rw [List.flatMap_cons, List.length_append, s.length_encode, List.length_cons, Nat.mul_succ]
    omega

theorem input_segments (hfits : ∀ s ∈ segs, s.Fits conv) (hconv : ∀ n k, P n k → k.conv = conv)
    (hstep : ∀ n k acked, ∀ s ∈ segs, P n k → P (n + 1) (k.inputSegment s.wire acked).1)
    (hstanding : ∀ n k k', k'.standing = k.standing → P n k → P n k')
    (hP : P 0 k) (hne : segs ≠ []) :
    ∃ k', k.input (segs.flatMap (·.encode)) = (k', .ok (segs.flatMap (·.encode)).length) ∧
      P segs.length k' := by
  have hlen := length_encodings segs
  have hpos : 0 < segs.length := List.length_pos_iff.2 hne
  have hlong : ¬ (segs.flatMap (·.encode)).length < overhead := by
    have := Nat.mul_le_mul_left overhead hpos
    omega
  have hfuel : segs.length ≤ (segs.flatMap (·.encode)).length :=
    (Nat.le_mul_of_pos_left _ (by decide)).trans hlen
  obtain ⟨k', acked, hloop, hP'⟩ := inputLoop_segments hfits hconv hstep hP hfuel none
  rw [Nat.zero_add] at hP'
  unfold input
  simp only [if_neg hlong, hloop, List.length_nil, Nat.sub_zero]
  refine ⟨_, rfl, hstanding _ k' _ ?_ hP'⟩
  cases acked with
  | none => exact congrArg Prod.fst (steady_grow_if _ _)
  | some sn =>
    have hack := congrArg Prod.fst (steady_parseFastack k' sn)
    exact (congrArg Prod.fst (steady_grow_if _ _)).trans hack

end
end Kcp
end Fuso.ThirdParty

import Fuso.Kcp.Core
import Fuso.Kcp.Window

/-!
# The messages of an endpoint

What `poll_write` makes of the messages that are written: segments of the size `mss`, with the bytes
of the messages that are taken.
-/

namespace Fuso.Kcp
open ThirdParty

/-- The segments of the messages that are written, the one with the number 0 first. -/
def segments (messages : List Bytes) : List KcpSegment :=
  (messages.foldl (fun c data => (c.pollWrite 0 data).1) (KcpCore.new 0 0)).kcp.sndQueue

/-- The bytes of the messages that `poll_write` takes. -/
def taken (messages : List Bytes) : Bytes :=
  (messages.filter fun data => Kcp.segmentCount 1376 data < wndRcv).flatten

theorem bytes_fragments {mss : Nat} (n : Nat) (data : Bytes) (hn : data.length ≤ n * mss) :
    bytes (Kcp.fragments mss false n data) = data ∧
      ∀ s ∈ Kcp.fragments mss false n data, s.data.length ≤ mss := by
  induction n generalizing data with
  | zero =>
    obtain rfl : data = [] := List.length_eq_zero_iff.1 (by omega)
    exact ⟨rfl, by simp [Kcp.fragments]⟩
  | succ n ih =>
    have hdrop : (data.drop mss).length ≤ n * mss := by
      rw [List.length_drop, Nat.sub_le_iff_le_add, ← Nat.succ_mul]
      exact hn
    obtain ⟨hbytes, hlen⟩ := ih (data.drop mss) hdrop
    unfold Kcp.fragments
    refine ⟨?_, fun s hs => ?_⟩
    · rw [bytes_cons, hbytes, List.take_append_drop]
    · rcases List.mem_cons.1 hs with rfl | hs
      · exact List.length_take_le _ _
      · exact hlen s hs

theorem length_le_segmentCount (data : Bytes) :
    data.length ≤ Kcp.segmentCount 1376 data * 1376 := by
  unfold Kcp.segmentCount
  split <;> omega

/-- An endpoint that only writes, with the messages of `data` in its queue. -/
structure Writes (data : Bytes) (c : KcpCore) : Prop where
  opened : c.kcp.closeState = .no
  mss_eq : c.kcp.mss = 1376
  stream_eq : c.kcp.stream = false
  bytes_eq : bytes c.kcp.sndQueue = data
  length_le : ∀ s ∈ c.kcp.sndQueue, s.data.length ≤ 1376

theorem Writes.pollWrite {c : KcpCore} (h : Writes data c) (message : Bytes) :
    Writes (data ++ taken [message]) (c.pollWrite 0 message).1 := by
  have hsend : c.kcp.send message =
      if wndRcv ≤ Kcp.segmentCount 1376 message then (c.kcp, .error .userBufTooBig)
      else
        ({ c.kcp with
          sndQueue := c.kcp.sndQueue ++
            Kcp.fragments 1376 false (Kcp.segmentCount 1376 message) message },
          .ok message.length) := by
    have hmss : c.kcp.mss.toNat = 1376 := by rw [h.mss_eq]; rfl
    unfold Kcp.send
    simp only [h.opened, h.stream_eq, hmss, ne_eq, not_true_eq_false, if_false,
      Bool.false_eq_true, false_and]
  unfold KcpCore.pollWrite
  rw [hsend]
  by_cases hbig : wndRcv ≤ Kcp.segmentCount 1376 message
  · have htaken : taken [message] = [] := by simp [taken, Nat.not_lt.2 hbig]
    simp only [if_pos hbig, htaken, List.append_nil]
    exact ⟨h.opened, h.mss_eq, h.stream_eq, h.bytes_eq, h.length_le⟩
  · have htaken : taken [message] = message := by simp [taken, Nat.lt_of_not_le hbig]
    obtain ⟨hbytes, hlen⟩ := bytes_fragments _ message (length_le_segmentCount message)
    simp only [if_neg hbig, htaken]
    refine ⟨h.opened, h.mss_eq, h.stream_eq, ?_, fun s hs => ?_⟩
    · rw [bytes_append, h.bytes_eq, hbytes]
    · rcases List.mem_append.1 hs with hs | hs
      · exact h.length_le s hs
      · exact hlen s hs

theorem segments_spec (messages : List Bytes) :
    bytes (segments messages) = taken messages ∧
      ∀ s ∈ segments messages, s.data.length ≤ 1376 := by
  have hfold : ∀ data c, Writes data c → Writes (data ++ taken messages)
      (messages.foldl (fun c data => (c.pollWrite 0 data).1) c) := by
    induction messages with
    | nil =>
      intro data c h
      simpa [taken] using h
    | cons message messages ih =>
      intro data c h
      have htaken : taken (message :: messages) = taken [message] ++ taken messages := by
        rw [taken, ← List.singleton_append, List.filter_append, List.flatten_append]
        rfl
      rw [htaken, ← List.append_assoc]
      exact ih _ _ (h.pollWrite message)
  have hnew : Writes [] (KcpCore.new 0 0) := ⟨rfl, rfl, rfl, rfl, fun s hs => by cases hs⟩
  have h := hfold [] _ hnew
  exact ⟨h.bytes_eq, h.length_le⟩

end Fuso.Kcp

import Mathlib.Algebra.Order.Ring.Nat
import Mathlib.Algebra.BigOperators.Group.List.Basic
import Mathlib.Data.List.Induction
import Fuso.Theory.Run

/-!
# Offsets in a ring

Blocks that are laid one behind the other into a ring, from its start again when the next offset
reaches a limit. `offset limit sizes` is the offset behind blocks of the given sizes. The blocks
fall into rounds, each of which ends with the block that reaches the limit (`exists_rounds`), and
two rings with different limits have the same offsets as long as no round of the longer one comes to
lie between the two limits (`offset_eq_iff`).
-/

namespace Fuso.Ring

/-- The offset behind a block of `size` at `off`. -/
def advance (limit size off : Nat) : Nat := if limit ≤ off + size then 0 else off + size

def offset (limit : Nat) (sizes : List Nat) : Nat := after (advance limit) 0 sizes

/-- The blocks of one time round the ring. -/
def Round (limit : Nat) (sizes : List Nat) : Prop :=
  ∃ init last, sizes = init ++ [last] ∧ init.sum < limit ∧ limit ≤ init.sum + last

/-- No block ends between the limits `lo` and `hi` in a ring that is left at `hi`. -/
def NoGap (lo hi : Nat) (sizes : List Nat) : Prop :=
  ∀ (rounds : List (List Nat)) (seg : List Nat), (∀ round ∈ rounds, Round hi round) →
    rounds.flatten ++ seg <+: sizes → ¬(lo ≤ seg.sum ∧ seg.sum < hi)

variable {limit lo hi : Nat} {sizes round : List Nat}

theorem offset_concat (sizes : List Nat) (size : Nat) :
    offset limit (sizes ++ [size]) = advance limit size (offset limit sizes) :=
  after_concat _ _ _ _

theorem offset_lt (hpos : 0 < limit) (sizes : List Nat) : offset limit sizes < limit := by
  refine after_invariant (I := (· < limit)) (fun off size _ => ?_) hpos
  unfold advance
  split <;> omega

theorem after_segment {seg : List Nat} (hlt : off + seg.sum < limit) :
    after (advance limit) off seg = off + seg.sum := by
  induction seg generalizing off with
  | nil => rfl
  | cons size seg ih =>
    rw [List.sum_cons] at hlt ⊢
    rw [after_cons, advance, if_neg (by omega), ih (by omega)]
    omega

theorem after_round (h : Round limit round) : after (advance limit) 0 round = 0 := by
  obtain ⟨init, last, rfl, hlt, hle⟩ := h
  rw [after_concat, after_segment (by omega), advance, if_pos (by omega)]

/-- The offset is the sum of the blocks since the last round. -/
theorem offset_rounds {rounds : List (List Nat)} (hr : ∀ round ∈ rounds, Round limit round)
    (hlt : seg.sum < limit) : offset limit (rounds.flatten ++ seg) = seg.sum := by
  induction rounds with
  | nil =>
    have h : after (advance limit) 0 seg = 0 + seg.sum := after_segment (by omega)
    simpa [offset] using h
  | cons round rounds ih =>
    have hround : Round limit round := hr _ List.mem_cons_self
    rw [List.flatten_cons, List.append_assoc, offset, after_append, after_round hround]
    exact ih fun r h => hr r (List.mem_cons_of_mem _ h)

/-- The blocks fall into rounds. -/
theorem exists_rounds (hpos : 0 < limit) (sizes : List Nat) :
    ∃ (rounds : List (List Nat)) (seg : List Nat), sizes = rounds.flatten ++ seg ∧
      (∀ round ∈ rounds, Round limit round) ∧ seg.sum < limit := by
  induction sizes using List.reverseRecOn with
  | nil => exact ⟨[], [], rfl, by simp, hpos⟩
  | append_singleton sizes size ih =>
    obtain ⟨rounds, seg, rfl, hr, hlt⟩ := ih
    by_cases hle : limit ≤ seg.sum + size
    · refine ⟨rounds ++ [seg ++ [size]], [], by simp, ?_, hpos⟩
      intro round hround
      rcases List.mem_append.1 hround with h | h
      · exact hr round h
      · rw [List.mem_singleton.1 h]
        exact ⟨seg, size, rfl, hlt, hle⟩
    · exact ⟨rounds, seg ++ [size], by simp, hr, by simp; omega⟩

/-- Two rings are in step along a list of blocks exactly when no block ends between their limits. -/
theorem offset_eq_iff (hpos : 0 < lo) (hle : lo ≤ hi) :
    (∀ pre, pre <+: sizes → offset hi pre = offset lo pre) ↔ NoGap lo hi sizes := by
  constructor
  · rintro h rounds seg hr hpre ⟨hlo, hhi⟩
    have hlt := offset_lt hpos (rounds.flatten ++ seg)
    rw [← h _ hpre, offset_rounds hr hhi] at hlt
    omega
  · intro h pre hpre
    induction pre using List.reverseRecOn with
    | nil => rfl
    | append_singleton pre size ih =>
      have hsame := ih ((List.prefix_append _ _).trans hpre)
      obtain ⟨rounds, seg, rfl, hr, hlt⟩ := exists_rounds (show 0 < hi by omega) pre
      rw [offset_concat, offset_concat, ← hsame, offset_rounds hr hlt]
      have hgap := h rounds (seg ++ [size]) hr (by rwa [← List.append_assoc])
      rw [List.sum_append, List.sum_singleton] at hgap
      unfold advance
      split_ifs <;> omega

end Fuso.Ring

import Mathlib.Data.List.Infix

/-!
# Frames that say how long they are

A frame begins with a head of fixed size, and the head says how many symbols follow. No frame
continues another one (`Frame.inj`), so a stream falls into frames in one way: a frame that a stream
begins with is the first one it was made of (`Stream.next`).
-/

namespace Fuso

/-- How long the head of a frame is, and how long the body is that a head announces. -/
structure Format (α : Type u) where
  head : Nat
  body : List α → Nat

namespace Format
variable {F : Format α} {f g w : List α}

/-- `f` has a head and the body it announces. -/
def Frame (F : Format α) (f : List α) : Prop :=
  F.head ≤ f.length ∧ f.length = F.head + F.body (f.take F.head)

/-- `w` does not begin with a frame. -/
def Open (F : Format α) (w : List α) : Prop := ∀ f, F.Frame f → ¬ f <+: w

/-- `s` is made of frames, and behind them no other one is complete. -/
structure Stream (F : Format α) (frames : List (List α)) (s : List α) : Prop where
  frame : ∀ f ∈ frames, F.Frame f
  rest : ∃ part, F.Open part ∧ s = frames.flatten ++ part

theorem take_eq_of_isPrefix (h : f <+: w) (hn : n ≤ f.length) : f.take n = w.take n := by
  obtain ⟨r, rfl⟩ := h
  exact (List.take_append_of_le_length hn).symm

theorem Frame.eq_of_isPrefix (hf : F.Frame f) (hg : F.Frame g) (h : f <+: g) : f = g :=
  h.eq_of_length (by rw [hf.2, hg.2, take_eq_of_isPrefix h hf.1])

theorem Frame.inj (hf : F.Frame f) (hg : F.Frame g) (h : f ++ r = g ++ r') : f = g ∧ r = r' := by
  have heq : f = g := by
    rcases List.prefix_or_prefix_of_prefix (List.prefix_append f r) (h ▸ List.prefix_append g r')
      with hp | hp
    · exact hf.eq_of_isPrefix hg hp
    · exact (hg.eq_of_isPrefix hf hp).symm
  subst heq
  exact ⟨rfl, List.append_cancel_left h⟩

theorem open_nil (h : 0 < F.head) : F.Open [] := by
  intro f hf hnil
  have := hf.1
  rw [List.prefix_nil.1 hnil] at this
  exact absurd this (Nat.not_le_of_lt h)

/-- Without its end a frame is none. -/
theorem Frame.open_of_lt (hg : F.Frame g) (h : w <+: g) (hlt : w.length < g.length) :
    F.Open w := by
  intro f hf hfw
  have := hf.eq_of_isPrefix hg (hfw.trans h)
  subst this
  exact absurd hfw.length_le (Nat.not_le_of_lt hlt)

/-- What is shorter than its head says is no frame. -/
theorem open_of_short (h : F.head ≤ w.length → w.length < F.head + F.body (w.take F.head)) :
    F.Open w := by
  intro f hf hfw
  have hle := hfw.length_le
  have hlt := h (Nat.le_trans hf.1 hle)
  rw [← take_eq_of_isPrefix hfw hf.1, ← hf.2] at hlt
  exact absurd hle (Nat.not_le_of_lt hlt)

/-- What does not go beyond what its head says does not go beyond the frame it begins with. -/
theorem Frame.length_le (hf : F.Frame f) (h : w ++ r = f ++ r')
    (hw : F.head ≤ w.length → w.length ≤ F.head + F.body (w.take F.head)) :
    w.length ≤ f.length := by
  by_contra hlt
  have hfw : f <+: w := List.prefix_of_prefix_length_le (List.prefix_append f r')
    (h ▸ List.prefix_append w r) (Nat.le_of_not_le hlt)
  have hle := hw (Nat.le_trans hf.1 hfw.length_le)
  rw [← take_eq_of_isPrefix hfw hf.1, ← hf.2] at hle
  exact hlt hle

theorem Stream.of_open (h : F.Open s) : F.Stream [] s := ⟨nofun, s, h, rfl⟩

theorem Stream.cons (hf : F.Frame f) (h : F.Stream frames s) : F.Stream (f :: frames) (f ++ s) := by
  obtain ⟨hframe, part, hpart, rfl⟩ := h
  refine ⟨?_, part, hpart, by simp⟩
  rintro g (_ | ⟨_, hg⟩)
  exacts [hf, hframe g hg]

/-- A stream begins with its first frame and with no other one. -/
theorem Stream.next (h : F.Stream frames (f ++ s)) (hf : F.Frame f) :
    ∃ frames', frames = f :: frames' ∧ F.Stream frames' s := by
  obtain ⟨hframe, part, hpart, heq⟩ := h
  cases frames with
  | nil => exact absurd ⟨s, heq⟩ (hpart f hf)
  | cons g frames =>
    obtain ⟨rfl, rfl⟩ := hf.inj (hframe g (by simp)) (by simpa using heq)
    exact ⟨frames, rfl, fun f hf => hframe f (by simp [hf]), part, hpart, rfl⟩

/-- A stream that begins with no frame has none. -/
theorem Stream.eq_nil (h : F.Stream frames s) (hs : F.Open s) : frames = [] := by
  obtain ⟨hframe, part, -, rfl⟩ := h
  cases frames with
  | nil => rfl
  | cons f frames => exact absurd (by simp) (hs f (hframe f (by simp)))

end Format
end Fuso

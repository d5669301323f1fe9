import Fuso.Theory.Turn

/-!
# Loops turn by turn

`turns` counts the turns of a future over all its polls. A future that is ready is so after some
number of turns (`exists_turns_of_drives`); one that is never ready within a poll `Spins`. Two loops
whose turns correspond keep step (`turns_map`); a loop whose turns go down in a measure does not
spin (`not_spins`).
-/

namespace Fuso.Turn

section
variable (step : σ → Turn σ ρ)

/-- The last one of at most `n` turns of a future that is polled again whenever it gives up. -/
def turns : Nat → σ → Turn σ ρ
  | 0, s => .again s
  | n + 1, s =>
    match turns n s with
    | .again s' | .pending s' => step s'
    | .ready s' r => .ready s' r

/-- A poll never returns: from some turn on the loop only goes round. -/
def Spins (s : σ) : Prop := ∃ n, ∀ m, n ≤ m → ∃ s', turns step m s = .again s'

end

/-- The turn is not the last one and leaves `s`. -/
def Leaves (t : Turn σ ρ) (s : σ) : Prop := t = .again s ∨ t = .pending s

variable {step : σ → Turn σ ρ} {s s' u : σ} {r : ρ} {n : Nat}

theorem turns_succ (h : (turns step n s).Leaves u) : turns step (n + 1) s = step u := by
  rcases h with h | h <;> rw [turns, h]

theorem turns_add_of_ready (h : turns step n s = .ready s' r) (k : Nat) :
    turns step (n + k) s = .ready s' r := by
  induction k with
  | zero => exact h
  | succ k ih => rw [← Nat.add_assoc, turns, ih]

theorem leaves_or_ready (t : Turn σ ρ) : (∃ s, t.Leaves s) ∨ ∃ s r, t = .ready s r := by
  cases t with
  | again s => exact .inl ⟨s, .inl rfl⟩
  | pending s => exact .inl ⟨s, .inr rfl⟩
  | ready s r => exact .inr ⟨s, r, rfl⟩

/-- What is left after some turns was left by a turn of the last state before. -/
theorem Leaves.prev (h : (turns step (n + 1) s).Leaves s') :
    ∃ u, (turns step n s).Leaves u ∧ Goes step u s' := by
  obtain ⟨u, hu⟩ | ⟨u, r, hr⟩ := leaves_or_ready (turns step n s)
  · exact ⟨u, hu, (turns_succ hu ▸ h : (step u).Leaves s')⟩
  · rw [turns_add_of_ready hr 1] at h
    rcases h with h | h <;> cases h

/-- The invariant rule, with the number of turns in the invariant. -/
theorem Leaves.invariant {I : Nat → σ → Prop} (hI : ∀ n u u', I n u → Goes step u u' → I (n + 1) u')
    (h0 : I 0 s) (h : (turns step n s).Leaves u) : I n u := by
  induction n generalizing u with
  | zero =>
    rcases h with h | h <;> cases h
    exact h0
  | succ n ih =>
    obtain ⟨v, hv, hg⟩ := h.prev
    exact hI n v u (ih hv) hg

theorem exists_turns (H : Reaches step s u) : ∃ n, (turns step n s).Leaves u := by
  induction H with
  | refl => exact ⟨0, .inl rfl⟩
  | tail _ hg ih =>
    obtain ⟨n, hn⟩ := ih
    exact ⟨n + 1, turns_succ hn ▸ hg⟩

/-- A future that is ready is so after some number of turns. -/
theorem exists_turns_of_drives (H : Drives step s s' r) : ∃ n, turns step n s = .ready s' r := by
  obtain ⟨u, hu, hr⟩ := drives_iff_reaches.1 H
  obtain ⟨n, hn⟩ := exists_turns hu
  exact ⟨n + 1, turns_succ hn ▸ hr⟩

/-- A future of which a poll never returns is never ready. -/
theorem Spins.not_drives (h : Spins step s) : ¬ Drives step s s' r := by
  intro H
  obtain ⟨n, hn⟩ := h
  obtain ⟨m, hm⟩ := exists_turns_of_drives H
  obtain ⟨u, hu⟩ := hn (m + n) (Nat.le_add_left _ _)
  rw [turns_add_of_ready hm] at hu
  cases hu

/-- Two loops keep step as long as the turns of the states they reach correspond. -/
theorem turns_map {step' : τ → Turn τ ρ} {f : σ → τ}
    (hf : ∀ m < n, ∀ u, (turns step m s).Leaves u → step' (f u) = (step u).map f id) :
    turns step' n (f s) = (turns step n s).map f id := by
  induction n with
  | zero => rfl
  | succ n ih =>
    have ih := ih fun m hm => hf m (Nat.lt_succ_of_lt hm)
    obtain ⟨u, hu⟩ | ⟨u, r, hr⟩ := leaves_or_ready (turns step n s)
    · have hu' : (turns step' n (f s)).Leaves (f u) := by
        rw [ih]
        rcases hu with hu | hu <;> rw [hu]
        · exact .inl rfl
        · exact .inr rfl
      rw [turns_succ hu, turns_succ hu', hf n (Nat.lt_succ_self n) u hu]
    · rw [turns_add_of_ready hr 1, turns_add_of_ready (ih.trans (by rw [hr]; rfl)) 1]
      rfl

/-- A loop that goes round from a state that satisfies `I` to such a state spins. -/
theorem spins_of_again {I : σ → Prop} (hI : ∀ u, I u → ∃ u', step u = .again u' ∧ I u')
    (h : (turns step n s).Leaves u) (hu : I u) : Spins step s := by
  have key : ∀ k, ∃ v, (turns step (n + k) s).Leaves v ∧ I v := by
    intro k
    induction k with
    | zero => exact ⟨u, h, hu⟩
    | succ k ih =>
      obtain ⟨v, hv, hIv⟩ := ih
      obtain ⟨v', hstep, hIv'⟩ := hI v hIv
      exact ⟨v', .inl ((turns_succ hv).trans hstep), hIv'⟩
  refine ⟨n + 1, fun m hm => ?_⟩
  obtain ⟨v, hv, hIv⟩ := key (m - 1 - n)
  obtain ⟨v', hstep, -⟩ := hI v hIv
  have hm' : m = n + (m - 1 - n) + 1 := by omega
  exact ⟨v', hm' ▸ (turns_succ hv).trans hstep⟩

/-- A loop whose turns go down in a measure while it goes round does not spin. -/
theorem not_spins {I : σ → Prop} (μ : σ → Nat) (hI : ∀ u u', I u → Goes step u u' → I u')
    (hμ : ∀ u u', I u → step u = .again u' → μ u' < μ u) (hs : I s) : ¬ Spins step s := by
  rintro ⟨n, hn⟩
  have hinv : ∀ m u, (turns step m s).Leaves u → I u :=
    fun m u hu => hu.invariant (I := fun _ => I) (fun _ => hI) hs
  have key : ∀ k, ∃ u, turns step (n + k) s = .again u ∧ μ u + k ≤ μ ((turns step n s).state) := by
    intro k
    induction k with
    | zero =>
      obtain ⟨u, hu⟩ := hn n (Nat.le_refl n)
      exact ⟨u, hu, by rw [hu]; exact Nat.le_refl _⟩
    | succ k ih =>
      obtain ⟨u, hu, hle⟩ := ih
      obtain ⟨u', hu'⟩ := hn (n + (k + 1)) (Nat.le_add_right _ _)
      have hstep : step u = .again u' := by rw [← turns_succ (.inl hu)]; exact hu'
      have := hμ u u' (hinv _ u (.inl hu)) hstep
      exact ⟨u', hu', by omega⟩
  obtain ⟨u, -, hle⟩ := key (μ ((turns step n s).state) + 1)
  omega

end Fuso.Turn

import Mathlib.Logic.Relation

/-!
# Resumable loops

A future is polled until it is ready, and each poll is a loop that may give up in the middle.
`Turn` is what one turn of such a loop does, `Drives` is the run of a future that is polled until
it is ready, however often it has to be polled, and `run` computes it. The rules below are the
ones the proofs about futures use: the invariant rules for the states of a run
(`Reaches.invariant`), for its end (`Drives.post`) and for a single poll (`poll_post`), the variant
rule (`exists_drives`), the image of a run under a map of states (`Drives.map`) and the run of a
future that another future polls (`Drives.nested`, `Drives.embed`).
-/

namespace Fuso

/-- What one turn of a poll's loop does: it goes round again, it gives up until the next poll, which
starts from the state it leaves, or it is ready. -/
inductive Turn (σ : Type u) (ρ : Type v) where
  | again (s : σ)
  | pending (s : σ)
  | ready (s : σ) (r : ρ)

namespace Turn

/-- The turn with its state and its result replaced. -/
def map (f : σ → τ) (g : ρ → ρ') : Turn σ ρ → Turn τ ρ'
  | .again s => .again (f s)
  | .pending s => .pending (f s)
  | .ready s r => .ready (f s) (g r)

/-- The turn with its state replaced where it ends a poll, and its result. -/
def settle (f : σ → σ) (g : ρ → ρ') : Turn σ ρ → Turn σ ρ'
  | .again s => .again s
  | .pending s => .pending (f s)
  | .ready s r => .ready (f s) (g r)

section
variable {f : σ → τ} {g : ρ → ρ'} {t : Turn σ ρ}

theorem map_eq_again : t.map f g = .again u ↔ ∃ s, t = .again s ∧ f s = u := by
  cases t <;> simp [map]

theorem map_eq_pending : t.map f g = .pending u ↔ ∃ s, t = .pending s ∧ f s = u := by
  cases t <;> simp [map]

theorem map_eq_ready : t.map f g = .ready u r' ↔ ∃ s r, t = .ready s r ∧ f s = u ∧ g r = r' := by
  cases t <;> simp [map, and_assoc]

end

/-- The state a turn leaves. -/
def state : Turn σ ρ → σ
  | .again s | .pending s | .ready s _ => s

section
variable (step : σ → Turn σ ρ)

/-- The future in state `s` is polled until it is ready with `r`, and is then in state `s'`. -/
inductive Drives : σ → σ → ρ → Prop where
  | ready : step s = .ready s' r → Drives s s' r
  | again : step s = .again s₁ → Drives s₁ s' r → Drives s s' r
  | pending : step s = .pending s₁ → Drives s₁ s' r → Drives s s' r

/-- The turn in `s` is not the last one and leaves `s'`. -/
def Goes (s s' : σ) : Prop := step s = .again s' ∨ step s = .pending s'

/-- The state behind `n` turns, none of which is the last one. -/
def ahead : Nat → σ → Option σ
  | 0, s => some s
  | n + 1, s =>
    match step s with
    | .again s' | .pending s' => ahead n s'
    | .ready _ _ => none

/-- One poll of a future whose loop is over, one way or the other, after at most `n` turns. -/
def poll : Nat → σ → Turn σ ρ
  | 0, s => .again s
  | n + 1, s =>
    match step s with
    | .again s' => poll n s'
    | .pending s' => .pending s'
    | .ready s' r => .ready s' r

/-- At most `n` turns of the future. -/
def run : Nat → σ → Option (σ × ρ)
  | 0, _ => none
  | n + 1, s =>
    match step s with
    | .again s' | .pending s' => run n s'
    | .ready s' r => some (s', r)

end

variable {step : σ → Turn σ ρ}

theorem Goes.state_eq (h : Goes step s s') : (step s).state = s' := by
  rcases h with h | h <;> rw [h] <;> rfl

theorem Drives.of_goes (h : Goes step s s₁) (H : Drives step s₁ s' r) : Drives step s s' r :=
  h.elim (.again · H) (.pending · H)

theorem drives_of_run {n : Nat} (h : run step n s = some (s', r)) : Drives step s s' r := by
  induction n generalizing s with
  | zero => cases h
  | succ n ih =>
    simp only [run] at h
    split at h
    · exact .again ‹_› (ih h)
    · exact .pending ‹_› (ih h)
    · cases h; exact .ready ‹_›

/-- The rule for one poll: if every turn from a state that satisfies `I` goes round to such a state
and down in the measure, or gives up and establishes `P`, or is ready and establishes `Q`, then a
poll gives up with `P` or is ready with `Q`. -/
theorem poll_post (step : σ → Turn σ ρ) {I P : σ → Prop} {Q : σ → ρ → Prop} (μ : σ → Nat)
    (hI : ∀ s, I s → (∃ s', step s = .again s' ∧ I s' ∧ μ s' < μ s) ∨
      (∃ s', step s = .pending s' ∧ P s') ∨ ∃ s' r, step s = .ready s' r ∧ Q s' r)
    (hs : I s) {n : Nat} (hn : μ s < n) :
    (∃ s', poll step n s = .pending s' ∧ P s') ∨ ∃ s' r, poll step n s = .ready s' r ∧ Q s' r := by
  induction n generalizing s with
  | zero => omega
  | succ n ih =>
    rcases hI s hs with ⟨s', h, hs', hlt⟩ | ⟨s', h, hP⟩ | ⟨s', r, h, hQ⟩
    · simp only [poll, h]
      exact ih hs' (by omega)
    · exact .inl ⟨s', by simp only [poll, h], hP⟩
    · exact .inr ⟨s', r, by simp only [poll, h], hQ⟩

/-- More turns than a poll needs change nothing. -/
theorem poll_mono {n m : Nat} (hend : ∀ u, poll step n s ≠ .again u) (h : n ≤ m) :
    poll step m s = poll step n s := by
  induction n generalizing s m with
  | zero => exact absurd rfl (hend s)
  | succ n ih =>
    obtain ⟨m, rfl⟩ : ∃ m', m = m' + 1 := ⟨m - 1, by omega⟩
    simp only [poll] at hend ⊢
    cases hstep : step s with
    | again s' =>
      simp only [hstep] at hend ⊢
      exact ih hend (by omega)
    | pending s' => rfl
    | ready s' r => rfl

/-- A loop whose turns are those of another one, but for what they leave at the end of a poll. -/
theorem poll_settle {step' : σ → Turn σ ρ'} {I : σ → Prop} {f : σ → σ} {g : ρ → ρ'}
    (hI : ∀ s s', I s → step s = .again s' → I s') (h : ∀ s, I s → step' s = (step s).settle f g)
    (hs : I s) (n : Nat) : poll step' n s = (poll step n s).settle f g := by
  induction n generalizing s with
  | zero => rfl
  | succ n ih =>
    simp only [poll, h s hs]
    cases hstep : step s with
    | again s' => exact ih (hI s s' hs hstep)
    | pending s' => rfl
    | ready s' r => rfl

/-- A run goes on from the state its first turn leaves. -/
theorem drives_iff_of_goes (h : Goes step s s₁) : Drives step s s' r ↔ Drives step s₁ s' r := by
  refine ⟨fun H => ?_, .of_goes h⟩
  rcases h with h | h <;> cases H <;> simp_all

theorem drives_iff_of_ready (h : step s = .ready s₁ r₁) :
    Drives step s s' r ↔ s' = s₁ ∧ r = r₁ := by
  constructor
  · intro H
    cases H <;> simp_all
  · rintro ⟨rfl, rfl⟩
    exact .ready h

theorem Goes.unique (h : Goes step s s₁) (h' : Goes step s s₂) : s₁ = s₂ := by
  rcases h with h | h <;> rcases h' with h' | h' <;> simp_all

/-- The states of a run. -/
def Reaches (step : σ → Turn σ ρ) : σ → σ → Prop := Relation.ReflTransGen (Goes step)

theorem reaches_of_ahead {n : Nat} (h : ahead step n s = some u) : Reaches step s u := by
  induction n generalizing s with
  | zero => exact Option.some.inj h ▸ .refl
  | succ n ih =>
    simp only [ahead] at h
    split at h
    · exact .head (.inl ‹_›) (ih h)
    · exact .head (.inr ‹_›) (ih h)
    · cases h

/-- A run goes on from each of its states. -/
theorem drives_iff_of_reaches (h : Reaches step s s₁) :
    Drives step s s' r ↔ Drives step s₁ s' r := by
  induction h with
  | refl => exact Iff.rfl
  | tail _ hg ih => exact ih.trans (drives_iff_of_goes hg)

/-- The invariant rule for the states of a run. -/
theorem Reaches.invariant {I : σ → Prop} (hI : ∀ s s', I s → Goes step s s' → I s')
    (H : Reaches step s s') (hs : I s) : I s' := by
  induction H with
  | refl => exact hs
  | tail _ hg ih => exact hI _ _ ih hg

/-- A run reaches the state before its last turn. -/
theorem drives_iff_reaches : Drives step s s' r ↔ ∃ u, Reaches step s u ∧ step u = .ready s' r := by
  constructor
  · intro H
    induction H with
    | ready h => exact ⟨_, .refl, h⟩
    | again h _ ih =>
      obtain ⟨u, hu, hr⟩ := ih
      exact ⟨u, .head (.inl h) hu, hr⟩
    | pending h _ ih =>
      obtain ⟨u, hu, hr⟩ := ih
      exact ⟨u, .head (.inr h) hu, hr⟩
  · rintro ⟨u, hu, hr⟩
    induction hu using Relation.ReflTransGen.head_induction_on with
    | refl => exact .ready hr
    | head hg _ ih => exact .of_goes hg ih

/-- The invariant rule: if every turn from a state that satisfies `I` leads to such a state again or
is the last one and establishes `Q`, then so does a whole run. -/
theorem Drives.post {I : σ → Prop} {Q : σ → ρ → Prop}
    (hI : ∀ s, I s → (∃ s', Goes step s s' ∧ I s') ∨ ∃ s' r, step s = .ready s' r ∧ Q s' r)
    (hs : I s) (H : Drives step s s' r) : Q s' r := by
  have next : ∀ s s₁, I s → Goes step s s₁ → I s₁ := by
    intro s s₁ hs hg
    rcases hI s hs with ⟨s₂, hg', h⟩ | ⟨s₂, r, hr, -⟩
    · exact hg.unique hg' ▸ h
    · rcases hg with hg | hg <;> simp_all
  obtain ⟨u, hu, hr⟩ := drives_iff_reaches.1 H
  rcases hI u (hu.invariant next hs) with ⟨s₂, hg, -⟩ | ⟨s₂, r₂, hr₂, hQ⟩
  · rcases hg with hg | hg <;> simp [hr] at hg
  · rw [hr] at hr₂
    cases hr₂
    exact hQ

/-- The variant rule: a future whose turns go down in a measure as long as `I` holds becomes
ready. -/
theorem exists_drives {I : σ → Prop} (μ : σ → Nat)
    (hI : ∀ s, I s → (∃ s', Goes step s s' ∧ I s' ∧ μ s' < μ s) ∨ ∃ s' r, step s = .ready s' r)
    (hs : I s) : ∃ s' r, Drives step s s' r := by
  induction h : μ s using Nat.strongRecOn generalizing s with
  | ind n ih =>
    rcases hI s hs with ⟨s₁, hg, hs₁, hlt⟩ | ⟨s', r, hr⟩
    · obtain ⟨s', r, H⟩ := ih _ (h ▸ hlt) hs₁ rfl
      exact ⟨s', r, .of_goes hg H⟩
    · exact ⟨s', r, .ready hr⟩

/-- A map that commutes with the turns of states that satisfy `I` carries runs to runs. -/
theorem Drives.map {step' : τ → Turn τ ρ} {I : σ → Prop} {f : σ → τ}
    (hI : ∀ s s', I s → Goes step s s' → I s')
    (hf : ∀ s, I s → step' (f s) = (step s).map f id)
    (H : Drives step s s' r) (hs : I s) : Drives step' (f s) (f s') r := by
  induction H with
  | ready h => exact .ready (by rw [hf _ hs, h]; rfl)
  | again h _ ih => exact .again (by rw [hf _ hs, h]; rfl) (ih (hI _ _ hs (.inl h)))
  | pending h _ ih => exact .pending (by rw [hf _ hs, h]; rfl) (ih (hI _ _ hs (.inr h)))

/-- A run of the image of a future is the image of a run. -/
theorem Drives.of_map {step' : τ → Turn τ ρ} {f : σ → τ} (hf : ∀ s, step' (f s) = (step s).map f id)
    (H : Drives step' (f s) t r) : ∃ s', t = f s' ∧ Drives step s s' r := by
  generalize hs : f s = u at H
  induction H generalizing s with
  | ready h =>
    subst hs
    obtain ⟨s', r, hstep, rfl, rfl⟩ := map_eq_ready.1 ((hf _).symm.trans h)
    exact ⟨_, rfl, .ready hstep⟩
  | again h _ ih =>
    subst hs
    obtain ⟨s₁, hstep, rfl⟩ := map_eq_again.1 ((hf _).symm.trans h)
    obtain ⟨s', rfl, H⟩ := ih rfl
    exact ⟨s', rfl, .again hstep H⟩
  | pending h _ ih =>
    subst hs
    obtain ⟨s₁, hstep, rfl⟩ := map_eq_pending.1 ((hf _).symm.trans h)
    obtain ⟨s', rfl, H⟩ := ih rfl
    exact ⟨s', rfl, .pending hstep H⟩

/-- A future that polls another one, which it holds in state `inj t`, gets the result of that one.
When the inner future gives up, so does the outer one, and its next poll starts with the inner
future or comes back to it. -/
theorem Drives.nested (inner : τ → Turn τ ρ') (inj : τ → σ)
    (hagain : ∀ t t', inner t = .again t' → step (inj t) = .again (inj t'))
    (hpending : ∀ t t', inner t = .pending t' →
      ∃ u, step (inj t) = .pending u ∧ (u = inj t' ∨ step u = .again (inj t')))
    (H : Drives step (inj t) s' r) :
    ∃ t₁ t' r', Drives inner t t' r' ∧ inner t₁ = .ready t' r' ∧ Drives step (inj t₁) s' r := by
  generalize hs : inj t = s at H
  have key : ∀ t, (s = inj t ∨ step s = .again (inj t)) →
      ∃ t₁ t' r', Drives inner t t' r' ∧ inner t₁ = .ready t' r' ∧ Drives step (inj t₁) s' r := by
    clear hs t
    induction H with
    | ready h =>
      rintro t (rfl | hu)
      · cases hi : inner t with
        | again t' => rw [hagain t t' hi] at h; cases h
        | pending t' => obtain ⟨u, hu, -⟩ := hpending t t' hi; rw [hu] at h; cases h
        | ready t' r' => exact ⟨t, t', r', .ready hi, hi, .ready h⟩
      · rw [hu] at h; cases h
    | again h H ih =>
      rintro t (rfl | hu)
      · cases hi : inner t with
        | again t' =>
          rw [hagain t t' hi] at h; cases h
          obtain ⟨t₁, t₂, r', h1, h2, h3⟩ := ih t' (.inl rfl)
          exact ⟨t₁, t₂, r', .again hi h1, h2, h3⟩
        | pending t' => obtain ⟨u, hu, -⟩ := hpending t t' hi; rw [hu] at h; cases h
        | ready t' r' => exact ⟨t, t', r', .ready hi, hi, .again h H⟩
      · rw [hu] at h; cases h
        exact ih t (.inl rfl)
    | pending h H ih =>
      rintro t (rfl | hu)
      · cases hi : inner t with
        | again t' => rw [hagain t t' hi] at h; cases h
        | pending t' =>
          obtain ⟨u, hu, hu'⟩ := hpending t t' hi
          rw [hu] at h; cases h
          obtain ⟨t₁, t₂, r', h1, h2, h3⟩ := ih t' hu'
          exact ⟨t₁, t₂, r', .pending hi h1, h2, h3⟩
        | ready t' r' => exact ⟨t, t', r', .ready hi, hi, .pending h H⟩
      · rw [hu] at h; cases h
  exact key t (.inl hs.symm)

/-- A run of a future that another one polls is a part of a run of the outer one, which goes on when
the inner one is ready. -/
theorem Drives.embed {inner : τ → Turn τ ρ'} (inj : τ → σ)
    (hagain : ∀ t t', inner t = .again t' → step (inj t) = .again (inj t'))
    (hpending : ∀ t t', inner t = .pending t' → step (inj t) = .pending (inj t'))
    (hready : ∀ t₁, inner t₁ = .ready t' r' → Drives step (inj t₁) s' r)
    (H : Drives inner t t' r') : Drives step (inj t) s' r := by
  induction H with
  | ready h => exact hready _ h
  | again h _ ih => exact .again (hagain _ _ h) (ih hready)
  | pending h _ ih => exact .pending (hpending _ _ h) (ih hready)

end Turn
end Fuso

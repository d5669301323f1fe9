import Fuso.Theory.Turn

/-!
# Futures that poll others one after the other

`Turn.andThen` is the `.await?` of a future: the inner future is polled until it is ready, its error
is the error of the whole, and its result leads on (`Drives.andThen`). `Visits` are the states a
future is in, those of its run and the one it is left in when it is over; what holds in them is
proved turn by turn (`Visits.post`).
-/

namespace Fuso.Turn
variable {σ : Type u} {τ : Type v} {ε : Type w} {α : Type x} {β : Type y}

/-- A turn of the inner future, which is held in a state `inj t`. -/
def andThen (t : Turn τ (Except ε α)) (inj : τ → σ) (k : τ → α → Turn σ (Except ε β)) :
    Turn σ (Except ε β) :=
  match t with
  | .again s => .again (inj s)
  | .pending s => .pending (inj s)
  | .ready s (.error e) => .ready (inj s) (.error e)
  | .ready s (.ok a) => k s a

/-- A future is in state `s'`: a run has reached it, or it was left there when it was over. -/
inductive Visits {ρ : Type w} (step : σ → Turn σ ρ) (s s' : σ) : Prop where
  | reached : Reaches step s s' → Visits step s s'
  | ended : Drives step s s' r → Visits step s s'

theorem Visits.of_goes {ρ : Type w} {step : σ → Turn σ ρ} {s u s' : σ} (h : Goes step s u)
    (H : Visits step u s') : Visits step s s' := by
  cases H with
  | reached H => exact .reached (.head h H)
  | ended H => exact .ended (.of_goes h H)

/-- The invariant rule for the states a future is in. -/
theorem Visits.post {ρ : Type w} {step : σ → Turn σ ρ} {I Q : σ → Prop}
    (hI : ∀ s, I s → (∃ s', Goes step s s' ∧ I s') ∨ ∃ s' r, step s = .ready s' r ∧ Q s')
    (hs : I s) (H : Visits step s s') : I s' ∨ Q s' := by
  have hgoes : ∀ u u', I u → Goes step u u' → I u' := by
    intro u u' hu hg
    rcases hI u hu with ⟨u₁, hg', hu₁⟩ | ⟨u₁, r, hr, -⟩
    · exact hg.unique hg' ▸ hu₁
    · rcases hg with hg | hg <;> rw [hr] at hg <;> cases hg
  cases H with
  | reached H => exact .inl (H.invariant hgoes hs)
  | ended H =>
    obtain ⟨u, hu, hr⟩ := drives_iff_reaches.1 H
    rcases hI u (hu.invariant hgoes hs) with ⟨u', hg, -⟩ | ⟨u', r', hr', hQ⟩
    · rcases hg with hg | hg <;> rw [hr] at hg <;> cases hg
    · rw [hr] at hr'
      cases hr'
      exact .inr hQ

/-- A poll that is ready ends with a turn that is. -/
theorem exists_of_poll {ρ : Type w} {step : σ → Turn σ ρ} {s s' : σ} {r : ρ} {n : Nat}
    (h : poll step n s = .ready s' r) : ∃ u, step u = .ready s' r := by
  induction n generalizing s with
  | zero => cases h
  | succ n ih =>
    simp only [poll] at h
    cases hstep : step s with
    | again u =>
      rw [hstep] at h
      exact ih h
    | pending u =>
      rw [hstep] at h
      cases h
    | ready u r' =>
      rw [hstep] at h
      cases h
      exact ⟨s, hstep⟩

/-- What a poll does to the state, when every turn does it. -/
theorem poll_state {ρ : Type w} (step : σ → Turn σ ρ) {R : σ → σ → Prop} (hrefl : ∀ s, R s s)
    (htrans : ∀ s u s', R s u → R u s' → R s s') (hstep : ∀ s, R s (step s).state) (n : Nat)
    (s : σ) : R s (poll step n s).state := by
  induction n generalizing s with
  | zero => exact hrefl s
  | succ n ih =>
    have h := hstep s
    simp only [poll]
    cases hs : step s with
    | again u =>
      rw [hs] at h
      exact htrans _ _ _ h (ih u)
    | pending u =>
      rw [hs] at h
      exact h
    | ready u r =>
      rw [hs] at h
      exact h

section
variable {step : σ → Turn σ (Except ε α)} {inner : τ → Turn τ (Except ε β)} {inj : τ → σ}
  {k : τ → β → Turn σ (Except ε α)}

/-- A run of the inner future leads on. -/
theorem Drives.andThen (hstep : ∀ t, step (inj t) = (inner t).andThen inj k)
    (H : Drives inner t t' (.ok b)) (hk : k t' b = .again s) (H' : Drives step s s' r) :
    Drives step (inj t) s' r := by
  refine H.embed inj (fun _ _ h => by rw [hstep, h, Turn.andThen])
    (fun _ _ h => by rw [hstep, h, Turn.andThen]) fun t₁ h => .again ?_ H'
  rw [hstep, h, Turn.andThen, hk]

/-- A run of the whole, from a turn on. -/
def Ends (step : σ → Turn σ ρ) (s' : σ) (r : ρ) : Turn σ ρ → Prop
  | .again s | .pending s => Drives step s s' r
  | .ready s a => s' = s ∧ r = a

/-- A run of the whole is one of the inner future, and goes on where its result leads. -/
theorem Drives.await (hstep : ∀ t, step (inj t) = (inner t).andThen inj k)
    (H : Drives step (inj t) s' r) :
    (∃ t' e, Drives inner t t' (.error e) ∧ s' = inj t' ∧ r = .error e) ∨
    ∃ t' b, Drives inner t t' (.ok b) ∧ Ends step s' r (k t' b) := by
  obtain ⟨t₁, t', r', H₁, hready, H₂⟩ := Drives.nested inner inj
    (fun _ _ h => by rw [hstep, h, Turn.andThen])
    (fun _ t' h => ⟨inj t', by rw [hstep, h, Turn.andThen], .inl rfl⟩) H
  have hturn := hstep t₁
  rw [hready] at hturn
  cases r' with
  | error e =>
    obtain ⟨rfl, rfl⟩ := (drives_iff_of_ready hturn).1 H₂
    exact .inl ⟨t', e, H₁, rfl, rfl⟩
  | ok b =>
    refine .inr ⟨t', b, H₁, ?_⟩
    simp only [Turn.andThen] at hturn
    rw [← hturn]
    cases H₂ with
    | ready h => rw [h]; exact ⟨rfl, rfl⟩
    | again h H => rw [h]; exact H
    | pending h H => rw [h]; exact H

/-- The states the whole is in, from a turn on. -/
def Leads (step : σ → Turn σ ρ) (s' : σ) : Turn σ ρ → Prop
  | .again s | .pending s => Visits step s s'
  | .ready s _ => s' = s

/-- The states the whole is in are those of the inner future, and those where its result leads. -/
theorem Visits.await (hstep : ∀ t, step (inj t) = (inner t).andThen inj k)
    (H : Visits step (inj t) s') :
    (∃ t', s' = inj t' ∧ Visits inner t t') ∨
    ∃ t' b, Drives inner t t' (.ok b) ∧ Leads step s' (k t' b) := by
  cases H with
  | reached H =>
    generalize hs : inj t = s at H
    induction H using Relation.ReflTransGen.head_induction_on generalizing t with
    | refl => exact .inl ⟨t, hs.symm, .reached .refl⟩
    | @head s u hg H ih =>
      subst hs
      have hturn := hstep t
      cases hi : inner t with
      | again t' =>
        rw [hi] at hturn
        obtain rfl := hg.unique (.inl hturn)
        exact (ih rfl).imp (fun ⟨t'', heq, hv⟩ => ⟨t'', heq, hv.of_goes (.inl hi)⟩)
          fun ⟨t'', b, H, hl⟩ => ⟨t'', b, .again hi H, hl⟩
      | pending t' =>
        rw [hi] at hturn
        obtain rfl := hg.unique (.inr hturn)
        exact (ih rfl).imp (fun ⟨t'', heq, hv⟩ => ⟨t'', heq, hv.of_goes (.inr hi)⟩)
          fun ⟨t'', b, H, hl⟩ => ⟨t'', b, .pending hi H, hl⟩
      | ready t' r' =>
        rw [hi] at hturn
        cases r' with
        | error e => rcases hg with hg | hg <;> rw [hturn] at hg <;> cases hg
        | ok b =>
          refine .inr ⟨t', b, .ready hi, ?_⟩
          simp only [Turn.andThen] at hturn
          rw [← hturn]
          rcases hg with hg | hg <;> rw [hg] <;> exact .reached H
  | ended H =>
    rcases H.await hstep with ⟨t', e, H, heq, -⟩ | ⟨t', b, H, hends⟩
    · exact .inl ⟨t', heq, .ended H⟩
    · refine .inr ⟨t', b, H, ?_⟩
      generalize k t' b = turn at hends
      cases turn with
      | again s => exact .ended hends
      | pending s => exact .ended hends
      | ready s a => exact hends.1

end
end Fuso.Turn

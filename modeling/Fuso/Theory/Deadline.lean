import Fuso.Theory.Turn

/-!
# Futures under a deadline

A future that is polled at given times is dropped when it is still pending in a poll at or behind a
deadline: every poll asks the future first and the clock then. `Waits` is the same future without
the clock, so `until_elapsed_iff` says when the clock ends it, and what is ready before is ready as
the future itself is (`Until.drives`).
-/

namespace Fuso.Turn

section
variable (step : σ → Turn σ ρ)

/-- One poll: the turns up to the one that gives up or is ready. -/
inductive Polls : σ → Turn σ ρ → Prop where
  | again : step s = .again s₁ → Polls s₁ t → Polls s t
  | pending : step s = .pending s' → Polls s (.pending s')
  | ready : step s = .ready s' r → Polls s (.ready s' r)

/-- `n` polls give up, and leave `s'`. -/
inductive Waits : Nat → σ → σ → Prop where
  | zero : Waits 0 s s
  | succ : Polls step s (.pending s₁) → Waits n s₁ s' → Waits (n + 1) s s'

/-- How it stands with a future under a deadline. -/
inductive Outcome (σ : Type u) (ρ : Type v) where
  | waiting (s : σ)
  | ready (s : σ) (r : ρ)
  | elapsed (s : σ)

/-- The future is polled at the times, as long as it is neither ready nor dropped. -/
inductive Until (deadline : Nat) : σ → List Nat → Outcome σ ρ → Prop where
  | waiting : Until deadline s [] (.waiting s)
  | ready : Polls step s (.ready s' r) → Until deadline s (now :: times) (.ready s' r)
  | elapsed : Polls step s (.pending s') → deadline ≤ now →
      Until deadline s (now :: times) (.elapsed s')
  | pending : Polls step s (.pending s₁) → now < deadline → Until deadline s₁ times o →
      Until deadline s (now :: times) o

end

variable {step : σ → Turn σ ρ} {s s' s₁ : σ} {r : ρ} {times : List Nat} {deadline : Nat}

/-! ## Single polls -/

theorem Polls.of_again (h : step s = .again s₁) : Polls step s t ↔ Polls step s₁ t := by
  refine ⟨fun H => ?_, .again h⟩
  cases H <;> simp_all

theorem Polls.of_reaches_again (h : Relation.ReflTransGen (fun s s' => step s = .again s') s s₁) :
    Polls step s t ↔ Polls step s₁ t := by
  induction h with
  | refl => rfl
  | tail _ hstep ih => exact ih.trans (Polls.of_again hstep)

/-- A poll ends in one way only. -/
theorem Polls.unique (H : Polls step s t) (H' : Polls step s t') : t = t' := by
  induction H with
  | again h _ ih => exact ih ((of_again h).1 H')
  | pending h => cases H' <;> simp_all
  | ready h => cases H' <;> simp_all

theorem Polls.drives_iff (H : Polls step s (.pending s₁)) :
    Drives step s s' r ↔ Drives step s₁ s' r := by
  generalize ht : Turn.pending s₁ = t at H
  induction H with
  | again h _ ih => exact (drives_iff_of_goes (.inl h)).trans (ih ht)
  | pending h =>
    cases ht
    exact drives_iff_of_goes (.inr h)
  | ready h => cases ht

theorem Polls.drives (H : Polls step s (.ready s' r)) : Drives step s s' r := by
  generalize ht : Turn.ready s' r = t at H
  induction H with
  | again h _ ih => exact .again h (ih ht)
  | pending h => cases ht
  | ready h =>
    cases ht
    exact .ready h

/-- The polls of a future that another one is the image of. -/
theorem Polls.map_iff {step' : τ → Turn τ ρ} {f : σ → τ}
    (hf : ∀ s, step' (f s) = (step s).map f id) :
    Polls step' (f s) t' ↔ ∃ t, Polls step s t ∧ t' = t.map f id := by
  constructor
  · intro H
    generalize hs : f s = u at H
    induction H generalizing s with
    | again h _ ih =>
      subst hs
      obtain ⟨s₁, hstep, rfl⟩ := map_eq_again.1 ((hf _).symm.trans h)
      obtain ⟨t, H, rfl⟩ := ih rfl
      exact ⟨t, .again hstep H, rfl⟩
    | pending h =>
      subst hs
      obtain ⟨s', hstep, rfl⟩ := map_eq_pending.1 ((hf _).symm.trans h)
      exact ⟨_, .pending hstep, rfl⟩
    | ready h =>
      subst hs
      obtain ⟨s', r, hstep, rfl, rfl⟩ := map_eq_ready.1 ((hf _).symm.trans h)
      exact ⟨_, .ready hstep, rfl⟩
  · rintro ⟨t, H, rfl⟩
    induction H with
    | again h _ ih => exact .again (by rw [hf, h]; rfl) ih
    | pending h => exact .pending (by rw [hf, h]; rfl)
    | ready h => exact .ready (by rw [hf, h]; rfl)

theorem Polls.reaches (H : Polls step s (.pending s')) : Reaches step s s' := by
  generalize ht : Turn.pending s' = t at H
  induction H with
  | again h _ ih => exact .head (.inl h) (ih ht)
  | pending h =>
    cases ht
    exact .single (.inr h)
  | ready => cases ht

theorem Waits.reaches (hw : Waits step n s s') : Reaches step s s' := by
  induction hw with
  | zero => exact .refl
  | succ hp _ ih => exact hp.reaches.trans ih

/-- A run is some polls that give up and one that does not. -/
theorem Drives.waits (H : Drives step s s' r) :
    ∃ n u, Waits step n s u ∧ Polls step u (.ready s' r) := by
  induction H with
  | ready h => exact ⟨0, _, .zero, .ready h⟩
  | again h _ ih =>
    obtain ⟨n, u, hw, hp⟩ := ih
    cases hw with
    | zero => exact ⟨0, _, .zero, .again h hp⟩
    | succ hp₁ hw => exact ⟨_, u, .succ (.again h hp₁) hw, hp⟩
  | pending h _ ih =>
    obtain ⟨n, u, hw, hp⟩ := ih
    exact ⟨n + 1, u, .succ (.pending h) hw, hp⟩

theorem Waits.concat (hw : Waits step n s u) (hp : Polls step u (.pending s')) :
    Waits step (n + 1) s s' := by
  induction hw with
  | zero => exact .succ hp .zero
  | succ hp₁ _ ih => exact .succ hp₁ (ih hp)

/-- A future that waits longer was in the same states before. -/
theorem Waits.split {n m : Nat} (hw : Waits step m s s') (hle : n ≤ m) :
    ∃ u, Waits step n s u ∧ Waits step (m - n) u s' := by
  induction hw generalizing n with
  | zero =>
    obtain rfl : n = 0 := by omega
    exact ⟨_, .zero, .zero⟩
  | @succ s s₁ m s' hp hw ih =>
    cases n with
    | zero => exact ⟨s, .zero, .succ hp hw⟩
    | succ n =>
      obtain ⟨u, hu, hu'⟩ := ih (by omega : n ≤ m)
      exact ⟨u, .succ hp hu, by rwa [Nat.add_sub_add_right]⟩

theorem Waits.unique (hw : Waits step n s s') (hw' : Waits step n s u) : s' = u := by
  induction hw with
  | zero =>
    cases hw'
    rfl
  | succ hp _ ih =>
    obtain _ | ⟨hp', hw'⟩ := hw'
    cases hp.unique hp'
    exact ih hw'

/-- A future that is ready in its poll `n` does not wait in it. -/
theorem Waits.le_of_ready {n m : Nat} (hw : Waits step n s u) (hp : Polls step u (.ready s' r))
    (hw' : Waits step m s t) : m ≤ n := by
  refine Nat.le_of_not_lt fun hlt => ?_
  obtain ⟨u', hu, hu'⟩ := hw'.split (Nat.le_of_lt hlt)
  obtain rfl := hw.unique hu
  generalize hk : m - n = k at hu'
  cases hu' with
  | zero => omega
  | succ hp' _ => cases hp.unique hp'

/-- A poll that is computed. -/
theorem polls_of_poll {n : Nat} (h : poll step n s = t) (ht : ∀ s', t ≠ .again s') :
    Polls step s t := by
  induction n generalizing s with
  | zero => exact absurd h.symm (ht s)
  | succ n ih =>
    simp only [poll] at h
    split at h
    · next hstep => exact .again hstep (ih h)
    · next hstep =>
      subst h
      exact .pending hstep
    · next hstep =>
      subst h
      exact .ready hstep

/-! ## Polls at times -/

/-- A future is dropped by the first poll at or behind the deadline, if it has waited up to there
and waits in this poll too. -/
theorem until_elapsed_iff : Until step deadline s times (.elapsed s') ↔
    ∃ pre now post, times = pre ++ now :: post ∧ (∀ t ∈ pre, t < deadline) ∧ deadline ≤ now ∧
      Waits step (pre.length + 1) s s' := by
  constructor
  · intro H
    generalize ho : Outcome.elapsed s' = o at H
    induction H with
    | waiting => cases ho
    | ready => cases ho
    | elapsed hp hle =>
      cases ho
      exact ⟨[], _, _, rfl, nofun, hle, .succ hp .zero⟩
    | pending hp hlt _ ih =>
      obtain ⟨pre, now, post, rfl, hpre, hle, hw⟩ := ih ho
      refine ⟨_ :: pre, now, post, rfl, ?_, hle, .succ hp hw⟩
      intro t ht
      rcases List.mem_cons.1 ht with rfl | ht
      · exact hlt
      · exact hpre t ht
  · rintro ⟨pre, now, post, rfl, hpre, hle, hw⟩
    induction pre generalizing s with
    | nil =>
      obtain _ | ⟨hp, hw⟩ := hw
      cases hw
      exact .elapsed hp hle
    | cons t pre ih =>
      obtain _ | ⟨hp, hw⟩ := hw
      exact .pending hp (hpre t List.mem_cons_self) (ih (fun t ht => hpre t (.tail _ ht)) hw)

/-- What is ready in time is ready as the future is that nobody drops. -/
theorem Until.drives (H : Until step deadline s times (.ready s' r)) : Drives step s s' r := by
  generalize ho : Outcome.ready s' r = o at H
  induction H with
  | waiting => cases ho
  | ready hp =>
    cases ho
    exact hp.drives
  | elapsed => cases ho
  | pending hp _ _ ih => exact hp.drives_iff.2 (ih ho)

/-- Polls before the deadline that wait. -/
theorem Until.of_waits (hw : Waits step n s s₁) (hlen : early.length = n)
    (hearly : ∀ t ∈ early, t < deadline) :
    Until step deadline s (early ++ times) o ↔ Until step deadline s₁ times o := by
  induction hw generalizing early with
  | zero =>
    rw [List.length_eq_zero_iff.1 hlen]
    rfl
  | succ hp _ ih =>
    cases early with
    | nil => cases hlen
    | cons t early =>
      rw [← ih (Nat.succ.inj hlen) fun t ht => hearly t (.tail _ ht)]
      have hlt := hearly t List.mem_cons_self
      constructor
      · intro H
        cases H with
        | ready hp' => cases hp.unique hp'
        | elapsed _ hle => omega
        | pending hp' _ H =>
          cases hp.unique hp'
          exact H
      · exact .pending hp hlt

/-- The first of some polls, from a state whose polls are the same. -/
theorem Until.congr (h : ∀ t, Polls step s t ↔ Polls step s₁ t) (hne : times ≠ []) :
    Until step deadline s times o ↔ Until step deadline s₁ times o := by
  constructor
  · intro H
    cases H with
    | waiting => exact absurd rfl hne
    | ready hp => exact .ready ((h _).1 hp)
    | elapsed hp hle => exact .elapsed ((h _).1 hp) hle
    | pending hp hlt H => exact .pending ((h _).1 hp) hlt H
  · intro H
    cases H with
    | waiting => exact absurd rfl hne
    | ready hp => exact .ready ((h _).2 hp)
    | elapsed hp hle => exact .elapsed ((h _).2 hp) hle
    | pending hp hlt H => exact .pending ((h _).2 hp) hlt H

/-- The outcome with its state replaced. -/
def Outcome.map (f : σ → τ) : Outcome σ ρ → Outcome τ ρ
  | .waiting s => .waiting (f s)
  | .ready s r => .ready (f s) r
  | .elapsed s => .elapsed (f s)

theorem Until.map_iff {step' : τ → Turn τ ρ} {f : σ → τ}
    (hf : ∀ s, step' (f s) = (step s).map f id) :
    Until step' deadline (f s) times o' ↔ ∃ o, Until step deadline s times o ∧ o' = o.map f := by
  constructor
  · intro H
    generalize hs : f s = u at H
    induction H generalizing s with
    | waiting => exact ⟨.waiting s, .waiting, by rw [← hs]; rfl⟩
    | ready hp =>
      obtain ⟨t, hq, ht⟩ := (Polls.map_iff hf).1 (hs ▸ hp)
      obtain ⟨s', r, rfl, rfl, rfl⟩ := map_eq_ready.1 ht.symm
      exact ⟨_, .ready hq, rfl⟩
    | elapsed hp hle =>
      obtain ⟨t, hq, ht⟩ := (Polls.map_iff hf).1 (hs ▸ hp)
      obtain ⟨s', rfl, rfl⟩ := map_eq_pending.1 ht.symm
      exact ⟨_, .elapsed hq hle, rfl⟩
    | pending hp hlt _ ih =>
      obtain ⟨t, hq, ht⟩ := (Polls.map_iff hf).1 (hs ▸ hp)
      obtain ⟨s', rfl, rfl⟩ := map_eq_pending.1 ht.symm
      obtain ⟨o, H, rfl⟩ := ih rfl
      exact ⟨o, .pending hq hlt H, rfl⟩
  · rintro ⟨o, H, rfl⟩
    induction H with
    | waiting => exact .waiting
    | ready hp => exact .ready ((Polls.map_iff hf).2 ⟨_, hp, rfl⟩)
    | elapsed hp hle => exact .elapsed ((Polls.map_iff hf).2 ⟨_, hp, rfl⟩) hle
    | pending hp hlt _ ih => exact .pending ((Polls.map_iff hf).2 ⟨_, hp, rfl⟩) hlt ih

end Fuso.Turn

import Fuso.Theory.Deadline
import Mathlib.Data.List.Induction
import Mathlib.Data.List.Nodup
import Mathlib.Logic.Function.Basic

/-!
# Futures in a race

A future that polls others from the end of its list, keeps those that are pending for its next poll
and is ready as soon as one of them is. The list is turned round by every poll, and each of the
futures does what it does when it is polled alone, so `Race.drives_list` says which one is first and
how far the others have come.
-/

namespace Fuso
open Turn

/-- `futures` are those that are still to be polled, `polled` those that were pending in this
poll. -/
structure Race (ι : Type u) (σ : Type v) where
  futures : List ι
  polled : List ι
  state : ι → σ

namespace Race
variable [DecidableEq ι]

/-- A turn of the race: a turn of the last future of the list, or the end of the poll. -/
def step (inner : σ → Turn σ ρ) (r₀ : ρ) (x : Race ι σ) : Turn (Race ι σ) ρ :=
  match x.futures.getLast? with
  | none =>
    let x := { x with futures := x.polled, polled := [] }
    if x.futures.isEmpty then .ready x r₀ else .pending x
  | some i =>
    match inner (x.state i) with
    | .again s => .again { x with state := Function.update x.state i s }
    | .pending s =>
      .again {
        futures := x.futures.dropLast
        polled := x.polled ++ [i]
        state := Function.update x.state i s }
    | .ready s r =>
      .ready { x with futures := x.futures.dropLast, state := Function.update x.state i s } r

variable {inner : σ → Turn σ ρ} {r₀ : ρ} {l polled : List ι} {state : ι → σ}

theorem step_concat (i : ι) : step inner r₀ ⟨l ++ [i], polled, state⟩ =
    match inner (state i) with
    | .again s => .again ⟨l ++ [i], polled, Function.update state i s⟩
    | .pending s => .again ⟨l, polled ++ [i], Function.update state i s⟩
    | .ready s r => .ready ⟨l, polled, Function.update state i s⟩ r := by
  simp only [step, List.getLast?_concat, List.dropLast_concat]

/-- As long as the last future of the list goes round, nothing else happens. -/
theorem polls_concat {i : ι} (H : Polls (step inner r₀) ⟨l ++ [i], polled, state⟩ t) :
    (∃ s, Polls inner (state i) (.pending s) ∧
      Polls (step inner r₀) ⟨l, polled ++ [i], Function.update state i s⟩ t) ∨
    ∃ s r, Polls inner (state i) (.ready s r) ∧
      t = .ready ⟨l, polled, Function.update state i s⟩ r := by
  generalize hx : (⟨l ++ [i], polled, state⟩ : Race ι σ) = x at H
  induction H generalizing state with
  | again h H ih =>
    subst hx
    rw [step_concat] at h
    split at h
    · next s hs =>
      cases h
      have := ih rfl
      simp only [Function.update_self, Function.update_idem] at this
      obtain ⟨s', hp, H⟩ | ⟨s', r, hp, rfl⟩ := this
      · exact .inl ⟨s', .again hs hp, H⟩
      · exact .inr ⟨s', r, .again hs hp, rfl⟩
    · next s hs =>
      cases h
      exact .inl ⟨s, .pending hs, H⟩
    · cases h
  | pending h =>
    subst hx
    rw [step_concat] at h
    split at h <;> cases h
  | ready h =>
    subst hx
    rw [step_concat] at h
    split at h
    · cases h
    · cases h
    · next hs =>
      cases h
      exact .inr ⟨_, _, .ready hs, rfl⟩

/-- The futures of the list give up, and the others are left alone. -/
def Pend (inner : σ → Turn σ ρ) (l : List ι) (state state' : ι → σ) : Prop :=
  (∀ i ∈ l, Polls inner (state i) (.pending (state' i))) ∧ ∀ i ∉ l, state' i = state i

theorem Pend.concat (hp : Polls inner (state i) (.pending s)) (hi : i ∉ l)
    (h : Pend inner l (Function.update state i s) state') : Pend inner (l ++ [i]) state state' := by
  constructor
  · intro j hj
    by_cases hji : j = i
    · subst hji
      rwa [h.2 j hi, Function.update_self]
    · have hp := h.1 j (by simpa [hji] using hj)
      rwa [Function.update_of_ne hji] at hp
  · intro j hj
    have hne : j ≠ i := by
      rintro rfl
      simp at hj
    rw [h.2 j fun h => hj (by simp [h]), Function.update_of_ne hne]

/-- A poll of the race: all of the futures give up, or one is ready behind those that do. -/
theorem polls_list (hnd : l.Nodup) (hne : polled ++ l ≠ [])
    (H : Polls (step inner r₀) ⟨l, polled, state⟩ t) :
    (∃ state', Pend inner l state state' ∧ t = .pending ⟨polled ++ l.reverse, [], state'⟩) ∨
    ∃ post i pre x r, l = post ++ i :: pre ∧ t = .ready x r ∧
      Polls inner (state i) (.ready (x.state i) r) ∧
      (∀ j ∈ pre, Polls inner (state j) (.pending (x.state j))) ∧
      ∀ j, j ≠ i → j ∉ pre → x.state j = state j := by
  induction l using List.reverseRecOn generalizing polled state with
  | nil =>
    have hstep : step inner r₀ ⟨[], polled, state⟩ = .pending ⟨polled, [], state⟩ := by
      simpa [step] using hne
    exact .inl ⟨state, ⟨by simp, fun _ _ => rfl⟩, by simpa using H.unique (.pending hstep)⟩
  | append_singleton l i ih =>
    obtain ⟨hl, -, hi⟩ := List.nodup_append.1 hnd
    have hi : i ∉ l := fun h => hi i h i (List.mem_singleton_self i) rfl
    obtain ⟨s, hp, H⟩ | ⟨s, r, hp, rfl⟩ := polls_concat H
    · obtain ⟨state', h, rfl⟩ | ⟨post, k, pre, x, r, rfl, rfl, hk, hpre, hrest⟩ :=
        ih hl (by simp) H
      · exact .inl ⟨state', h.concat hp hi, by simp⟩
      · have hik : i ≠ k := by
          rintro rfl
          simp at hi
        have hipre : i ∉ pre := fun h => hi (by simp [h])
        have old : ∀ j, j ≠ i → Function.update state i s j = state j := fun j hj =>
          Function.update_of_ne hj _ _
        refine .inr ⟨post, k, pre ++ [i], x, r, by simp, rfl, old k hik.symm ▸ hk, ?_, ?_⟩
        · intro j hj
          obtain hj | rfl : j ∈ pre ∨ j = i := by simpa using hj
          · exact old j (fun h => hipre (h ▸ hj)) ▸ hpre j hj
          · rwa [hrest j hik hipre, Function.update_self]
        · intro j hjk hj
          simp only [List.mem_append, List.mem_singleton, not_or] at hj
          rw [hrest j hjk hj.1, old j hj.2]
    · exact .inr ⟨l, i, [], _, r, rfl, rfl, by simpa using hp, by simp, fun j hj _ =>
        Function.update_of_ne hj _ _⟩

/-- The list behind `n` polls. -/
def turned : Nat → List ι → List ι
  | 0, l => l
  | n + 1, l => turned n l.reverse

omit [DecidableEq ι] in
@[simp] theorem mem_turned (n : Nat) : i ∈ turned n l ↔ i ∈ l := by
  induction n generalizing l with
  | zero => rfl
  | succ n ih => rw [turned, ih, List.mem_reverse]

omit [DecidableEq ι] in
@[simp] theorem nodup_turned (n : Nat) : (turned n l).Nodup ↔ l.Nodup := by
  induction n generalizing l with
  | zero => rfl
  | succ n ih => rw [turned, ih, List.nodup_reverse]

omit [DecidableEq ι] in
theorem turned_succ (n : Nat) (l : List ι) : turned (n + 1) l = (turned n l).reverse := by
  induction n generalizing l with
  | zero => rfl
  | succ n ih => exact ih l.reverse

/-- As long as the race waits, all of its futures do. -/
theorem waits_list (hnd : l.Nodup) (hne : l ≠ [])
    (H : Waits (step inner r₀) n ⟨l, [], state⟩ x) :
    ∃ state', x = ⟨turned n l, [], state'⟩ ∧ ∀ i ∈ l, Waits inner n (state i) (state' i) := by
  induction n generalizing l state with
  | zero =>
    cases H
    exact ⟨state, rfl, fun _ _ => .zero⟩
  | succ n ih =>
    obtain _ | ⟨hp, H⟩ := H
    obtain ⟨state₁, h₁, hx⟩ | ⟨_, _, _, _, _, _, hx, -⟩ := polls_list hnd (by simpa) hp
    · cases hx
      obtain ⟨state', rfl, h⟩ := ih (List.nodup_reverse.2 hnd) (by simpa) H
      exact ⟨state', rfl, fun i hi => .succ (h₁.1 i hi) (h i (List.mem_reverse.2 hi))⟩
    · cases hx

/-- Who is first in a race: in the same poll those before it in the list were still pending, and
those behind it were not polled any more. -/
theorem drives_list (hnd : l.Nodup) (hne : l ≠ [])
    (H : Drives (step inner r₀) ⟨l, [], state⟩ x r) :
    ∃ n post i pre, turned n l = post ++ i :: pre ∧
      (∃ s, Waits inner n (state i) s ∧ Polls inner s (.ready (x.state i) r)) ∧
      (∀ j ∈ pre, Waits inner (n + 1) (state j) (x.state j)) ∧
      ∀ j ∈ post, Waits inner n (state j) (x.state j) := by
  obtain ⟨n, u, hw, hp⟩ := H.waits
  obtain ⟨state', rfl, h⟩ := waits_list hnd hne hw
  have hnd' : (turned n l).Nodup := (nodup_turned n).2 hnd
  have hne' : turned n l ≠ [] := fun h => by
    obtain ⟨i, hi⟩ := List.exists_mem_of_ne_nil l hne
    simpa [h] using (mem_turned n).2 hi
  obtain ⟨_, -, hx⟩ | ⟨post, i, pre, x, r, hl, hx, hi, hpre, hrest⟩ :=
    polls_list hnd' (by simpa) hp
  · cases hx
  · cases hx
    have mem : ∀ j, j ∈ post ++ i :: pre → Waits inner n (state j) (state' j) := fun j hj =>
      h j ((mem_turned n).1 (hl ▸ hj))
    refine ⟨n, post, i, pre, hl, ⟨_, mem i (by simp), hi⟩, fun j hj => ?_, fun j hj => ?_⟩
    · exact (mem j (by simp [hj])).concat (hpre j hj)
    · rw [hl] at hnd'
      obtain ⟨-, -, hdis⟩ := List.nodup_append.1 hnd'
      rw [hrest j (hdis j hj i (by simp)) fun h => hdis j hj j (by simp [h]) rfl]
      exact mem j (by simp [hj])

end Race
end Fuso

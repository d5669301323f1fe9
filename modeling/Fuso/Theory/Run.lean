import Mathlib.Data.List.Basic

/-!
# Runs over a list of events

A system that is driven by events, `step : ε → σ → σ`, and its runs. An invariant that every event
keeps holds in every state of a run (`after_invariant`); one that only admissible events keep holds
in every state of a run whose events are admissible (`after_guarded`), and exactly in those when no
other event leaves it true (`after_iff`). A system with a rank comes to rest (`length_le_rank`).
-/

namespace Fuso

section
variable {σ : Type u} {ε : Type v} (step : ε → σ → σ)

/-- The state behind the events. -/
def after (s : σ) (events : List ε) : σ := events.foldl (fun s e => step e s) s

/-- Every event is admissible in the state it meets. -/
def Admissible (ok : ε → σ → Prop) (s : σ) (events : List ε) : Prop :=
  ∀ pre e, pre ++ [e] <+: events → ok e (after step s pre)

@[simp] theorem after_nil (s : σ) : after step s [] = s := rfl

@[simp] theorem after_cons (s : σ) (e : ε) (events : List ε) :
    after step s (e :: events) = after step (step e s) events := rfl

theorem after_append (s : σ) (events events' : List ε) :
    after step s (events ++ events') = after step (after step s events) events' :=
  List.foldl_append

theorem after_concat (s : σ) (events : List ε) (e : ε) :
    after step s (events ++ [e]) = step e (after step s events) := by
  rw [after_append, after_cons, after_nil]

variable {step} {s : σ} {events : List ε} {I : σ → Prop} {ok : ε → σ → Prop}

theorem admissible_nil : Admissible step ok s [] := by
  intro pre e h
  simp at h

theorem admissible_cons : Admissible step ok s (e :: events) ↔
    ok e s ∧ Admissible step ok (step e s) events := by
  constructor
  · intro h
    refine ⟨h [] e (by simp), fun pre e' hpre => ?_⟩
    exact h (e :: pre) e' (by simpa using hpre)
  · rintro ⟨he, h⟩ pre e' hpre
    cases pre with
    | nil =>
      obtain rfl : e' = e := by simpa using hpre
      exact he
    | cons a pre =>
      obtain ⟨rfl, htail⟩ : a = e ∧ pre ++ [e'] <+: events := by simpa using hpre
      exact h pre e' htail

instance decidableAdmissible [∀ e s, Decidable (ok e s)] :
    ∀ s events, Decidable (Admissible step ok s events)
  | _, [] => isTrue admissible_nil
  | s, e :: events =>
    have := decidableAdmissible (step e s) events
    decidable_of_iff _ admissible_cons.symm

/-- The invariant rule. -/
theorem after_invariant (hstep : ∀ s e, I s → I (step e s)) (hs : I s) :
    I (after step s events) := by
  induction events generalizing s with
  | nil => exact hs
  | cons e events ih => exact ih (hstep s e hs)

/-- The invariant rule for events that have to be admissible. -/
theorem after_guarded (hstep : ∀ s e, I s → ok e s → I (step e s)) (hs : I s)
    (hok : Admissible step ok s events) : I (after step s events) := by
  induction events generalizing s with
  | nil => exact hs
  | cons e events ih =>
    obtain ⟨he, hrest⟩ := admissible_cons.1 hok
    exact ih (hstep s e hs he) hrest

/-- What an invariant of the admissible events implies, and no other event leaves true, holds all
along a run exactly when all its events are admissible. -/
theorem after_iff_of_mem {P : σ → Prop} (hP : ∀ s, I s → P s)
    (hstep : ∀ s, ∀ e ∈ events, I s → ok e s → I (step e s))
    (hok : ∀ s, ∀ e ∈ events, I s → P (step e s) → ok e s) (hs : I s) :
    (∀ pre, pre <+: events → P (after step s pre)) ↔ Admissible step ok s events := by
  induction events generalizing s with
  | nil =>
    exact ⟨fun _ => admissible_nil, fun _ pre h => by rw [List.prefix_nil.1 h]; exact hP s hs⟩
  | cons e events ih =>
    rw [admissible_cons]
    have ih' := ih (s := step e s) (fun s e he => hstep s e (List.mem_cons_of_mem _ he))
      (fun s e he => hok s e (List.mem_cons_of_mem _ he))
    constructor
    · intro h
      have he : ok e s := hok s e List.mem_cons_self hs (h [e] (by simp))
      exact ⟨he, (ih' (hstep s e List.mem_cons_self hs he)).1
        fun pre hpre => h (e :: pre) (by simpa using hpre)⟩
    · rintro ⟨he, hrest⟩ pre hpre
      cases pre with
      | nil => exact hP s hs
      | cons a pre =>
        obtain ⟨rfl, htail⟩ : a = e ∧ pre <+: events := by simpa using hpre
        exact (ih' (hstep s a List.mem_cons_self hs he)).2 hrest pre htail

theorem after_iff {P : σ → Prop} (hP : ∀ s, I s → P s)
    (hstep : ∀ s e, I s → ok e s → I (step e s)) (hok : ∀ s e, I s → P (step e s) → ok e s)
    (hs : I s) :
    (∀ pre, pre <+: events → P (after step s pre)) ↔ Admissible step ok s events :=
  after_iff_of_mem hP (fun s e _ => hstep s e) (fun s e _ => hok s e) hs

/-! ## Systems that break for good -/

/-- The system is good in every state of a run of harmless events, and in none behind a fault. -/
structure Fragile (step : ε → σ → σ) (harmless fault : ε → Prop) (good : σ → Prop) (s₀ : σ) :
    Prop where
  sound : ∀ events, (∀ e ∈ events, harmless e) → good (after step s₀ events)
  broken : ∀ events e more, (∀ e ∈ events, harmless e) → fault e →
    ¬ good (after step s₀ (events ++ e :: more))

/-- The rule, with an invariant for the states before a fault and one for those behind it. -/
theorem Fragile.of_invariants {harmless fault : ε → Prop} {good B : σ → Prop}
    (hgood : ∀ s, I s → good s) (hbroken : ∀ s, B s → ¬ good s)
    (hstep : ∀ s e, I s → harmless e → I (step e s)) (hfault : ∀ s e, I s → fault e → B (step e s))
    (hB : ∀ s e, B s → B (step e s)) (hs : I s) : Fragile step harmless fault good s := by
  have hI : ∀ events, (∀ e ∈ events, harmless e) → I (after step s events) := fun events h =>
    have hok : Admissible step (fun e _ => harmless e) s events :=
      fun pre e hpre => h e (hpre.subset (by simp))
    after_guarded hstep hs hok
  refine ⟨fun events h => hgood _ (hI events h), fun events e more h he => ?_⟩
  rw [after_append, after_cons]
  exact hbroken _ (after_invariant hB (hfault _ e (hI events h) he))

/-! ## Systems that come to rest -/

/-- When every event that changes anything lowers a rank, a run of such events is not longer than
the rank of its start. -/
theorem length_le_rank (rank : σ → Nat) (hstep : ∀ s e, I s → I (step e s))
    (hrank : ∀ s e, I s → step e s = s ∨ rank (step e s) < rank s) (hs : I s)
    (hmoves : Admissible step (fun e s => step e s ≠ s) s events) : events.length ≤ rank s := by
  induction events generalizing s with
  | nil => exact Nat.zero_le _
  | cons e events ih =>
    obtain ⟨hne, hrest⟩ := admissible_cons.1 hmoves
    have hlt := (hrank s e hs).resolve_left hne
    exact Nat.lt_of_le_of_lt (ih (hstep s e hs) hrest) hlt

/-! ## Traces -/

variable {trace : σ → List α}

/-- What was written down stays. -/
theorem trace_isPrefix (hstep : ∀ s e, trace s <+: trace (step e s)) (h : pre <+: events) :
    trace (after step s pre) <+: trace (after step s events) := by
  obtain ⟨events, rfl⟩ := h
  rw [after_append]
  exact after_invariant (I := (trace (after step s pre) <+: trace ·))
    (fun s e hs => hs.trans (hstep s e)) List.prefix_rfl

/-- When every event writes down one entry at most, every part of the trace that goes on from its
start is the trace of a part of the run. -/
theorem exists_prefix (trace : σ → List α)
    (hstep : ∀ s e, ∃ l, l.length ≤ 1 ∧ trace (step e s) = trace s ++ l)
    (hle : trace s <+: p) (hp : p <+: trace (after step s events)) :
    ∃ pre, pre <+: events ∧ trace (after step s pre) = p := by
  have mono : ∀ s e, trace s <+: trace (step e s) := fun s e => by
    obtain ⟨l, -, hl⟩ := hstep s e
    exact hl ▸ List.prefix_append _ _
  induction events generalizing s with
  | nil => exact ⟨[], List.prefix_rfl, hle.eq_of_length_le hp.length_le⟩
  | cons e events ih =>
    by_cases heq : trace s = p
    · exact ⟨[], List.nil_prefix, heq⟩
    · obtain ⟨l, hlen, hl⟩ := hstep s e
      have hlt : (trace s).length < p.length :=
        Nat.lt_of_not_le fun h => heq (hle.eq_of_length_le h)
      have hall : trace (step e s) <+: trace (after step s (e :: events)) :=
        trace_isPrefix mono List.nil_prefix
      have hnext : trace (step e s) <+: p :=
        List.prefix_of_prefix_length_le hall hp (by rw [hl, List.length_append]; omega)
      obtain ⟨pre, hpre, htrace⟩ := ih hnext hp
      exact ⟨e :: pre, by simpa using hpre, htrace⟩

end

/-! ## Parties in a list -/

/-- A party that is put back as it is. -/
theorem set_eq_self {l : List α} {x : α} (h : l[i]? = some x) : l.set i x = l := by
  obtain ⟨hi, rfl⟩ := List.getElem?_eq_some_iff.1 h
  exact List.set_getElem_self hi

end Fuso

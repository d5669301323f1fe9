import Fuso.Kcp.Connector
import Fuso.Theory.Run

/-!
# Conversation ids of concurrent connects

An id is free for every call of `connect` until one of them has put its session into the map. The
sessions that are active have distinct ids as long as no call takes an id that another one has taken
and not put into the map (`conv_unique`); and when one does, the two sessions can both get there.
-/

namespace Fuso.Kcp

/-- The call has no session. -/
def Connect.Idle (phase : Connect) : Prop :=
  (∀ conv, phase ≠ .made conv) ∧ ∀ conv, phase ≠ .connected conv

namespace Connector

/-- The active sessions have distinct ids, and none was replaced. -/
structure Unique (c : Connector) : Prop where
  conv : ∀ conv i j, (conv, i) ∈ c.active → (conv, j) ∈ c.active → i = j
  kept : c.replaced = false

/-- The id that a call takes with its next step. -/
def picks (c : Connector) (i : Nat) : Option UInt32 :=
  match c.connects[i]? with
  | some .locked => if (c.sessions c.increment).isNone then some c.increment else none
  | some (.next first) =>
    let conv := incrementNext c.increment
    if conv ≠ first ∧ (c.sessions conv).isNone then some conv else none
  | _ => none

def Event.picks : Event → Connector → Option UInt32
  | .run i, c => c.picks i
  | _, _ => none

/-- No call takes an id for which another one has made a session that is not in the map yet. -/
def Apart (e : Event) (c : Connector) : Prop := ∀ conv ∈ e.picks c, .made conv ∉ c.connects

instance : Decidable (Apart e c) :=
  match h : e.picks c with
  | none => isTrue (by simp [Apart, h])
  | some conv => decidable_of_iff (.made conv ∉ c.connects) (by simp [Apart, h])

/-- The step that takes an id. -/
theorem run_of_picks {c : Connector} {i : Nat} {conv : UInt32} (h : c.picks i = some conv) :
    ∃ phase increment, c.connects[i]? = some phase ∧ phase.Idle ∧ c.sessions conv = none ∧
      c.run i = { c.goTo i (.made conv) with increment, lock := none } := by
  cases hi : c.connects[i]? with
  | none => simp [picks, hi] at h
  | some phase =>
    cases phase with
    | locked =>
      simp only [picks, hi, Option.isNone_iff_eq_none, Option.ite_none_right_eq_some,
        Option.some.injEq] at h
      obtain ⟨hnone, rfl⟩ := h
      refine ⟨_, c.increment, rfl, by simp [Connect.Idle], hnone, ?_⟩
      simp only [run, hi, check, hnone, Option.isNone_none, if_true]
      rfl
    | next first =>
      simp only [picks, hi, Option.isNone_iff_eq_none, Option.ite_none_right_eq_some,
        Option.some.injEq] at h
      obtain ⟨⟨hfirst, hnone⟩, rfl⟩ := h
      refine ⟨_, incrementNext c.increment, rfl, by simp [Connect.Idle], hnone, ?_⟩
      simp only [run, hi, if_neg hfirst, check, hnone, Option.isNone_none, if_true]
      rfl
    | _ => simp [picks, hi] at h

/-- What a step of a call does: it waits or goes on without a session, it takes an id, or its
session goes into the map. -/
theorem run_cases (c : Connector) (i : Nat) :
    c.run i = c ∨
    (∃ phase phase' increment lock, c.connects[i]? = some phase ∧ phase.Idle ∧ phase'.Idle ∧
      c.run i = { c.goTo i phase' with increment, lock }) ∨
    (∃ conv, c.picks i = some conv) ∨
    ∃ conv, c.connects[i]? = some (.made conv) ∧ c.run i = c.insertSession i conv := by
  cases h : c.connects[i]? with
  | none => exact .inl (by simp only [run, h])
  | some phase =>
    cases phase with
    | start =>
      cases hlock : c.lock with
      | none =>
        refine .inr (.inl ⟨_, .locked, c.increment, some i, rfl, by simp [Connect.Idle],
          by simp [Connect.Idle], ?_⟩)
        simp only [run, h, hlock, Option.isNone_none, if_true]
        rfl
      | some j => exact .inl (by simp [run, h, hlock])
    | locked =>
      cases hconv : c.sessions c.increment with
      | none => exact .inr (.inr (.inl ⟨c.increment, by simp [picks, h, hconv]⟩))
      | some life =>
        refine .inr (.inl ⟨_, .next c.increment, c.increment, c.lock, rfl, by simp [Connect.Idle],
          by simp [Connect.Idle], ?_⟩)
        simp only [run, h, check, hconv, Option.isNone_some, Bool.false_eq_true, if_false]
        rfl
    | next first =>
      by_cases hfirst : incrementNext c.increment = first
      · refine .inr (.inl ⟨_, .noMoreConv, incrementNext c.increment, none, rfl,
          by simp [Connect.Idle], by simp [Connect.Idle], ?_⟩)
        simp only [run, h, if_pos hfirst]
        rfl
      · cases hconv : c.sessions (incrementNext c.increment) with
        | none =>
          exact .inr (.inr (.inl ⟨incrementNext c.increment, by simp [picks, h, hconv, hfirst]⟩))
        | some life =>
          refine .inr (.inl ⟨_, .next first, incrementNext c.increment, c.lock, rfl,
            by simp [Connect.Idle], by simp [Connect.Idle], ?_⟩)
          simp only [run, h, if_neg hfirst, check, hconv, Option.isNone_some, Bool.false_eq_true,
            if_false]
          rfl
    | made conv =>
      cases hlock : c.lock with
      | none => exact .inr (.inr (.inr ⟨conv, rfl, by simp [run, h, hlock]⟩))
      | some j => exact .inl (by simp [run, h, hlock])
    | connected conv => exact .inl (by simp only [run, h])
    | noMoreConv => exact .inl (by simp only [run, h])

/-- What holds as long as no two calls have the same id. -/
structure Coherent (c : Connector) : Prop where
  made : ∀ (i : Nat) conv, c.connects[i]? = some (.made conv) → c.sessions conv = none
  apart : ∀ (i j : Nat) conv, c.connects[i]? = some (.made conv) →
    c.connects[j]? = some (.made conv) → i = j
  active : ∀ conv i, c.sessions conv = some (.active i) ↔ (conv, i) ∈ c.active
  connected : ∀ conv i, (conv, i) ∈ c.active → c.connects[i]? = some (.connected conv)
  live : ∀ conv (i : Nat), c.connects[i]? = some (.connected conv) → i ∉ c.cleaned →
    (conv, i) ∈ c.active
  kept : c.replaced = false

variable {c c' : Connector} {i : Nat} {conv : UInt32}

theorem Coherent.unique (h : Coherent c) : Unique c where
  conv conv i j hi hj := by
    rw [← h.active] at hi hj
    rw [hi] at hj
    cases hj
    rfl
  kept := h.kept

/-- A step that is nothing to the sessions. -/
theorem Coherent.of_phases (h : Coherent c) (hsessions : c'.sessions = c.sessions)
    (hactive : c'.active = c.active) (hcleaned : c'.cleaned = c.cleaned)
    (hreplaced : c'.replaced = c.replaced)
    (hmade : ∀ (k : Nat) conv,
      c'.connects[k]? = some (.made conv) ↔ c.connects[k]? = some (.made conv))
    (hconn : ∀ (k : Nat) conv, c'.connects[k]? = some (.connected conv) ↔
      c.connects[k]? = some (.connected conv)) : Coherent c' where
  made k conv hk := by
    rw [hsessions]
    exact h.made k conv ((hmade k conv).1 hk)
  apart k l conv hk hl := h.apart k l conv ((hmade k conv).1 hk) ((hmade l conv).1 hl)
  active conv k := by
    rw [hsessions, hactive]
    exact h.active conv k
  connected conv k hk := (hconn k conv).2 (h.connected conv k (hactive ▸ hk))
  live conv k hk hk' := by
    rw [hactive]
    exact h.live conv k ((hconn k conv).1 hk) (hcleaned ▸ hk')
  kept := hreplaced.trans h.kept

theorem getElem?_goTo (hi : c.connects[i]? = some phase) (k : Nat) :
    (c.goTo i phase').connects[k]? = if i = k then some phase' else c.connects[k]? := by
  have hlt := (List.getElem?_eq_some_iff.1 hi).1
  simp only [goTo, List.getElem?_set, hlt, if_true]

/-- Phases without a session do not count. -/
theorem getElem?_goTo_iff (hi : c.connects[i]? = some phase) (h : phase ≠ p) (h' : phase' ≠ p)
    (k : Nat) : (c.goTo i phase').connects[k]? = some p ↔ c.connects[k]? = some p := by
  rw [getElem?_goTo hi]
  split
  · next hk => simp [← hk, hi, h, h']
  · rfl

/-- The step that takes an id. -/
theorem Coherent.take (h : Coherent c) (hi : c.connects[i]? = some phase) (hidle : phase.Idle)
    (hnone : c.sessions conv = none) (hapart : .made conv ∉ c.connects) :
    Coherent { c.goTo i (.made conv) with increment := inc, lock := none } := by
  have hconn : ∀ (k : Nat) conv', (c.goTo i (.made conv)).connects[k]? = some (.connected conv') ↔
      c.connects[k]? = some (.connected conv') := fun k conv' =>
    getElem?_goTo_iff hi (hidle.2 conv') (by simp) k
  have hmade : ∀ (k : Nat) conv', (c.goTo i (.made conv)).connects[k]? = some (.made conv') →
      i = k ∧ conv' = conv ∨ c.connects[k]? = some (.made conv') ∧ conv' ≠ conv := by
    intro k conv' hk
    rw [getElem?_goTo hi] at hk
    split at hk
    · next hik => exact .inl ⟨hik, by simpa using hk.symm⟩
    · refine .inr ⟨hk, ?_⟩
      rintro rfl
      exact hapart (List.mem_of_getElem? hk)
  refine ⟨fun k conv' hk => ?_, fun k l conv' hk hl => ?_, h.active, fun conv' k hk => ?_,
    fun conv' k hk => ?_, h.kept⟩
  · rcases hmade k conv' hk with ⟨-, rfl⟩ | ⟨hk, -⟩
    · exact hnone
    · exact h.made k conv' hk
  · rcases hmade k conv' hk with ⟨rfl, rfl⟩ | ⟨hk, hne⟩
    · rcases hmade l conv' hl with ⟨rfl, -⟩ | ⟨-, hne⟩
      · rfl
      · exact absurd rfl hne
    · rcases hmade l conv' hl with ⟨-, rfl⟩ | ⟨hl, -⟩
      · exact absurd rfl hne
      · exact h.apart k l conv' hk hl
  · exact (hconn k conv').2 (h.connected conv' k hk)
  · exact h.live conv' k ((hconn k conv').1 hk)

/-- The session of a call goes to an id that is still free. -/
theorem Coherent.insertSession (h : Coherent c) (hi : c.connects[i]? = some (.made conv)) :
    Coherent (c.insertSession i conv) := by
  have hnone := h.made i conv hi
  have hmade : ∀ (k : Nat) conv', (c.goTo i (.connected conv)).connects[k]? = some (.made conv') →
      c.connects[k]? = some (.made conv') ∧ conv' ≠ conv := by
    intro k conv' hk
    rw [getElem?_goTo hi] at hk
    split at hk
    · cases hk
    · next hik =>
      refine ⟨hk, ?_⟩
      rintro rfl
      exact hik (h.apart i k conv' hi hk)
  have hconn : ∀ (k : Nat) conv',
      (c.goTo i (.connected conv)).connects[k]? = some (.connected conv') ↔
      i = k ∧ conv' = conv ∨ c.connects[k]? = some (.connected conv') := by
    intro k conv'
    rw [getElem?_goTo hi]
    split
    · next hik => simp [hik ▸ hi, hik, eq_comm]
    · next hik => simp [hik]
  refine ⟨fun k conv' hk => ?_, fun k l conv' hk hl => ?_, fun conv' k => ?_, fun conv' k hk => ?_,
    fun conv' k hk hk' => ?_, ?_⟩
  · obtain ⟨hk, hne⟩ := hmade k conv' hk
    exact (Sessions.insert_of_ne hne).trans (h.made k conv' hk)
  · exact h.apart k l conv' (hmade k conv' hk).1 (hmade l conv' hl).1
  · by_cases hconv : conv' = conv
    · subst hconv
      have hfree : (conv', k) ∉ c.active := by
        rw [← h.active, hnone]
        simp
      simp [Connector.insertSession, hfree, eq_comm]
    · simp only [Connector.insertSession, Sessions.insert_of_ne hconv, h.active, List.mem_cons,
        Prod.mk.injEq, hconv, false_and, false_or]
  · refine (hconn k conv').2 ?_
    rcases List.mem_cons.1 hk with hk | hk
    · cases hk
      exact .inl ⟨rfl, rfl⟩
    · exact .inr (h.connected conv' k hk)
  · rcases (hconn k conv').1 hk with ⟨rfl, rfl⟩ | hk
    · exact List.mem_cons_self
    · exact List.mem_cons_of_mem _ (h.live conv' k hk hk')
  · simp only [Connector.insertSession, h.kept, hnone, Option.any_none, Bool.or_self]

/-- The clean-up of a session that is in the map finds it there. -/
theorem Coherent.clean_connected (h : Coherent c) (hi : c.connects[i]? = some (.connected conv))
    (hlive : i ∉ c.cleaned) (now : Nat) : Coherent { c with
      sessions := c.sessions.clean conv id now, cleaned := i :: c.cleaned
      active := c.active.filter (·.2 ≠ i) } := by
  have hactive := h.live conv i hi hlive
  have hsession := (h.active conv i).2 hactive
  have hother : ∀ conv' k, (conv', k) ∈ c.active → conv' ≠ conv → k ≠ i := by
    rintro conv' k hk hne rfl
    have hk' := h.connected conv' k hk
    rw [hi] at hk'
    cases hk'
    exact hne rfl
  refine ⟨fun k conv' hk => ?_, h.apart, fun conv' k => ?_, fun conv' k hk => ?_,
    fun conv' k hk hk' => ?_, h.kept⟩
  · have hnone := h.made k conv' hk
    have hne : conv' ≠ conv := by
      rintro rfl
      rw [hsession] at hnone
      cases hnone
    exact (Sessions.clean_of_ne hne).trans hnone
  · by_cases hconv : conv' = conv
    · subst hconv
      refine iff_of_false Sessions.clean_active fun hk => ?_
      obtain ⟨hk, hne⟩ := List.mem_filter.1 hk
      exact (of_decide_eq_true hne) (h.unique.conv conv' k i hk hactive)
    · dsimp only
      rw [Sessions.clean_of_ne hconv, h.active, List.mem_filter]
      exact ⟨fun hk => ⟨hk, decide_eq_true (hother conv' k hk hconv)⟩, And.left⟩
  · exact h.connected conv' k (List.mem_filter.1 hk).1
  · obtain ⟨hne, hk'⟩ := not_or.1 (mt List.mem_cons.2 hk')
    exact List.mem_filter.2 ⟨h.live conv' k hk hk', decide_eq_true hne⟩

/-- The clean-up of a session that is not in the map finds nothing. -/
theorem Coherent.clean_made (h : Coherent c) (hi : c.connects[i]? = some (.made conv)) (now : Nat) :
    Coherent { c with
      sessions := c.sessions.clean conv id now, cleaned := i :: c.cleaned
      active := c.active.filter (·.2 ≠ i) } := by
  have hfilter : c.active.filter (·.2 ≠ i) = c.active := by
    refine List.filter_eq_self.2 fun ⟨conv', k⟩ hk => decide_eq_true ?_
    rintro rfl
    have hk' := h.connected conv' k hk
    rw [hi] at hk'
    cases hk'
  rw [Sessions.clean_of_none (h.made i conv hi), hfilter]
  exact ⟨h.made, h.apart, h.active, h.connected,
    fun conv' k hk hk' => h.live conv' k hk (not_or.1 (mt List.mem_cons.2 hk')).2, h.kept⟩

theorem Coherent.clean (h : Coherent c) (i now : Nat) : Coherent (c.clean i now) := by
  cases hi : c.connects[i]? with
  | none => simpa only [Connector.clean, session?, hi] using h
  | some phase =>
    cases phase with
    | made conv =>
      simp only [Connector.clean, session?, hi]
      split
      · exact h.clean_made hi now
      · exact h
    | connected conv =>
      simp only [Connector.clean, session?, hi]
      split
      · next hok => exact h.clean_connected hi hok.2 now
      · exact h
    | _ => simpa only [Connector.clean, session?, hi] using h

theorem Coherent.purge (h : Coherent c) (now : Nat) : Coherent (c.purge now) := by
  unfold Connector.purge
  split
  · exact ⟨fun i conv hi => Sessions.retain_none (h.made i conv hi), h.apart,
      fun conv i => (Sessions.retain_active now).trans (h.active conv i), h.connected, h.live,
      h.kept⟩
  · exact h

theorem Coherent.connect (h : Coherent c) : Coherent (step .connect c) := by
  have hnew : ∀ (k : Nat) phase, phase ≠ .start →
      ((step .connect c).connects[k]? = some phase ↔ c.connects[k]? = some phase) := by
    intro k phase hphase
    simp only [step, List.getElem?_append]
    split
    · rfl
    · next hk =>
      rw [List.getElem?_eq_none (Nat.le_of_not_lt hk)]
      refine iff_of_false (fun h => hphase ?_) (by simp)
      simpa using (List.mem_singleton.1 (List.mem_of_getElem? h))
  exact h.of_phases rfl rfl rfl rfl (fun k conv => hnew k _ (by simp))
    (fun k conv => hnew k _ (by simp))

theorem Coherent.step (h : Coherent c) (hok : Apart e c) : Coherent (step e c) := by
  cases e with
  | connect => exact h.connect
  | run i =>
    rcases c.run_cases i with hrun | ⟨phase, phase', inc, lock, hi, hidle, hidle', hrun⟩ |
      ⟨conv, hpicks⟩ | ⟨conv, hi, hrun⟩
    · rw [Connector.step, hrun]
      exact h
    · simp only [Connector.step, hrun]
      exact h.of_phases rfl rfl rfl rfl
        (fun k conv => getElem?_goTo_iff hi (hidle.1 conv) (hidle'.1 conv) k)
        (fun k conv => getElem?_goTo_iff hi (hidle.2 conv) (hidle'.2 conv) k)
    · obtain ⟨phase, inc, hi, hidle, hnone, hrun⟩ := run_of_picks hpicks
      rw [Connector.step, hrun]
      exact h.take hi hidle hnone (hok conv hpicks)
    · simp only [Connector.step, hrun]
      exact h.insertSession hi
  | clean i now => exact h.clean i now
  | purge now => exact h.purge now

theorem coherent_new : Coherent new :=
  ⟨by simp [new], by simp [new], by simp [new], by simp [new], by simp [new], rfl⟩

/-- Of two calls with one id, both can put their session into the map. -/
theorem overlap (hlock : c.lock = none) (hi : c.connects[i]? = some (.made conv))
    (hj : c.connects[j]? = some (.made conv)) (hij : i ≠ j) :
    ¬ (after step c [.run i, .run j]).Unique := by
  have hfirst : step (.run i) c = c.insertSession i conv := by simp [step, run, hi, hlock]
  have hj' : (c.insertSession i conv).connects[j]? = some (.made conv) := by
    rw [insertSession, getElem?_goTo hi, if_neg hij, hj]
  have hlock' : (c.insertSession i conv).lock = none := hlock
  have hsecond : step (.run j) (c.insertSession i conv) =
      (c.insertSession i conv).insertSession j conv := by simp [step, run, hj', hlock']
  intro h
  rw [after_cons, after_cons, after_nil, hfirst, hsecond] at h
  exact hij (h.conv conv i j (List.mem_cons_of_mem _ List.mem_cons_self) List.mem_cons_self)

/-- In a run in which no call takes an id that another one has taken and not put into the map, the
active sessions have distinct ids. When a call does, the run can go on to two with the same. -/
theorem conv_unique (events : List Event) :
    (Admissible step Apart new events → ∀ pre, pre <+: events → (after step new pre).Unique) ∧
    ∀ e c, ¬ Apart e c → ∃ more, ¬ (after step c (e :: more)).Unique := by
  refine ⟨fun hok pre hpre => ?_, fun e c h => ?_⟩
  · obtain ⟨rest, rfl⟩ := hpre
    have hpre : Admissible step Apart new pre := fun pre' e h => hok pre' e (h.trans ⟨rest, rfl⟩)
    exact (after_guarded (fun c e h hok => h.step hok) coherent_new hpre).unique
  · unfold Apart at h
    push Not at h
    obtain ⟨conv, hpicks, hmem⟩ := h
    obtain ⟨i, rfl⟩ : ∃ i, e = .run i := by
      cases e with
      | run i => exact ⟨i, rfl⟩
      | _ => cases hpicks
    obtain ⟨j, hj⟩ := List.getElem?_of_mem hmem
    obtain ⟨phase, inc, hi, hidle, -, hrun⟩ := run_of_picks hpicks
    have hij : i ≠ j := by
      rintro rfl
      rw [hi] at hj
      exact hidle.1 conv (Option.some.inj hj)
    refine ⟨[.run i, .run j], ?_⟩
    rw [after_cons, step, hrun]
    exact overlap rfl ((getElem?_goTo hi i).trans (if_pos rfl))
      (((getElem?_goTo hi j).trans (if_neg hij)).trans hj) hij

/-- Two calls, one after the other, and the clean-up of the first session. -/
theorem conv_unique_two : (after step new [.connect, .connect, .run 0, .run 0, .run 0, .run 1,
    .run 1, .run 1, .run 1, .clean 0 7]).Unique :=
  (conv_unique _).1 (by decide) _ List.prefix_rfl

/-- Two calls that take the id 1 before either has put its session into the map. -/
theorem not_conv_unique : ¬ ∀ events, (after step new events).Unique := by
  intro h
  exact absurd (h [.connect, .connect, .run 0, .run 0, .run 1, .run 1, .run 0, .run 1]).kept
    (by decide)

end Connector
end Fuso.Kcp

import Fuso.Async.Stream
import Fuso.Theory.Turn

/-!
# `JoinOutput`

Two futures that are polled together until both are ready or one of them fails. A poll takes each
future out of its place and puts it back when it is pending. `Joins` says what is known between two
polls, in terms of what was observed of the two futures so far, and `join_output_correct` what every
poll does.
-/

namespace Fuso

/-- A future that is pending so many times, and then ready. -/
structure Fut (α : Type u) where
  pendings : Nat
  output : Result α

namespace Fut
variable {α : Type u}

def poll : Fut α → Poll (Result α) × Fut α
  | ⟨0, output⟩ => (.ready output, ⟨0, output⟩)
  | ⟨n + 1, output⟩ => (.pending, ⟨n, output⟩)

/-- The polls of a future that is polled until it is ready and never again. -/
def script (f : Fut α) : List (Poll (Result α)) :=
  List.replicate f.pendings .pending ++ [.ready f.output]

end Fut

/-- The poll of one of the two futures. -/
inductive Observed (α : Type u) (β : Type v) where
  | first (r : Poll (Result α))
  | second (r : Poll (Result β))

namespace Observed
variable {α : Type u} {β : Type v}

def first? : Observed α β → Option (Poll (Result α))
  | first r => some r
  | second _ => none

def second? : Observed α β → Option (Poll (Result β))
  | first _ => none
  | second r => some r

def error? : Observed α β → Option Error
  | first (.ready (.error e)) | second (.ready (.error e)) => some e
  | _ => none

section
variable (observed : List (Observed α β)) (r : Poll (Result α)) (r' : Poll (Result β))

@[simp] theorem firsts_first :
    (observed ++ [first r]).filterMap first? = observed.filterMap first? ++ [r] := by
  simp [first?]

@[simp] theorem firsts_second :
    (observed ++ [second r']).filterMap first? = observed.filterMap first? := by
  simp [first?]

@[simp] theorem seconds_first :
    (observed ++ [first r]).filterMap second? = observed.filterMap second? := by
  simp [second?]

@[simp] theorem seconds_second :
    (observed ++ [second r']).filterMap second? = observed.filterMap second? ++ [r'] := by
  simp [second?]

end
end Observed

/-- The polls of the two futures so far are kept in `observed`. -/
structure JoinOutput (α : Type u) (β : Type v) where
  result : Option (Result α) × Option (Result β)
  fut1 : Option (Fut α)
  fut2 : Option (Fut β)
  observed : List (Observed α β)

def joinOutput (f1 : Fut α) (f2 : Fut β) : JoinOutput α β := ⟨(none, none), some f1, some f2, []⟩

namespace JoinOutput
variable {α : Type u} {β : Type v}

/-- The first `match` of the loop. It breaks with `pending`. -/
def pollFirst (j : JoinOutput α β) : Turn (JoinOutput α β) (Exit (α × β)) :=
  match j.fut1 with
  | none => if j.fut2.isNone then .pending j else .again j
  | some fut =>
    match fut.poll with
    | (.pending, fut) =>
      let j := { j with fut1 := some fut, observed := j.observed ++ [.first .pending] }
      if j.fut2.isNone then .pending j else .again j
    | (.ready (.error e), _) =>
      .ready { j with fut1 := none, observed := j.observed ++ [.first (.ready (.error e))] }
        (.ret (.error e))
    | (.ready r, _) =>
      .again { j with
        fut1 := none, result := (some r, j.result.2)
        observed := j.observed ++ [.first (.ready r)] }

/-- The second one. -/
def pollSecond (j : JoinOutput α β) : Turn (JoinOutput α β) (Exit (α × β)) :=
  match j.fut2 with
  | none => if j.fut1.isNone then .pending j else .again j
  | some fut =>
    match fut.poll with
    | (.pending, fut) =>
      .pending { j with fut2 := some fut, observed := j.observed ++ [.second .pending] }
    | (.ready (.error e), _) =>
      .ready { j with fut2 := none, observed := j.observed ++ [.second (.ready (.error e))] }
        (.ret (.error e))
    | (.ready r, _) =>
      .again { j with
        fut2 := none, result := (j.result.1, some r)
        observed := j.observed ++ [.second (.ready r)] }

/-- Behind the loop. -/
def finish (j : JoinOutput α β) : Turn (JoinOutput α β) (Exit (α × β)) :=
  if j.fut1.isNone ∧ j.fut2.isNone then
    match j.result with
    | (some (.ok r1), some (.ok r2)) =>
      .ready { j with result := (none, none) } (.ret (.ok (r1, r2)))
    | _ => .ready { j with result := (none, none) } .undefined
  else .pending j

/-- A turn of the loop, with what is behind the loop when it is the last one. -/
def turn (j : JoinOutput α β) : Turn (JoinOutput α β) (Exit (α × β)) :=
  match j.pollFirst with
  | .pending j => j.finish
  | .ready j r => .ready j r
  | .again j =>
    match j.pollSecond with
    | .pending j => j.finish
    | .ready j r => .ready j r
    | .again j => .again j

/-- A poll. Two turns are enough for it (`poll_eq`). -/
def poll (j : JoinOutput α β) : Turn (JoinOutput α β) (Exit (α × β)) := Turn.poll turn 2 j

/-- The state behind `n` polls that are all pending. -/
def polls : Nat → JoinOutput α β → Option (JoinOutput α β)
  | 0, j => some j
  | n + 1, j =>
    match j.poll with
    | .pending j => polls n j
    | _ => none

/-! ## Between two polls -/

/-- What is known of one of the futures: it is still there, or it was ready with a result that is
kept. -/
inductive Side (f : Fut α) :
    Option (Fut α) → Option (Result α) → List (Poll (Result α)) → Prop where
  | running (h : seen + n = f.pendings) :
    Side f (some ⟨n, f.output⟩) none (List.replicate seen .pending)
  | done (h : f.output = .ok a) : Side f none (some (.ok a)) f.script

/-- No future has failed so far. -/
structure Joins (f1 : Fut α) (f2 : Fut β) (j : JoinOutput α β) : Prop where
  first : Side f1 j.fut1 j.result.1 (j.observed.filterMap Observed.first?)
  second : Side f2 j.fut2 j.result.2 (j.observed.filterMap Observed.second?)
  no_error : ∀ o ∈ j.observed, o.error? = none

/-- No future is polled after it was ready. -/
structure Orderly (f1 : Fut α) (f2 : Fut β) (observed : List (Observed α β)) : Prop where
  first : observed.filterMap Observed.first? <+: f1.script
  second : observed.filterMap Observed.second? <+: f2.script

/-- The first error that was observed. -/
def FirstError (e : Error) (observed : List (Observed α β)) : Prop :=
  ∃ before last, observed = before ++ [last] ∧ last.error? = some e ∧
    ∀ o ∈ before, o.error? = none

/-- What the join of two futures has to be ready with. -/
def Joined (f1 : Fut α) (f2 : Fut β) (observed : List (Observed α β)) (r : Exit (α × β)) : Prop :=
  match f1.output, f2.output with
  | .ok o1, .ok o2 => r = .ret (.ok (o1, o2))
  | _, _ => ∃ e, r = .ret (.error e) ∧ FirstError e observed

/-- From `j` on, one of the futures was found pending, and is kept. -/
def Waits (j j' : JoinOutput α β) : Prop :=
  ∃ new, j'.observed = j.observed ++ new ∧
    (Observed.first .pending ∈ new ∧ j'.fut1.isSome ∨
      Observed.second .pending ∈ new ∧ j'.fut2.isSome)

variable {f1 : Fut α} {f2 : Fut β} {j j' : JoinOutput α β}

theorem Side.pending {f : Fut α} (h : Side f (some ⟨n + 1, out⟩) r polled) :
    Side f (some ⟨n, out⟩) r (polled ++ [.pending]) := by
  cases h with
  | running h =>
    rw [← List.replicate_succ']
    exact .running (by omega)

theorem Side.ready {f : Fut α} (h : Side f (some ⟨0, out⟩) r polled) :
    f.output = out ∧ polled ++ [.ready out] = f.script := by
  cases h with
  | running h =>
    obtain rfl : _ = f.pendings := h
    exact ⟨rfl, rfl⟩

theorem Side.orderly {f : Fut α} (h : Side f fut r polled) : polled <+: f.script := by
  cases h with
  | @running seen n h =>
    rw [Fut.script, ← h, ← List.replicate_append_replicate, List.append_assoc]
    exact List.prefix_append _ _
  | done h => exact List.prefix_refl _

theorem Joins.orderly (h : Joins f1 f2 j) : Orderly f1 f2 j.observed :=
  ⟨h.first.orderly, h.second.orderly⟩

theorem Side.start (f : Fut α) : Side f (some f) none [] := by
  have h : Side f (some ⟨f.pendings, f.output⟩) none (List.replicate 0 .pending) :=
    .running (Nat.zero_add _)
  exact h

theorem joins_joinOutput (f1 : Fut α) (f2 : Fut β) : Joins f1 f2 (joinOutput f1 f2) :=
  ⟨.start f1, .start f2, by simp [joinOutput]⟩

theorem no_error_concat {observed : List (Observed α β)} (h : ∀ o ∈ observed, o.error? = none)
    (hlast : last.error? = none) : ∀ o ∈ observed ++ [last], o.error? = none := by
  intro o ho
  rcases List.mem_append.1 ho with ho | ho
  · exact h o ho
  · exact List.mem_singleton.1 ho ▸ hlast

theorem Joins.firstError (h : Joins f1 f2 j) (hlast : last.error? = some e) :
    FirstError e (j.observed ++ [last]) := ⟨j.observed, last, rfl, hlast, h.no_error⟩

variable {observed : List (Observed α β)}

theorem joined_error (hout : f1.output = .error e' ∨ f2.output = .error e')
    (h : FirstError e observed) : Joined f1 f2 observed (.ret (.error e)) := by
  unfold Joined
  split
  · next h1 h2 =>
    rcases hout with hout | hout
    · cases hout.symm.trans h1
    · cases hout.symm.trans h2
  · exact ⟨e, rfl, h⟩

theorem joined_ok (h1 : f1.output = .ok o1) (h2 : f2.output = .ok o2) :
    Joined f1 f2 observed (.ret (.ok (o1, o2))) := by
  simp only [Joined, h1, h2]

theorem Waits.of_prefix (hpre : j.observed <+: j₁.observed) (h : Waits j₁ j') : Waits j j' := by
  obtain ⟨new, hnew, hwait⟩ := h
  obtain ⟨before, hbefore⟩ := hpre
  refine ⟨before ++ new, by rw [hnew, ← hbefore, List.append_assoc], ?_⟩
  simp only [List.mem_append]
  exact hwait.imp (.imp_left .inr) (.imp_left .inr)

/-! ## What a poll does -/

/-- A loop that breaks has found a future pending, or has no future left. -/
def Breaks (j j' : JoinOutput α β) : Prop :=
  j'.fut1 = none ∧ j'.fut2 = none ∨ Waits j j'

theorem Breaks.of_prefix (hpre : j.observed <+: j₁.observed) (h : Breaks j₁ j') : Breaks j j' :=
  h.imp_right fun h => h.of_prefix hpre

theorem Joins.pollFirst (h : Joins f1 f2 j) :
    (∃ j', j.pollFirst = .pending j' ∧ Joins f1 f2 j' ∧ Breaks j j') ∨
      (∃ j', j.pollFirst = .again j' ∧ Joins f1 f2 j' ∧ j'.fut2 = j.fut2 ∧
        (j'.fut2 = none → j'.fut1 = none) ∧ j.observed <+: j'.observed) ∨
      ∃ j' r, j.pollFirst = .ready j' r ∧ Orderly f1 f2 j'.observed ∧
        Joined f1 f2 j'.observed r := by
  obtain ⟨⟨r1, r2⟩, fut1, fut2, observed⟩ := j
  have hside := h.first
  rcases fut1 with - | ⟨- | n, out⟩
  · -- the first future is ready already
    cases fut2 with
    | none => exact .inl ⟨_, rfl, h, .inl ⟨rfl, rfl⟩⟩
    | some fut => exact .inr (.inl ⟨_, rfl, h, rfl, by simp, List.prefix_refl _⟩)
  · -- it is ready in this poll
    obtain ⟨hout, hscript⟩ := hside.ready
    cases out with
    | error e =>
      refine .inr (.inr ⟨_, _, rfl, ⟨?_, ?_⟩, joined_error (.inl hout) (h.firstError rfl)⟩)
      · rw [Observed.firsts_first]
        exact hscript ▸ List.prefix_refl _
      · rw [Observed.seconds_first]
        exact h.second.orderly
    | ok o1 =>
      refine .inr (.inl ⟨_, rfl, ⟨?_, ?_, no_error_concat h.no_error rfl⟩, rfl, fun _ => rfl,
        List.prefix_append _ _⟩)
      · rw [Observed.firsts_first, hscript]
        exact .done hout
      · rw [Observed.seconds_first]
        exact h.second
  · -- it is pending
    have hj : Joins f1 f2
        ⟨(r1, r2), some ⟨n, out⟩, fut2, observed ++ [.first .pending]⟩ := by
      refine ⟨?_, ?_, no_error_concat h.no_error rfl⟩
      · rw [Observed.firsts_first]
        exact hside.pending
      · rw [Observed.seconds_first]
        exact h.second
    cases fut2 with
    | none =>
      exact .inl ⟨_, rfl, hj, .inr ⟨_, rfl, .inl ⟨List.mem_singleton_self _, rfl⟩⟩⟩
    | some fut =>
      exact .inr (.inl ⟨_, rfl, hj, rfl, by simp, List.prefix_append _ _⟩)

theorem Joins.pollSecond (h : Joins f1 f2 j) (hnone : j.fut2 = none → j.fut1 = none) :
    (∃ j', j.pollSecond = .pending j' ∧ Joins f1 f2 j' ∧ Breaks j j') ∨
      (∃ j', j.pollSecond = .again j' ∧ Joins f1 f2 j' ∧ j.fut2.isSome ∧ j'.fut2 = none ∧
        j.observed <+: j'.observed) ∨
      ∃ j' r, j.pollSecond = .ready j' r ∧ Orderly f1 f2 j'.observed ∧
        Joined f1 f2 j'.observed r := by
  obtain ⟨⟨r1, r2⟩, fut1, fut2, observed⟩ := j
  have hside := h.second
  rcases fut2 with - | ⟨- | n, out⟩
  · -- both futures are ready already
    obtain rfl : fut1 = none := hnone rfl
    exact .inl ⟨_, rfl, h, .inl ⟨rfl, rfl⟩⟩
  · -- the second future is ready in this poll
    obtain ⟨hout, hscript⟩ := hside.ready
    cases out with
    | error e =>
      refine .inr (.inr ⟨_, _, rfl, ⟨?_, ?_⟩, joined_error (.inr hout) (h.firstError rfl)⟩)
      · rw [Observed.firsts_second]
        exact h.first.orderly
      · rw [Observed.seconds_second]
        exact hscript ▸ List.prefix_refl _
    | ok o2 =>
      refine .inr (.inl ⟨_, rfl, ⟨?_, ?_, no_error_concat h.no_error rfl⟩, rfl, rfl,
        List.prefix_append _ _⟩)
      · rw [Observed.firsts_second]
        exact h.first
      · rw [Observed.seconds_second, hscript]
        exact .done hout
  · -- it is pending
    refine .inl ⟨_, rfl, ⟨?_, ?_, no_error_concat h.no_error rfl⟩,
      .inr ⟨_, rfl, .inr ⟨List.mem_singleton_self _, rfl⟩⟩⟩
    · rw [Observed.firsts_second]
      exact h.first
    · rw [Observed.seconds_second]
      exact hside.pending

/-- Behind the loop both results are there, or a future is pending. -/
theorem Joins.finish (h : Joins f1 f2 j') (hbreaks : Breaks j j') :
    j'.finish = .pending j' ∧ Waits j j' ∨
      ∃ j'' r, j'.finish = .ready j'' r ∧ Orderly f1 f2 j''.observed ∧
        Joined f1 f2 j''.observed r := by
  rcases hbreaks with ⟨hnone1, hnone2⟩ | hwaits
  · obtain ⟨⟨r1, r2⟩, fut1, fut2, observed⟩ := j'
    obtain rfl : fut1 = none := hnone1
    obtain rfl : fut2 = none := hnone2
    have horderly := h.orderly
    obtain ⟨hfirst, hsecond, -⟩ := h
    simp only at hfirst hsecond
    generalize hp : observed.filterMap Observed.first? = polled1 at hfirst
    generalize hp' : observed.filterMap Observed.second? = polled2 at hsecond
    cases hfirst with
    | done h1 =>
      cases hsecond with
      | done h2 => exact .inr ⟨_, _, rfl, horderly, joined_ok h1 h2⟩
  · refine .inl ⟨?_, hwaits⟩
    obtain ⟨new, -, ⟨-, hsome⟩ | ⟨-, hsome⟩⟩ := hwaits
    · rw [JoinOutput.finish, if_neg]
      rintro ⟨hnone, -⟩
      simp [Option.isNone_iff_eq_none.1 hnone] at hsome
    · rw [JoinOutput.finish, if_neg]
      rintro ⟨-, hnone⟩
      simp [Option.isNone_iff_eq_none.1 hnone] at hsome

/-- A turn is the last one of its poll, or takes the second future away. -/
theorem Joins.turn (h : Joins f1 f2 j) :
    (∃ j', j.turn = .again j' ∧ Joins f1 f2 j' ∧ j.fut2.isSome ∧ j'.fut2 = none ∧
        j.observed <+: j'.observed) ∨
      (∃ j', j.turn = .pending j' ∧ Joins f1 f2 j' ∧ Waits j j') ∨
      ∃ j' r, j.turn = .ready j' r ∧ Orderly f1 f2 j'.observed ∧ Joined f1 f2 j'.observed r := by
  rcases h.pollFirst with ⟨j', hfirst, hj, hbreaks⟩ | ⟨j₁, hfirst, hj, hfut2, hnone, hpre⟩ |
    ⟨j', r, hfirst, hready⟩
  · rcases hj.finish hbreaks with ⟨hfinish, hwaits⟩ | ⟨j'', r, hfinish, hready⟩
    · exact .inr (.inl ⟨j', by simp only [JoinOutput.turn, hfirst, hfinish], hj, hwaits⟩)
    · exact .inr (.inr ⟨j'', r, by simp only [JoinOutput.turn, hfirst, hfinish], hready⟩)
  · rcases hj.pollSecond hnone with ⟨j', hsecond, hj', hbreaks⟩ |
      ⟨j', hsecond, hj', hsome, hnone', hpre'⟩ | ⟨j', r, hsecond, hready⟩
    · rcases hj'.finish (hbreaks.of_prefix hpre) with ⟨hfinish, hwaits⟩ | ⟨j'', r, hfinish, hready⟩
      · exact .inr (.inl
          ⟨j', by simp only [JoinOutput.turn, hfirst, hsecond, hfinish], hj', hwaits⟩)
      · exact .inr (.inr ⟨j'', r, by simp only [JoinOutput.turn, hfirst, hsecond, hfinish], hready⟩)
    · exact .inl ⟨j', by simp only [JoinOutput.turn, hfirst, hsecond], hj', hfut2 ▸ hsome, hnone',
        hpre.trans hpre'⟩
    · exact .inr (.inr ⟨j', r, by simp only [JoinOutput.turn, hfirst, hsecond], hready⟩)
  · exact .inr (.inr ⟨j', r, by simp only [JoinOutput.turn, hfirst], hready⟩)

/-- A poll with at least two turns. -/
theorem Joins.poll (h : Joins f1 f2 j) (hn : 2 ≤ n) :
    (∃ j', Turn.poll JoinOutput.turn n j = .pending j' ∧ Joins f1 f2 j' ∧ Waits j j') ∨
      ∃ j' r, Turn.poll JoinOutput.turn n j = .ready j' r ∧ Orderly f1 f2 j'.observed ∧
        Joined f1 f2 j'.observed r := by
  let left (u : JoinOutput α β) : Nat := if u.fut2.isSome then 1 else 0
  have hleft : left j < n := by
    simp only [left]
    split <;> omega
  have hstep : ∀ u, (Joins f1 f2 u ∧ j.observed <+: u.observed) →
      (∃ u', JoinOutput.turn u = .again u' ∧ (Joins f1 f2 u' ∧ j.observed <+: u'.observed) ∧
        left u' < left u) ∨
      (∃ u', JoinOutput.turn u = .pending u' ∧ Joins f1 f2 u' ∧ Waits j u') ∨
      ∃ u' r, JoinOutput.turn u = .ready u' r ∧ Orderly f1 f2 u'.observed ∧
        Joined f1 f2 u'.observed r := by
    rintro u ⟨hu, hpre⟩
    rcases hu.turn with ⟨u', hturn, hu', hsome, hnone, hpre'⟩ | ⟨u', hturn, hu', hwaits⟩ | hready
    · exact .inl ⟨u', hturn, ⟨hu', hpre.trans hpre'⟩, by simp [left, hsome, hnone]⟩
    · exact .inr (.inl ⟨u', hturn, hu', hwaits.of_prefix hpre⟩)
    · exact .inr (.inr hready)
  exact Turn.poll_post JoinOutput.turn left hstep ⟨h, List.prefix_refl _⟩ hleft

theorem poll_eq (h : Joins f1 f2 j) (hn : 2 ≤ n) : Turn.poll turn n j = j.poll := by
  refine Turn.poll_mono (fun u => ?_) hn
  rcases h.poll (Nat.le_refl 2) with ⟨j', hpoll, -⟩ | ⟨j', r, hpoll, -⟩ <;> simp [hpoll]

theorem Joins.polls (h : Joins f1 f2 j) (hpolls : j.polls n = some j') : Joins f1 f2 j' := by
  induction n generalizing j with
  | zero => exact Option.some.inj hpolls ▸ h
  | succ n ih =>
    rcases h.poll (Nat.le_refl 2) with ⟨j₁, hpoll, hj₁, -⟩ | ⟨j₁, r, hpoll, -⟩
    · simp only [JoinOutput.polls, JoinOutput.poll, hpoll] at hpolls
      exact ih hj₁ hpolls
    · simp only [JoinOutput.polls, JoinOutput.poll, hpoll] at hpolls
      cases hpolls

theorem length_observed (observed : List (Observed α β)) :
    observed.length = (observed.filterMap Observed.first?).length +
      (observed.filterMap Observed.second?).length := by
  induction observed with
  | nil => rfl
  | cons o observed ih =>
    cases o with
    | first r =>
      simp [List.filterMap_cons, Observed.first?, Observed.second?, ih, Nat.add_right_comm]
    | second r => simp [List.filterMap_cons, Observed.first?, Observed.second?, ih, Nat.add_assoc]

/-- The two futures are polled so often at most. -/
theorem Orderly.length_le (h : Orderly f1 f2 observed) :
    observed.length ≤ f1.pendings + f2.pendings + 2 := by
  have hfirst := h.first.length_le
  have hsecond := h.second.length_le
  simp only [Fut.script, List.length_append, List.length_replicate, List.length_singleton]
    at hfirst hsecond
  rw [length_observed]
  omega

/-- Every poll polls one of the futures, so that a poll is ready in the end. -/
theorem Joins.resolves (h : Joins f1 f2 j) :
    ∃ n j₁ j' r, j.polls n = some j₁ ∧ j₁.poll = .ready j' r := by
  induction hleft : f1.pendings + f2.pendings + 2 - j.observed.length using Nat.strongRecOn
    generalizing j with
  | ind left ih =>
    rcases h.poll (Nat.le_refl 2) with ⟨j₁, hpoll, hj₁, new, hnew, hwait⟩ | ⟨j', r, hpoll, -⟩
    · have hlen : 0 < new.length := by
        rcases hwait with ⟨hmem, -⟩ | ⟨hmem, -⟩ <;> exact List.length_pos_of_mem hmem
      have hle := hj₁.orderly.length_le
      rw [hnew, List.length_append] at hle
      have hless : f1.pendings + f2.pendings + 2 - j₁.observed.length < left := by
        rw [hnew, List.length_append]
        omega
      obtain ⟨n, j₂, j', r, hpolls, hready⟩ := ih _ hless hj₁ rfl
      refine ⟨n + 1, j₂, j', r, ?_, hready⟩
      simpa only [JoinOutput.polls, JoinOutput.poll, hpoll] using hpolls
    · exact ⟨0, j, j', r, rfl, hpoll⟩

/-- However often the join of two futures has been polled, the next poll ends. It is pending when it
has found one of the futures pending, or ready with the two outputs or the first error. No future is
polled after it was ready, the results that are unwrapped are there, and some poll is ready. -/
theorem join_output_correct (f1 : Fut α) (f2 : Fut β) :
    (∃ n j j' r, (joinOutput f1 f2).polls n = some j ∧ j.poll = .ready j' r) ∧
      ∀ n j, (joinOutput f1 f2).polls n = some j →
        (∀ m, 2 ≤ m → Turn.poll turn m j = j.poll) ∧
        ((∃ j', j.poll = .pending j' ∧ Orderly f1 f2 j'.observed ∧ Waits j j') ∨
          ∃ j' r, j.poll = .ready j' r ∧ Orderly f1 f2 j'.observed ∧
            Joined f1 f2 j'.observed r) := by
  have hstart := joins_joinOutput f1 f2
  refine ⟨hstart.resolves, fun n j hpolls => ?_⟩
  have hj := hstart.polls hpolls
  refine ⟨fun m hm => poll_eq hj hm, ?_⟩
  rcases hj.poll (Nat.le_refl 2) with ⟨j', hpoll, hj', hwaits⟩ | hready
  · exact .inl ⟨j', hpoll, hj'.orderly, hwaits⟩
  · exact .inr hready

/-- The second future fails while the first one is pending. -/
theorem join_output_correct_fails :
    ∃ j', (joinOutput (⟨3, .ok 1⟩ : Fut Nat) (⟨0, .error .timeout⟩ : Fut Nat)).poll =
        .ready j' (.ret (.error .timeout)) ∧
      Orderly (⟨3, .ok 1⟩ : Fut Nat) (⟨0, .error .timeout⟩ : Fut Nat) j'.observed := by
  rcases ((join_output_correct (⟨3, .ok 1⟩ : Fut Nat) ⟨0, .error .timeout⟩).2 0 _ rfl).2 with
    ⟨j', hpoll, -⟩ | ⟨j', r, hpoll, horderly, -⟩
  · cases hpoll
  · cases hpoll
    exact ⟨_, rfl, horderly⟩

end JoinOutput
end Fuso

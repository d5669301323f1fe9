import Fuso.Async.Stream
import Mathlib.Logic.Function.Iterate

/-!
# The client

A client connects to its server again and again. With a limit of `n` retries it gives up when
`n > retries_count`, which is at its first failed attempt (`failures_of_done`): the limit is
respected by the limit 1 alone (`respectsLimit_iff`).
-/

namespace Fuso

/-- `Kind::MaxRetries`, the one error that a client returns. -/
structure MaxRetries where
  retries : UInt64
  deriving DecidableEq

/-- The calls answer by the number of turns before. Streams, decorators, generators and the futures
to spawn are of the types `S`, `D`, `G` and `F`. -/
structure Client (S D G F : Type) where
  maximumRetries : Option UInt64
  /-- In milliseconds. -/
  retryDelay : Nat
  handshake : Option (Nat → S → Result (S × Option D))
  clientProvider : Nat → Result S
  /-- The processor is given by its decorator. -/
  handler : Nat → S × Option D → Result G
  next : Nat → G → Result (Option F)

namespace Client
variable {S D G F : Type}

/-- What a client waits for. -/
inductive Stage (S D G : Type) where
  | connect
  | handshake (stream : S)
  | process (server : S) (decorator : Option D)
  | generate (generate : G)
  | done (r : Except MaxRetries Unit)

inductive Action (F : Type) where
  | connected
  | failed
  | sleep (millis : Nat)
  | spawn (fut : F)

/-- A run, with what the client did in it. -/
structure Run (S D G F : Type) where
  stage : Stage S D G
  retriesCount : UInt64
  turns : Nat
  log : List (Action F)

namespace Run
variable (s : Run S D G F)

def goto (stage : Stage S D G) (log : List (Action F)) : Run S D G F :=
  { s with stage, log := s.log ++ log }

end Run

/-- A failed attempt to connect. -/
def connectFailed (c : Client S D G F) (s : Run S D G F) : Run S D G F :=
  let log := s.log ++ [.failed, .sleep c.retryDelay]
  match c.maximumRetries with
  | some retries =>
    if s.retriesCount < retries then { s with log, stage := .done (.error ⟨retries⟩) }
    else { s with log, stage := .connect, retriesCount := s.retriesCount + 1 }
  | none => { s with log, stage := .connect, retriesCount := s.retriesCount + 1 }

/-- A turn: the client goes on to what it waits for next. -/
def turn (c : Client S D G F) (s : Run S D G F) : Run S D G F :=
  match s.stage with
  | .connect =>
    match c.clientProvider s.turns with
    | .ok stream => s.goto (.handshake stream) [.connected]
    | .error _ => c.connectFailed s
  | .handshake stream =>
    match c.handshake with
    | none => s.goto (.process stream none) []
    | some handshake =>
      match handshake s.turns stream with
      | .ok (server, decorator) => s.goto (.process server decorator) []
      | .error _ => s.goto (.done (.ok ())) []
  | .process server decorator =>
    match c.handler s.turns (server, decorator) with
    | .ok generate => s.goto (.generate generate) []
    | .error _ => s.goto .connect [.sleep c.retryDelay]
  | .generate generate =>
    match c.next s.turns generate with
    | .ok none => s.goto .connect []
    | .ok (some fut) => s.goto (.generate generate) [.spawn fut]
    | .error _ => s.goto .connect [.sleep c.retryDelay]
  | .done _ => s

def step (c : Client S D G F) (s : Run S D G F) : Run S D G F :=
  { c.turn s with turns := s.turns + 1 }

/-- `Client::run`, behind `n` turns. -/
def run (c : Client S D G F) (n : Nat) : Run S D G F := c.step^[n] ⟨.connect, 0, 0, []⟩

def Action.isFailed : Action F → Bool
  | failed => true
  | _ => false

/-- The number of attempts that failed. -/
def Run.failures (s : Run S D G F) : Nat := s.log.countP Action.isFailed

/-- With the limit `n` the client does not give up before `n` attempts have failed, and has given up
behind `n + 1` of them. Without a limit it does not give up. -/
def RespectsLimit (c : Client S D G F) : Prop :=
  match c.maximumRetries with
  | none => ∀ k m, (c.run k).stage ≠ .done (.error m)
  | some n =>
    (∀ k m, (c.run k).stage = .done (.error m) → n.toNat ≤ (c.run k).failures) ∧
      ∃ k, (c.run k).stage = .done (.error ⟨n⟩) ∧ (c.run k).failures ≤ n.toNat + 1

/-! ## When a client gives up -/

section
variable (s : Run S D G F)

theorem Run.failures_goto (stage : Stage S D G) (log : List (Action F)) :
    (s.goto stage log).failures = s.failures + log.countP Action.isFailed :=
  List.countP_append ..

end

/-- What holds behind every turn: a client has given up at its first failed attempt, and otherwise
it has no limit that it could exceed, or no attempt has failed. -/
structure Counts (c : Client S D G F) (s : Run S D G F) : Prop where
  stopped : ∀ m, s.stage = .done (.error m) →
    c.maximumRetries = some m.retries ∧ 0 < m.retries ∧ s.failures = 1
  running : (∀ m, s.stage ≠ .done (.error m)) →
    (s.failures = 0 ∧ s.retriesCount = 0) ∨ ∀ n, c.maximumRetries = some n → n = 0

variable {c : Client S D G F} {s : Run S D G F}

/-- A turn that ends without a failed attempt. -/
theorem Counts.goto (h : Counts c s) (hstage : ∀ m, s.stage ≠ .done (.error m))
    (hnext : ∀ m, stage ≠ .done (.error m)) (hlog : log.countP Action.isFailed = 0) :
    Counts c (s.goto stage log) := by
  refine ⟨fun m hm => absurd hm (hnext m), fun _ => ?_⟩
  rw [Run.failures_goto, hlog]
  exact h.running hstage

theorem Counts.connectFailed (h : Counts c s) (hstage : ∀ m, s.stage ≠ .done (.error m)) :
    Counts c (c.connectFailed s) := by
  have hfailures : ∀ (stage : Stage S D G) (count : UInt64),
      Run.failures { s with stage, retriesCount := count
                            log := s.log ++ [.failed, .sleep c.retryDelay] } = s.failures + 1 :=
    fun _ _ => List.countP_append ..
  unfold Client.connectFailed
  cases hmax : c.maximumRetries with
  | none => exact ⟨nofun, fun _ => .inr fun n hn => by cases hmax.symm.trans hn⟩
  | some retries =>
    simp only
    split
    · next hlt =>
      refine ⟨fun m hm => ?_, fun hm => absurd rfl (hm ⟨retries⟩)⟩
      cases hm
      rcases h.running hstage with ⟨hzero, hcount⟩ | hnone
      · rw [hcount] at hlt
        exact ⟨hmax, hlt, (hfailures _ _).trans (by rw [hzero])⟩
      · rw [hnone retries hmax] at hlt
        exact (UInt64.not_lt_zero hlt).elim
    · next hge =>
      refine ⟨nofun, fun _ => .inr fun n hn => ?_⟩
      obtain rfl : retries = n := Option.some.inj (hmax.symm.trans hn)
      rcases h.running hstage with ⟨-, hcount⟩ | hnone
      · rw [hcount, UInt64.not_lt] at hge
        exact UInt64.le_zero_iff.1 hge
      · exact hnone retries hmax

theorem Counts.turn (h : Counts c s) : Counts c (c.turn s) := by
  unfold Client.turn
  cases hstage : s.stage with
  | connect =>
    have hrunning : ∀ m, s.stage ≠ .done (.error m) := by simp [hstage]
    simp only
    split
    · exact h.goto hrunning nofun rfl
    · exact h.connectFailed hrunning
  | handshake stream =>
    have hrunning : ∀ m, s.stage ≠ .done (.error m) := by simp [hstage]
    simp only
    split
    · exact h.goto hrunning nofun rfl
    split
    · exact h.goto hrunning nofun rfl
    · exact h.goto hrunning nofun rfl
  | process server decorator =>
    have hrunning : ∀ m, s.stage ≠ .done (.error m) := by simp [hstage]
    simp only
    split
    · exact h.goto hrunning nofun rfl
    · exact h.goto hrunning nofun rfl
  | generate generate =>
    have hrunning : ∀ m, s.stage ≠ .done (.error m) := by simp [hstage]
    simp only
    split
    · exact h.goto hrunning nofun rfl
    · exact h.goto hrunning nofun rfl
    · exact h.goto hrunning nofun rfl
  | done r => exact h

theorem counts_run (c : Client S D G F) (n : Nat) : Counts c (c.run n) := by
  induction n with
  | zero => exact ⟨nofun, fun _ => .inl ⟨rfl, rfl⟩⟩
  | succ n ih =>
    have hturn := ih.turn
    rw [run, Function.iterate_succ_apply']
    exact ⟨hturn.stopped, hturn.running⟩

/-- A client gives up at its first failed attempt, in any run. -/
theorem failures_of_done (h : (c.run n).stage = .done (.error m)) :
    c.maximumRetries = some m.retries ∧ 0 < m.retries ∧ (c.run n).failures = 1 :=
  (counts_run c n).stopped m h

/-- And at the first attempt, when that fails. -/
theorem stage_run_one (hfails : c.clientProvider 0 = .error e) (hmax : c.maximumRetries = some n)
    (hn : 0 < n) : (c.run 1).stage = .done (.error ⟨n⟩) := by
  rw [run, Function.iterate_one]
  simp only [step, turn, hfails, connectFailed, hmax, if_pos hn]

/-- When every attempt fails, the limit is respected exactly if there is none or it is 1. -/
theorem respectsLimit_iff (c : Client S D G F)
    (hfails : ∀ t, ∃ e, c.clientProvider t = .error e) :
    c.RespectsLimit ↔ ∀ n, c.maximumRetries = some n → n = 1 := by
  unfold RespectsLimit
  cases hmax : c.maximumRetries with
  | none =>
    refine iff_of_true (fun k m hdone => ?_) nofun
    cases hmax.symm.trans (failures_of_done hdone).1
  | some limit =>
    simp only
    constructor
    · rintro ⟨hbefore, k, hdone, -⟩ n hn
      obtain rfl : limit = n := Option.some.inj hn
      obtain ⟨-, hpos, hone⟩ := failures_of_done hdone
      have hle := hbefore k _ hdone
      rw [hone] at hle
      rw [UInt64.lt_iff_toNat_lt] at hpos
      exact UInt64.toNat.inj (Nat.le_antisymm hle hpos)
    · intro hlimit
      obtain rfl := hlimit limit rfl
      obtain ⟨e, he⟩ := hfails 0
      have hdone := stage_run_one he hmax (by decide)
      refine ⟨fun k m h => (failures_of_done h).2.2.symm.le, 1, hdone, ?_⟩
      rw [(failures_of_done hdone).2.2]
      decide

/-- A client whose server is not there. -/
def unreachable (maximumRetries : Option UInt64) : Client Unit Unit Unit Unit where
  maximumRetries
  retryDelay := 5000
  handshake := none
  clientProvider _ := .error .timeout
  handler _ _ := .ok ()
  next _ _ := .ok none

theorem respectsLimit_unreachable : (unreachable (some 1)).RespectsLimit :=
  (respectsLimit_iff (unreachable (some 1)) fun _ => ⟨.timeout, rfl⟩).2
    fun _ h => (Option.some.inj h).symm

/-- With a limit of 3 retries it gives up behind one failed attempt. -/
theorem gives_up_early : (∀ t, ∃ e, (unreachable (some 3)).clientProvider t = .error e) ∧
    ¬ (unreachable (some 3)).RespectsLimit := by
  refine ⟨fun _ => ⟨.timeout, rfl⟩, fun h => ?_⟩
  have hle := h.1 1 ⟨3⟩ rfl
  exact absurd hle (by decide)

end Client
end Fuso

import Fuso.Async.Stream
import Fuso.Theory.Pool
import Fuso.Theory.Turn

/-!
# `Penetrate::poll_accept`

The server polls its accepter, and its futures one after the other, until the accepter is pending.
A connection that is accepted becomes a future, and so does the end of one that is to be closed. A
call that does not fail keeps the futures that are not over (`pollAccept_keeps`).
-/

namespace Fuso

/-- What is answered to the polls of a future or an accepter, one by one. At its end it stays
pending. -/
abbrev Script (α : Type u) := List (Poll α)

def Script.poll : Script α → Script α × Poll α
  | [] => ([], .pending)
  | answer :: script => (script, answer)

theorem Script.length_poll (script : Script α) : script.poll.1.length ≤ script.length := by
  cases script with
  | nil => exact Nat.le_refl _
  | cons answer script => exact Nat.le_succ _

/-- An answer that is not pending was in the script. -/
theorem Script.length_ready {script : Script α} (h : script.poll = (script', .ready a)) :
    script'.length < script.length := by
  cases script with
  | nil => cases h
  | cons answer script =>
    cases h
    exact Nat.lt_succ_self _

inductive Pen (S : Type u) where
  | visit (stream : S)
  | client (stream : S)

structure PenetrateAccepter (S : Type u) where
  visit : Script (Result S)
  client : Script (Result S)

namespace PenetrateAccepter
variable {S : Type u}

/-- `poll_accept`. -/
def pollAccept (a : PenetrateAccepter S) : PenetrateAccepter S × Poll (Result (Pen S)) :=
  match a.visit.poll with
  | (visit, .ready (.error e)) => ({ a with visit }, .ready (.error e))
  | (visit, .ready (.ok stream)) => ({ a with visit }, .ready (.ok (.visit stream)))
  | (visit, .pending) =>
    match a.client.poll with
    | (client, .ready (.error e)) => (⟨visit, client⟩, .ready (.error e))
    | (client, .ready (.ok stream)) => (⟨visit, client⟩, .ready (.ok (.client stream)))
    | (client, .pending) => (⟨visit, client⟩, .pending)

/-- `a`, polled until it was pending or had a connection, has given these answers and is now `a'`.
-/
inductive Answers (a : PenetrateAccepter S) : List (Poll (Pen S)) → PenetrateAccepter S → Prop where
  | nil : Answers a [] a
  | pending : Answers a answers a' → a'.pollAccept = (a'', .pending) →
    Answers a (answers ++ [.pending]) a''
  | ready : Answers a answers a' → a'.pollAccept = (a'', .ready (.ok pen)) →
    Answers a (answers ++ [.ready pen]) a''

/-- The number of answers to come. -/
def left (a : PenetrateAccepter S) : Nat := a.visit.length + a.client.length

theorem left_pollAccept (a : PenetrateAccepter S) : a.pollAccept.1.left ≤ a.left := by
  have hvisit := a.visit.length_poll
  have hclient := a.client.length_poll
  unfold pollAccept
  split
  · next heq =>
    rw [heq] at hvisit
    exact Nat.add_le_add_right hvisit _
  · next heq =>
    rw [heq] at hvisit
    exact Nat.add_le_add_right hvisit _
  · next heq =>
    rw [heq] at hvisit
    split
    all_goals
      next heq =>
      rw [heq] at hclient
      exact Nat.add_le_add hvisit hclient

theorem left_ready {a : PenetrateAccepter S} (h : a.pollAccept = (a', .ready r)) :
    a'.left < a.left := by
  have hvisit := a.visit.length_poll
  unfold pollAccept at h
  split at h
  · next heq =>
    cases h
    exact Nat.add_lt_add_right (Script.length_ready heq) _
  · next heq =>
    cases h
    exact Nat.add_lt_add_right (Script.length_ready heq) _
  · next heq =>
    rw [heq] at hvisit
    split at h
    · next heq =>
      cases h
      exact Nat.add_lt_add_of_le_of_lt hvisit (Script.length_ready heq)
    · next heq =>
      cases h
      exact Nat.add_lt_add_of_le_of_lt hvisit (Script.length_ready heq)
    · cases h

end PenetrateAccepter

namespace Penetrate

/-- How a future of the server ends. Streams are of the type `S`, and the futures that are handed
out of the type `B`. -/
inductive State (S : Type u) (B : Type v) where
  | stop
  | close (stream : S)
  | finish
  | route (s1 s2 : S)
  | provider (fut : B)
  | error (e : Error)

inductive Outcome (S : Type u) (B : Type v) where
  | route (s1 s2 : S)
  | future (fut : B)

/-- A future of the server: the reader or the heartbeat of the client's connection, the handler of
a connection, or the end of one. -/
inductive Fut (S : Type u) (B : Type v) where
  | client (script : Script (Result (State S B)))
  | handle (pen : Pen S) (script : Script (Result (State S B)))
  | close (stream : S) (script : Script (Result Unit))

/-- How the futures to come answer to their polls, by their numbers. -/
structure World (S : Type u) (B : Type v) where
  handle : Nat → Pen S → Script (Result (State S B))
  close : Nat → S → Script (Result Unit)

variable {S : Type u} {B : Type v}

def Fut.poll : Fut S B → Fut S B × Poll (Result (State S B))
  | .client script => (.client script.poll.1, script.poll.2)
  | .handle pen script => (.handle pen script.poll.1, script.poll.2)
  | .close stream script =>
    (.close stream script.poll.1,
      match script.poll.2 with
      | .pending => .pending
      | .ready _ => .ready (.ok .finish))

/-- A call of `poll_accept` on its way. -/
structure Accepting (S : Type u) (B : Type v) where
  pool : Pool (Fut S B)
  accepter : PenetrateAccepter S
  pollAccepter : Bool
  /-- Control is at the accepter, and not in the loop over the futures. -/
  outer : Bool
  /-- What the accepter has answered. -/
  answers : List (Poll (Pen S))

namespace Accepting
variable (w : World S B) (s : Accepting S B)

/-- The poll of the accepter. -/
def acceptTurn : Turn (Accepting S B) (Result (Outcome S B)) :=
  match s.accepter.pollAccept with
  | (accepter, .ready (.error e)) => .ready { s with accepter } (.error e)
  | (accepter, .pending) =>
    .again { s with
      accepter, pollAccepter := false, outer := false, answers := s.answers ++ [.pending] }
  | (accepter, .ready (.ok pen)) =>
    .again { s with
      accepter, pollAccepter := true, outer := false, answers := s.answers ++ [.ready pen]
      pool := s.pool.push (.handle pen (w.handle s.pool.all.length pen)) }

/-- A turn of the loop over the futures. -/
def pollTurn : Turn (Accepting S B) (Result (Outcome S B)) :=
  match s.pool.work with
  | [] => if s.pollAccepter then .again { s with outer := true } else .pending s
  | ⟨n, fut⟩ :: work =>
    match fut.poll with
    | (fut, .pending) => .again { s with pool := s.pool.keep n fut work }
    | (_, .ready (.ok (.route s1 s2))) =>
      .ready { s with pool := (s.pool.complete n work).restore } (.ok (.route s1 s2))
    | (_, .ready (.ok (.provider fut))) =>
      .ready { s with pool := (s.pool.complete n work).restore } (.ok (.future fut))
    | (_, .ready (.ok .stop)) => .ready { s with pool := s.pool.complete n work } (.error .channel)
    | (_, .ready (.ok (.error e))) => .ready { s with pool := s.pool.complete n work } (.error e)
    | (_, .ready (.ok (.close stream))) =>
      .again { s with
        pool := (s.pool.complete n work).push (.close stream (w.close s.pool.all.length stream)) }
    | (_, .ready (.ok .finish)) | (_, .ready (.error _)) =>
      .again { s with pool := s.pool.complete n work }

def turn : Turn (Accepting S B) (Result (Outcome S B)) :=
  if s.outer then s.acceptTurn w else s.pollTurn w

/-- The turns that a future can still cause: one that ends may have to be closed. -/
def weight : Fut S B → Nat
  | .client _ | .handle .. => 2
  | .close .. => 1

/-- The turns to come. -/
def left : Nat :=
  4 * s.accepter.left + (s.pool.work.map (weight ·.fut)).sum +
    if s.outer then 1 else if s.pollAccepter then 2 else 0

end Accepting

/-- What `poll_accept` has to do with. -/
structure Futures (S : Type u) (B : Type v) where
  futures : List (Fut S B)
  accepter : PenetrateAccepter S

def Futures.start (p : Futures S B) : Accepting S B where
  pool := .take p.futures
  accepter := p.accepter
  pollAccepter := true
  outer := true
  answers := []

/-- `Penetrate::poll_accept`. -/
def Futures.pollAccept (w : World S B) (p : Futures S B) :
    Turn (Accepting S B) (Result (Outcome S B)) :=
  Turn.poll (Accepting.turn w) (p.start.left + 1) p.start

/-! ## What a call keeps -/

/-- A pending poll leads from the one to the other. -/
def Fut.Pends (fut fut' : Fut S B) : Prop := fut.poll = (fut', .pending)

/-- Its next poll is its end. -/
def Fut.Ends (fut : Fut S B) : Prop := ∃ fut' r, fut.poll = (fut', .ready r)

/-- The connections that the futures are handlers of. -/
def handled (futures : List (Fut S B)) : List (Pen S) :=
  futures.filterMap fun
    | .handle pen _ => some pen
    | _ => none

/-- The connections among the answers of the accepter. -/
def accepted (answers : List (Poll (Pen S))) : List (Pen S) :=
  answers.filterMap fun
    | .ready pen => some pen
    | .pending => none

namespace Accepting
variable {w : World S B} {s : Accepting S B} {p : Futures S B}

/-- What holds all along a call: no future is lost or there twice, the accepter has given these
answers, every connection among them has one handler, and behind the last poll of the accepter that
was pending. -/
structure Keeps (p : Futures S B) (s : Accepting S B) : Prop where
  conserved : s.pool.Conserved Fut.Pends Fut.Ends
  found : s.pool.found = p.futures
  answered : p.accepter.Answers s.answers s.accepter
  handlers : handled s.pool.pushed = accepted s.answers
  last : s.pollAccepter = false → s.outer = false ∧ s.answers.getLast? = some .pending

/-- What a call that does not fail has done. -/
structure Done (p : Futures S B) (s : Accepting S B) : Prop where
  kept : s.pool.Kept Fut.Pends Fut.Ends
  found : s.pool.found = p.futures
  answered : p.accepter.Answers s.answers s.accepter
  handlers : handled s.pool.pushed = accepted s.answers

/-- What a call has done when it is pending. -/
structure Waits (p : Futures S B) (s : Accepting S B) : Prop extends Done p s where
  polled : ∀ t ∈ s.pool.stored, t.number ∈ s.pool.polled
  last : s.answers.getLast? = some .pending

theorem keeps_start (p : Futures S B) : Keeps p p.start where
  conserved := Pool.conserved_take p.futures
  found := rfl
  answered := .nil
  handlers := rfl
  last := nofun

/-- What a turn leads to. -/
abbrev Next (p : Futures S B) (s : Accepting S B)
    (t : Turn (Accepting S B) (Result (Outcome S B))) : Prop :=
  (∃ s', t = .again s' ∧ Keeps p s' ∧ s'.left < s.left) ∨
    (∃ s', t = .pending s' ∧ Waits p s') ∨
    ∃ s' r, t = .ready s' r ∧ ∀ o, r = .ok o → Done p s'

theorem handled_concat (futures : List (Fut S B)) (fut : Fut S B) :
    handled (futures ++ [fut]) = handled futures ++ handled [fut] :=
  List.filterMap_append

theorem accepted_concat (answers : List (Poll (Pen S))) (answer : Poll (Pen S)) :
    accepted (answers ++ [answer]) = accepted answers ++ accepted [answer] :=
  List.filterMap_append

theorem Keeps.acceptTurn (h : Keeps p s) (houter : s.outer = true) :
    Next p s (s.acceptTurn w) := by
  unfold Accepting.acceptTurn
  split
  · exact .inr (.inr ⟨_, _, rfl, nofun⟩)
  · next accepter heq =>
    have hleft : accepter.left ≤ s.accepter.left := by
      have h := s.accepter.left_pollAccept
      rwa [heq] at h
    refine .inl ⟨_, rfl, ⟨h.conserved, h.found, h.answered.pending heq, ?_,
      fun _ => ⟨rfl, List.getLast?_concat⟩⟩, ?_⟩
    · rw [accepted_concat, h.handlers]
      exact (List.append_nil _).symm
    · simp only [Accepting.left, houter, if_true, Bool.false_eq_true, if_false]
      omega
  · next accepter pen heq =>
    have hready := PenetrateAccepter.left_ready heq
    refine .inl ⟨_, rfl, ⟨h.conserved.push _, h.found, h.answered.ready heq, ?_, nofun⟩, ?_⟩
    · have hpushed : (s.pool.push (.handle pen (w.handle s.pool.all.length pen))).pushed =
          s.pool.pushed ++ [.handle pen (w.handle s.pool.all.length pen)] := rfl
      rw [hpushed, handled_concat, accepted_concat, h.handlers]
      rfl
    · simp only [Accepting.left, houter, if_true, Bool.false_eq_true, if_false, Pool.push,
        List.map_cons, List.sum_cons, weight]
      omega

/-- The first future is over. -/
theorem Keeps.complete (h : Keeps p s) (houter : s.outer = false)
    (hwork : s.pool.work = ⟨n, fut⟩ :: work) (hends : fut.Ends) :
    Keeps p { s with pool := s.pool.complete n work } where
  conserved := h.conserved.complete hwork hends
  found := h.found
  answered := h.answered
  handlers := h.handlers
  last hlast := ⟨houter, (h.last hlast).2⟩

/-- A call that returns stores what it has not polled. -/
theorem Keeps.restore (h : Keeps p s) : Done p { s with pool := s.pool.restore } where
  kept := h.conserved.restored
  found := h.found
  answered := h.answered
  handlers := h.handlers

theorem Keeps.drained (h : Keeps p s) (hwork : s.pool.work = [])
    (hlast : s.pollAccepter = false) : Waits p s where
  kept := (h.conserved.drained hwork).1
  found := h.found
  answered := h.answered
  handlers := h.handlers
  polled := (h.conserved.drained hwork).2
  last := (h.last hlast).2

theorem left_of_work (pool : Pool (Fut S B)) (hwork : s.pool.work = ⟨n, fut⟩ :: work)
    (hpool : pool.work = work) : left { s with pool } + weight fut = s.left := by
  simp only [left, hwork, hpool, List.map_cons, List.sum_cons]
  omega

theorem weight_pos (fut : Fut S B) : 0 < weight fut := by
  cases fut with
  | client | handle => exact Nat.two_pos
  | close => exact Nat.one_pos

/-- Only a future that is not a close asks for one. -/
theorem weight_close {fut fut' : Fut S B} (h : fut.poll = (fut', .ready (.ok (.close stream)))) :
    weight fut = 2 := by
  cases fut with
  | client | handle => rfl
  | close =>
    obtain ⟨-, hfinish⟩ := Prod.ext_iff.1 h
    simp only [Fut.poll] at hfinish
    split at hfinish <;> cases hfinish

theorem Keeps.pollTurn (h : Keeps p s) (houter : s.outer = false) :
    Next p s (s.pollTurn w) := by
  unfold Accepting.pollTurn
  cases hwork : s.pool.work with
  | nil =>
    simp only
    split
    · next hpoll =>
      refine .inl ⟨_, rfl, ⟨h.conserved, h.found, h.answered, h.handlers, fun hlast => ?_⟩, ?_⟩
      · rw [hpoll] at hlast
        cases hlast
      · simp [left, houter, hpoll]
    · next hpoll => exact .inr (.inl ⟨_, rfl, h.drained hwork (Bool.eq_false_iff.2 hpoll)⟩)
  | cons t work =>
    obtain ⟨n, fut⟩ := t
    have hcomplete : fut.Ends → Keeps p { s with pool := s.pool.complete n work } :=
      h.complete houter hwork
    have hpos := weight_pos fut
    have hless : left { s with pool := s.pool.complete n work } < s.left := by
      have := left_of_work (s.pool.complete n work) hwork rfl
      omega
    simp only
    split
    · next fut' heq =>
      have hleft := left_of_work (s.pool.keep n fut' work) hwork rfl
      exact .inl ⟨_, rfl, ⟨h.conserved.keep hwork heq, h.found, h.answered, h.handlers,
        fun hlast => ⟨houter, (h.last hlast).2⟩⟩, by omega⟩
    · next heq => exact .inr (.inr ⟨_, _, rfl, fun _ _ => (hcomplete ⟨_, _, heq⟩).restore⟩)
    · next heq => exact .inr (.inr ⟨_, _, rfl, fun _ _ => (hcomplete ⟨_, _, heq⟩).restore⟩)
    · exact .inr (.inr ⟨_, _, rfl, nofun⟩)
    · exact .inr (.inr ⟨_, _, rfl, nofun⟩)
    · next stream heq =>
      -- the future that closes the stream is the next one to be polled
      have hover := hcomplete ⟨_, _, heq⟩
      refine .inl ⟨_, rfl, ⟨hover.conserved.push _, h.found, h.answered, ?_, hover.last⟩, ?_⟩
      · have hpushed := handled_concat s.pool.pushed
          (.close stream (w.close s.pool.all.length stream))
        exact (hpushed.trans (List.append_nil _)).trans h.handlers
      · have hleft := left_of_work (s.pool.complete n work) hwork rfl
        rw [weight_close heq] at hleft
        simp only [left, Pool.push, List.map_cons, List.sum_cons, weight] at hleft ⊢
        omega
    · next heq => exact .inl ⟨_, rfl, hcomplete ⟨_, _, heq⟩, hless⟩
    · next heq => exact .inl ⟨_, rfl, hcomplete ⟨_, _, heq⟩, hless⟩

end Accepting

/-- A call of `poll_accept` is over, and one that does not fail has kept the futures that are not
over and made every connection that was accepted into one future. One that is pending has polled
all that it stores, and the accepter was pending at last. -/
theorem pollAccept_keeps (w : World S B) (p : Futures S B) :
    (∃ s, p.pollAccept w = .pending s ∧ Accepting.Waits p s) ∨
      ∃ s r, p.pollAccept w = .ready s r ∧ ∀ o, r = .ok o → Accepting.Done p s := by
  refine Turn.poll_post (Accepting.turn w) Accepting.left (fun s h => ?_)
    (Accepting.keeps_start p) (Nat.lt_succ_self _)
  unfold Accepting.turn
  split
  · next houter => exact h.acceptTurn houter
  · next houter => exact h.pollTurn (Bool.eq_false_iff.2 houter)

/-- More turns change nothing. -/
theorem pollAccept_eq (w : World S B) (p : Futures S B) (hn : p.start.left < n) :
    Turn.poll (Accepting.turn w) n p.start = p.pollAccept w := by
  refine Turn.poll_mono (fun s hs => ?_) hn
  rcases pollAccept_keeps w p with ⟨s', hpending, -⟩ | ⟨s', r, hready, -⟩
  · cases hs.symm.trans hpending
  · cases hs.symm.trans hready

end Penetrate
end Fuso

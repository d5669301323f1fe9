import Mathlib.Data.Set.Insert
import Mathlib.Logic.Function.Basic
import Mathlib.Logic.Relation

/-!
# Automatic repeat request

One direction of a conversation over a network that loses, repeats and reorders. The sender gives
the items of its queue numbers and sends those again that are not acknowledged, and the receiver
takes them in any order. Nothing that was sent is ever taken back, so the network is the set of all
messages there were.

Whatever the two parties do, what is received under a number is the item with this number, and an
item that the sender has dropped was received (`Sound`).
-/

namespace Fuso.Arq

inductive Message (α : Type u) where
  | data (i : Nat) (a : α)
  /-- The item with the number `i` was received. -/
  | ack (i : Nat)
  /-- All items with a number below `m` were received. -/
  | upTo (m : Nat)

structure State (α : Type u) where
  /-- All items there were to send. -/
  queue : List α
  /-- The number of those that have a number. -/
  sent : Nat
  /-- The numbers of those that the sender still has. -/
  unacked : Set Nat
  received : Nat → Option α
  network : Set (Message α)

namespace State
variable {α : Type u} (s : State α)

/-- Nothing is there, and this is known. -/
def init : State α := ⟨[], 0, ∅, fun _ => none, {.upTo 0}⟩

/-- The receiver has said that it has the item. -/
def Acked (i : Nat) : Prop := .ack i ∈ s.network ∨ ∃ m, i < m ∧ .upTo m ∈ s.network

/-- The parties send such messages. -/
def Truthful : Message α → Prop
  | .data i a => i ∈ s.unacked ∧ s.queue[i]? = some a
  | .ack i => (s.received i).isSome
  | .upTo m => ∀ i < m, (s.received i).isSome

/-- The network with the data of all items that the sender has. -/
def offer : State α := { s with network := s.network ∪ { m | s.Truthful m ∧ ∃ i a, m = .data i a } }

/-- The network with all acknowledgements of what was received. -/
def answer : State α :=
  { s with network := s.network ∪ { m | s.Truthful m ∧ ∀ i a, m ≠ .data i a } }

def take (i : Nat) (a : α) : State α :=
  { s with received := Function.update s.received i (some a) }

end State

open State

variable {α : Type u} {s t : State α}

/-- What the sender may do. -/
inductive Sends : State α → State α → Prop where
  | push (s : State α) (items : List α) : Sends s { s with queue := s.queue ++ items }
  | number (s : State α) (n : Nat) (h : s.sent + n ≤ s.queue.length) :
    Sends s { s with
      sent := s.sent + n, unacked := s.unacked ∪ { i | s.sent ≤ i ∧ i < s.sent + n } }
  | offer (s : State α) : Sends s s.offer
  | forget (s : State α) (gone : Set Nat) (h : ∀ i ∈ gone, s.Acked i) :
    Sends s { s with unacked := s.unacked \ gone }

/-- What the receiver may do. -/
inductive Receives : State α → State α → Prop where
  | take (s : State α) (i : Nat) (a : α) (h : .data i a ∈ s.network) : Receives s (s.take i a)
  | answer (s : State α) : Receives s s.answer

/-- The steps of one of the parties. -/
abbrev Sending : State α → State α → Prop := Relation.ReflTransGen Sends

abbrev Receiving : State α → State α → Prop := Relation.ReflTransGen Receives

/-- A state that the two come to, in any order of their steps. -/
def Reachable (s : State α) : Prop :=
  Relation.ReflTransGen (fun s t => Sends s t ∨ Receives s t) init s

theorem Reachable.sending (h : Reachable s) (hst : Sending s t) : Reachable t :=
  h.trans (hst.lift id fun _ _ => .inl)

theorem Reachable.receiving (h : Reachable s) (hst : Receiving s t) : Reachable t :=
  h.trans (hst.lift id fun _ _ => .inr)

/-! ## What the steps of a party leave as it was -/

/-- The sender leaves what is received. -/
structure SenderFrame (s t : State α) : Prop where
  received : t.received = s.received
  queue : s.queue <+: t.queue
  sent : s.sent ≤ t.sent
  network : s.network ⊆ t.network

theorem Sends.frame (h : Sends s t) : SenderFrame s t := by
  cases h with
  | push items => exact ⟨rfl, List.prefix_append _ _, Nat.le_refl _, fun _ => id⟩
  | number n h => exact ⟨rfl, List.prefix_rfl, Nat.le_add_right _ _, fun _ => id⟩
  | offer => exact ⟨rfl, List.prefix_rfl, Nat.le_refl _, Set.subset_union_left⟩
  | forget gone h => exact ⟨rfl, List.prefix_rfl, Nat.le_refl _, fun _ => id⟩

theorem Sending.frame (h : Sending s t) : SenderFrame s t := by
  induction h with
  | refl => exact ⟨rfl, List.prefix_rfl, Nat.le_refl _, fun _ => id⟩
  | tail _ hstep ih =>
    have hlast := hstep.frame
    exact {
      received := hlast.received.trans ih.received
      queue := ih.queue.trans hlast.queue
      sent := ih.sent.trans hlast.sent
      network := ih.network.trans hlast.network }

/-- The receiver leaves what the sender has. -/
structure ReceiverFrame (s t : State α) : Prop where
  queue : t.queue = s.queue
  sent : t.sent = s.sent
  unacked : t.unacked = s.unacked
  received : ∀ i, (s.received i).isSome → (t.received i).isSome
  network : s.network ⊆ t.network

theorem isSome_take_iff :
    ((s.take i a).received j).isSome ↔ (s.received j).isSome ∨ i = j := by
  unfold State.take
  by_cases hij : j = i
  · subst hij
    simp
  · simp [Function.update_of_ne hij, Ne.symm hij]

theorem isSome_take (h : (s.received j).isSome) : ((s.take i a).received j).isSome :=
  isSome_take_iff.2 (.inl h)

theorem Receives.frame (h : Receives s t) : ReceiverFrame s t := by
  cases h with
  | take i a h => exact ⟨rfl, rfl, rfl, fun _ => isSome_take, fun _ => id⟩
  | answer => exact ⟨rfl, rfl, rfl, fun _ => id, Set.subset_union_left⟩

theorem Receiving.frame (h : Receiving s t) : ReceiverFrame s t := by
  induction h with
  | refl => exact ⟨rfl, rfl, rfl, fun _ => id, fun _ => id⟩
  | tail _ hstep ih =>
    have hlast := hstep.frame
    exact {
      queue := hlast.queue.trans ih.queue
      sent := hlast.sent.trans ih.sent
      unacked := hlast.unacked.trans ih.unacked
      received := fun i hi => hlast.received i (ih.received i hi)
      network := ih.network.trans hlast.network }

/-! ## Safety -/

/-- What holds in every state that is reached. -/
structure Sound (s : State α) : Prop where
  upTo_zero : .upTo 0 ∈ s.network
  sent_le : s.sent ≤ s.queue.length
  unacked_lt : ∀ i ∈ s.unacked, i < s.sent
  data : ∀ i a, .data i a ∈ s.network → i < s.sent ∧ s.queue[i]? = some a
  received : ∀ i a, s.received i = some a → i < s.sent ∧ s.queue[i]? = some a
  acked : ∀ i, s.Acked i → (s.received i).isSome
  /-- What has a number is with the sender or with the receiver. -/
  conserved : ∀ i < s.sent, i ∈ s.unacked ∨ (s.received i).isSome

theorem sound_init : Sound (init : State α) where
  upTo_zero := Set.mem_singleton _
  sent_le := Nat.le_refl 0
  unacked_lt := fun _ h => h.elim
  data := fun i a h => by simp [init] at h
  received := fun i a h => by cases h
  acked := by
    rintro i (h | ⟨m, hm, h⟩)
    · simp [init] at h
    · obtain rfl : m = 0 := by simpa [init] using h
      omega
  conserved := fun i h => absurd h (Nat.not_lt_zero i)

/-- A queue only grows, so an item stays where it is. -/
theorem getElem?_of_isPrefix {l l' : List α} {i : Nat} {a : α} (h : l <+: l')
    (hi : l[i]? = some a) : l'[i]? = some a := by
  obtain ⟨hlt, rfl⟩ := List.getElem?_eq_some_iff.1 hi
  rw [h.getElem hlt, List.getElem?_eq_getElem]

theorem acked_offer : s.offer.Acked i ↔ s.Acked i := by
  simp [Acked, offer]

theorem Sound.offer (h : Sound s) : Sound s.offer where
  upTo_zero := .inl h.upTo_zero
  sent_le := h.sent_le
  unacked_lt := h.unacked_lt
  data := by
    rintro i a (hold | ⟨hnew, -⟩)
    · exact h.data i a hold
    · exact ⟨h.unacked_lt i hnew.1, hnew.2⟩
  received := h.received
  acked := fun i hi => h.acked i (acked_offer.1 hi)
  conserved := h.conserved

theorem Sound.sends (h : Sound s) (hst : Sends s t) : Sound t := by
  cases hst with
  | push items =>
    refine ⟨h.upTo_zero, ?_, h.unacked_lt, fun i a hi => ?_, fun i a hi => ?_, h.acked, h.conserved⟩
    · exact h.sent_le.trans (List.prefix_append _ _).length_le
    · exact (h.data i a hi).imp_right (getElem?_of_isPrefix (List.prefix_append _ _))
    · exact (h.received i a hi).imp_right (getElem?_of_isPrefix (List.prefix_append _ _))
  | number n hn =>
    refine ⟨h.upTo_zero, hn, ?_, fun i a hi => ?_, fun i a hi => ?_, h.acked, fun i hi => ?_⟩
    · rintro i (hold | hnew)
      · exact Nat.lt_add_right n (h.unacked_lt i hold)
      · exact hnew.2
    · exact (h.data i a hi).imp_left (Nat.lt_add_right n)
    · exact (h.received i a hi).imp_left (Nat.lt_add_right n)
    · rcases Nat.lt_or_ge i s.sent with hlt | hge
      · exact (h.conserved i hlt).imp_left .inl
      · exact .inl (.inr ⟨hge, hi⟩)
  | offer => exact h.offer
  | forget gone hgone =>
    refine ⟨h.upTo_zero, h.sent_le, fun i hi => h.unacked_lt i hi.1, h.data, h.received, h.acked,
      fun i hi => ?_⟩
    by_cases hg : i ∈ gone
    · exact .inr (h.acked i (hgone i hg))
    · exact (h.conserved i hi).imp_left (⟨·, hg⟩)

theorem Sound.take (h : Sound s) (hdata : .data i a ∈ s.network) : Sound (s.take i a) where
  upTo_zero := h.upTo_zero
  sent_le := h.sent_le
  unacked_lt := h.unacked_lt
  data := h.data
  received j b hj := by
    unfold State.take at hj
    by_cases hij : j = i
    · subst hij
      obtain rfl : a = b := by simpa using hj
      exact h.data j a hdata
    · exact h.received j b (by simpa [Function.update_of_ne hij] using hj)
  acked := fun j hj => isSome_take (h.acked j hj)
  conserved := fun j hj => (h.conserved j hj).imp_right isSome_take

theorem Sound.answer (h : Sound s) : Sound s.answer where
  upTo_zero := .inl h.upTo_zero
  sent_le := h.sent_le
  unacked_lt := h.unacked_lt
  data := by
    rintro i a (hold | ⟨-, hnot⟩)
    · exact h.data i a hold
    · exact absurd rfl (hnot i a)
  received := h.received
  acked := by
    rintro i ((hold | ⟨hnew, -⟩) | ⟨m, hm, hold | ⟨hnew, -⟩⟩)
    · exact h.acked i (.inl hold)
    · exact hnew
    · exact h.acked i (.inr ⟨m, hm, hold⟩)
    · exact hnew i hm
  conserved := h.conserved

theorem Sound.receives (h : Sound s) (hst : Receives s t) : Sound t := by
  cases hst with
  | take i a hdata => exact h.take hdata
  | answer => exact h.answer

theorem Sound.sending (h : Sound s) (hst : Sending s t) : Sound t := by
  induction hst with
  | refl => exact h
  | tail _ hstep ih => exact ih.sends hstep

theorem Sound.receiving (h : Sound s) (hst : Receiving s t) : Sound t := by
  induction hst with
  | refl => exact h
  | tail _ hstep ih => exact ih.receives hstep

theorem Reachable.sound (h : Reachable s) : Sound s := by
  induction h with
  | refl => exact sound_init
  | tail _ hstep ih => exact hstep.elim ih.sends ih.receives

/-- When the receiver has all items below `m`, these are the first ones of the queue. -/
theorem Sound.delivered (h : Sound s) (hm : ∀ i < m, (s.received i).isSome) :
    (List.range m).filterMap s.received = s.queue.take m := by
  induction m with
  | zero => rfl
  | succ m ih =>
    obtain ⟨a, ha⟩ := Option.isSome_iff_exists.1 (hm m (Nat.lt_succ_self m))
    rw [List.range_succ, List.filterMap_append, ih fun i hi => hm i (Nat.lt_succ_of_lt hi),
      List.take_add_one, (h.received m a ha).2]
    simp [ha]

/-- When the sender has nothing left, the receiver has everything. -/
theorem Sound.complete (h : Sound s) (hsent : s.sent = s.queue.length) (hnone : s.unacked = ∅) :
    (List.range s.sent).filterMap s.received = s.queue := by
  have hall : ∀ i < s.sent, (s.received i).isSome := fun i hi =>
    (h.conserved i hi).resolve_left (by simp [hnone])
  rw [h.delivered hall, hsent, List.take_length]

end Fuso.Arq

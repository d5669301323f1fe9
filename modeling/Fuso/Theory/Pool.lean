import Mathlib.Data.List.Nodup
import Mathlib.Data.List.Range

/-!
# Pools of futures

A scheduler stores its futures in a list. A call of it takes them all into a list of its own and
polls them one after the other; what is pending is stored again, and more futures may be pushed
meanwhile. A `Pool` is such a call on its way. Its futures are numbered, first those that the call
has found and then those that it has pushed. `Conserved` holds all along a call: every number is in
one place. A call that ends with its list polled (`Conserved.drained`) or stores the rest of it
(`Conserved.restored`) has kept its futures (`Kept`).
-/

namespace Fuso

/-- A future and its number. -/
structure Pooled (F : Type u) where
  number : Nat
  fut : F

/-- The lists are given from their ends on. The numbers of the futures that were polled, and of
those that are over, are there to tell what becomes of a future. -/
structure Pool (F : Type u) where
  found : List F
  pushed : List F
  work : List (Pooled F)
  stored : List (Pooled F)
  polled : List Nat
  completed : List Nat

namespace Pool
variable {F : Type u}

def numbers (futures : List (Pooled F)) : List Nat := futures.map (·.number)

/-- The futures by their numbers. -/
def all (p : Pool F) : List F := p.found ++ p.pushed

/-- The call takes what is stored. -/
def take (futures : List F) : Pool F where
  found := futures
  pushed := []
  work := futures.zipIdx.map fun (fut, number) => ⟨number, fut⟩
  stored := []
  polled := []
  completed := []

def push (p : Pool F) (fut : F) : Pool F := { p with
  pushed := p.pushed ++ [fut]
  work := ⟨p.all.length, fut⟩ :: p.work }

/-- The first future is pending, and is `fut` now. -/
def keep (p : Pool F) (number : Nat) (fut : F) (work : List (Pooled F)) : Pool F := { p with
  work
  stored := ⟨number, fut⟩ :: p.stored
  polled := p.polled ++ [number] }

/-- The first future is over. -/
def complete (p : Pool F) (number : Nat) (work : List (Pooled F)) : Pool F := { p with
  work
  polled := p.polled ++ [number]
  completed := p.completed ++ [number] }

/-- What was not polled is stored as it is. -/
def restore (p : Pool F) : Pool F := { p with work := [], stored := p.work ++ p.stored }

/-- What is stored. -/
def futures (p : Pool F) : List F := p.stored.map (·.fut)

/-! ## Conservation -/

section
variable (next : F → F → Prop) (ends : F → Prop)

/-- Every future is in one place: it is still to be polled, it was pending and is stored as the poll
left it (`next`), or the poll was its end (`ends`). -/
structure Conserved (p : Pool F) : Prop where
  once : (numbers p.work ++ (numbers p.stored ++ p.completed)).Perm (.range p.all.length)
  polled : p.polled.Perm (numbers p.stored ++ p.completed)
  waiting : ∀ t ∈ p.work, p.all[t.number]? = some t.fut
  pending : ∀ t ∈ p.stored, ∃ fut, p.all[t.number]? = some fut ∧ next fut t.fut
  completed : ∀ n ∈ p.completed, ∃ fut, p.all[n]? = some fut ∧ ends fut

/-- A call has kept its futures: one that is not over is stored once, one that is over is not
stored, none was polled twice, and what is stored is what a poll has left or what was there. -/
structure Kept (p : Pool F) : Prop where
  once : ∀ n < p.all.length, n ∉ p.completed → (numbers p.stored).count n = 1
  gone : ∀ n ∈ p.completed, n ∉ numbers p.stored ∧ ∃ fut, p.all[n]? = some fut ∧ ends fut
  polled : p.polled.Nodup
  origin : ∀ t ∈ p.stored, ∃ fut, p.all[t.number]? = some fut ∧
    (t.number ∈ p.polled ∧ next fut t.fut ∨ t.number ∉ p.polled ∧ t.fut = fut)

end

variable {next : F → F → Prop} {ends : F → Prop} {p : Pool F} {n : Nat} {f fut : F}
  {work : List (Pooled F)}

theorem numbers_take (futures : List F) :
    numbers (take futures).work = .range futures.length := by
  rw [numbers, take, List.map_map, List.range_eq_range']
  exact List.zipIdx_map_snd 0 futures

theorem conserved_take (futures : List F) : Conserved next ends (take futures) where
  once := by
    rw [numbers_take]
    simp [take, numbers, all]
  polled := .nil
  waiting t ht := by
    obtain ⟨⟨fut, number⟩, hmem, rfl⟩ := List.mem_map.1 ht
    simpa [take, all] using List.mem_zipIdx_iff_getElem?.1 hmem
  pending := nofun
  completed := nofun

theorem all_push (p : Pool F) (fut : F) : (p.push fut).all = p.all ++ [fut] :=
  (List.append_assoc ..).symm

/-- What has a number keeps it. -/
theorem getElem?_push (h : p.all[n]? = some f) (fut : F) : (p.push fut).all[n]? = some f := by
  rw [all_push, List.getElem?_append_left (List.getElem?_eq_some_iff.1 h).1]
  exact h

theorem Conserved.push (h : Conserved next ends p) (fut : F) :
    Conserved next ends (p.push fut) where
  once := by
    rw [all_push, List.length_append, List.length_singleton, List.range_succ]
    exact (h.once.cons _).trans (List.perm_append_singleton ..).symm
  polled := h.polled
  waiting t ht := by
    rcases List.mem_cons.1 ht with rfl | ht
    · rw [all_push, List.getElem?_concat_length]
    · exact getElem?_push (h.waiting t ht) fut
  pending t ht := by
    obtain ⟨f, hf, hnext⟩ := h.pending t ht
    exact ⟨f, getElem?_push hf fut, hnext⟩
  completed n hn := by
    obtain ⟨f, hf, hends⟩ := h.completed n hn
    exact ⟨f, getElem?_push hf fut, hends⟩

theorem Conserved.keep (h : Conserved next ends p) (hwork : p.work = ⟨n, f⟩ :: work)
    (hnext : next f fut) : Conserved next ends (p.keep n fut work) where
  once := by
    have honce := h.once
    rw [hwork] at honce
    have hmoved : (numbers work ++ n :: (numbers p.stored ++ p.completed)).Perm
        (n :: (numbers work ++ (numbers p.stored ++ p.completed))) := List.perm_middle
    exact hmoved.trans honce
  polled := (List.perm_append_singleton ..).trans (h.polled.cons n)
  waiting t ht := h.waiting t (hwork ▸ List.mem_cons_of_mem _ ht)
  pending t ht := by
    rcases List.mem_cons.1 ht with rfl | ht
    · exact ⟨f, h.waiting ⟨n, f⟩ (hwork ▸ List.mem_cons_self), hnext⟩
    · exact h.pending t ht
  completed := h.completed

theorem Conserved.complete (h : Conserved next ends p) (hwork : p.work = ⟨n, f⟩ :: work)
    (hends : ends f) : Conserved next ends (p.complete n work) where
  once := by
    have honce := h.once
    rw [hwork] at honce
    have hcompleted : (numbers work ++ (numbers p.stored ++ (p.completed ++ [n]))).Perm
        (n :: (numbers work ++ (numbers p.stored ++ p.completed))) := by
      rw [← List.append_assoc, ← List.append_assoc, ← List.append_assoc]
      exact List.perm_append_singleton ..
    exact hcompleted.trans honce
  polled := by
    have hcompleted : (p.polled ++ [n]).Perm (numbers p.stored ++ p.completed ++ [n]) :=
      h.polled.append_right [n]
    rwa [List.append_assoc] at hcompleted
  waiting t ht := h.waiting t (hwork ▸ List.mem_cons_of_mem _ ht)
  pending := h.pending
  completed m hm := by
    rcases List.mem_append.1 hm with hm | hm
    · exact h.completed m hm
    · obtain rfl := List.mem_singleton.1 hm
      exact ⟨f, h.waiting ⟨m, f⟩ (hwork ▸ List.mem_cons_self), hends⟩

/-! ## The end of a call -/

theorem Conserved.nodup (h : Conserved next ends p) :
    (numbers p.work ++ (numbers p.stored ++ p.completed)).Nodup :=
  h.once.nodup_iff.2 List.nodup_range

/-- What waits was not polled. -/
theorem Conserved.not_polled (h : Conserved next ends p) (hn : n ∈ numbers p.work) : n ∉ p.polled :=
  fun hpolled => (List.nodup_append.1 h.nodup).2.2 n hn n (h.polled.mem_iff.1 hpolled) rfl

theorem Conserved.stored_polled (h : Conserved next ends p) (hn : n ∈ numbers p.stored) :
    n ∈ p.polled :=
  h.polled.mem_iff.2 (List.mem_append_left _ hn)

/-- The rest is stored as it is. -/
theorem Conserved.restored (h : Conserved next ends p) : Kept next ends p.restore := by
  have hstored : numbers p.restore.stored = numbers p.work ++ numbers p.stored := List.map_append
  have hnodup : (numbers p.restore.stored ++ p.completed).Nodup := by
    rw [hstored, List.append_assoc]
    exact h.nodup
  constructor
  · intro n hn hcompleted
    have hmem : n ∈ numbers p.restore.stored ++ p.completed := by
      rw [hstored, List.append_assoc]
      exact h.once.mem_iff.2 (List.mem_range.2 hn)
    exact List.count_eq_one_of_mem hnodup.of_append_left
      ((List.mem_append.1 hmem).resolve_right hcompleted)
  · intro n hn
    exact ⟨fun hmem => (List.nodup_append.1 hnodup).2.2 n hmem n hn rfl, h.completed n hn⟩
  · exact h.polled.nodup_iff.2 h.nodup.of_append_right
  · intro t ht
    rcases List.mem_append.1 ht with ht | ht
    · exact ⟨t.fut, h.waiting t ht, .inr ⟨h.not_polled (List.mem_map_of_mem ht), rfl⟩⟩
    · obtain ⟨f, hf, hnext⟩ := h.pending t ht
      exact ⟨f, hf, .inl ⟨h.stored_polled (List.mem_map_of_mem ht), hnext⟩⟩

/-- When nothing is left to be polled, all that is stored was polled. -/
theorem Conserved.drained (h : Conserved next ends p) (hwork : p.work = []) :
    Kept next ends p ∧ ∀ t ∈ p.stored, t.number ∈ p.polled := by
  have hrestore : p.restore = p := by
    rw [restore, hwork, List.nil_append, ← hwork]
  refine ⟨hrestore ▸ h.restored, fun t ht => h.stored_polled (List.mem_map_of_mem ht)⟩

/-! ## Counting -/

/-- The futures that are not over. -/
def live (p : Pool F) : List F := (p.work ++ p.stored).map (·.fut)

theorem futures_restore (p : Pool F) : p.restore.futures = p.live := rfl

theorem futures_drained (hwork : p.work = []) : p.futures = p.live := by
  rw [live, hwork, List.nil_append, futures]

theorem live_take (futures : List F) : (take futures).live = futures := by
  rw [live, take, List.append_nil, List.map_map]
  exact List.zipIdx_map_fst 0 futures

section
variable (q : F → Bool)

theorem countP_push (p : Pool F) (fut : F) :
    (p.push fut).live.countP q = p.live.countP q + if q fut then 1 else 0 :=
  List.countP_cons

theorem countP_live (hwork : p.work = ⟨n, f⟩ :: work) :
    p.live.countP q = ((work ++ p.stored).map (·.fut)).countP q + if q f then 1 else 0 := by
  rw [live, hwork]
  exact List.countP_cons

theorem countP_keep (hwork : p.work = ⟨n, f⟩ :: work) (hq : q fut = q f) :
    (p.keep n fut work).live.countP q = p.live.countP q := by
  have hkeep : (p.keep n fut work).live.Perm (fut :: (work ++ p.stored).map (·.fut)) := by
    rw [live, keep, List.map_append, List.map_cons, List.map_append]
    exact List.perm_middle
  rw [hkeep.countP_eq, List.countP_cons, hq, countP_live q hwork]

theorem countP_complete (hwork : p.work = ⟨n, f⟩ :: work) :
    (p.complete n work).live.countP q + (if q f then 1 else 0) = p.live.countP q :=
  (countP_live q hwork).symm

end
end Pool
end Fuso

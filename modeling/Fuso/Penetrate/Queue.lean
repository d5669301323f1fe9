import Mathlib.Algebra.Order.Ring.Nat
import Mathlib.Data.List.Perm.Subperm
import Mathlib.Data.List.Nodup

/-!
# `MQueue`

The wait list of the penetrate server, a map from ids to what waits for an answer. `push` looks for
a free id from `identify` on and leaves `identify` at the id it takes. It finds one unless all of
the 2^32 ids are taken (`push_isSome`), and then changes the map at that id only (`lookup_push`).
A `remove` of the id takes the `push` back (`push_remove`).
-/

namespace Fuso

/-- The ids of the wait list are all different. -/
structure MQueue (α : Type u) where
  identify : UInt32
  waitList : List (UInt32 × α)
  nodup : (waitList.map Prod.fst).Nodup

namespace MQueue
variable {α : Type u} (q : MQueue α) {q' : MQueue α} {id : UInt32} {item v : α}

def new : MQueue α := ⟨0, [], .nil⟩

def lookup (id : UInt32) : Option α := q.waitList.lookup id

def containsKey (id : UInt32) : Bool := (q.lookup id).isSome

/-- The next id that the loop of `push` tries. -/
def next (ident : UInt32) : UInt32 :=
  let overflowing := decide (2 ^ 32 ≤ ident.toNat + 1)
  if overflowing then 0 else ident + 1

/-- At most `n` turns of the loop of `push`. -/
def search : Nat → UInt32 → Option UInt32
  | 0, _ => none
  | n + 1, ident => if q.containsKey ident then search n (next ident) else some ident

theorem lookup_eq_none : q.lookup id = none ↔ id ∉ q.waitList.map Prod.fst := by
  rw [lookup, List.lookup_eq_none_iff]
  constructor
  · rintro h hmem
    obtain ⟨⟨k, v⟩, hp, rfl⟩ := List.mem_map.1 hmem
    simpa using h _ hp
  · intro h p hp
    simpa using fun hid : id = p.1 => h (hid ▸ List.mem_map_of_mem hp)

theorem search_eq_some (h : q.search n ident = some id) : q.lookup id = none := by
  induction n generalizing ident with
  | zero => cases h
  | succ n ih =>
    unfold search at h
    split at h
    · exact ih h
    · next hfree =>
      cases h
      simpa [containsKey] using hfree

/-- `push`. After one turn more than there are entries, the loop has tried all ids. -/
def push (item : α) : Option (MQueue α × UInt32) :=
  match h : q.search (q.waitList.length + 1) q.identify with
  | none => none
  | some ident => some ({
      identify := ident
      waitList := (ident, item) :: q.waitList
      nodup := List.nodup_cons.2 ⟨(lookup_eq_none q).1 (q.search_eq_some h), q.nodup⟩ }, ident)

def remove (id : UInt32) : MQueue α × Option α :=
  ({ q with
      waitList := q.waitList.filter (·.1 != id)
      nodup := q.nodup.sublist (List.filter_sublist.map _) }, q.lookup id)

/-! ## What `push` and `remove` do to the map -/

variable {q}

@[simp] theorem lookup_new (id : UInt32) : (new : MQueue α).lookup id = none := rfl

theorem push_eq_some (h : q.push item = some (q', id)) :
    q.lookup id = none ∧ q'.waitList = (id, item) :: q.waitList := by
  unfold push at h
  split at h
  · cases h
  · next hs =>
    cases h
    exact ⟨q.search_eq_some hs, rfl⟩

theorem lookup_push (h : q.push item = some (q', id)) (k : UInt32) :
    q'.lookup k = if k = id then some item else q.lookup k := by
  rw [lookup, (push_eq_some h).2, List.lookup_cons]
  by_cases hk : k = id
  · simp [hk]
  · have hne : (k == id) = false := by simpa using hk
    simp [hne, hk, lookup]

/-- What was in the list before a `push` is in the list behind it. -/
theorem lookup_of_push (h : q.push item = some (q', id)) (hk : q.lookup k = some v) :
    q'.lookup k = some v := by
  rw [lookup_push h, if_neg, hk]
  rintro rfl
  simp [(push_eq_some h).1] at hk

@[simp] theorem remove_snd (id : UInt32) : (q.remove id).2 = q.lookup id := rfl

theorem lookup_remove (id k : UInt32) :
    (q.remove id).1.lookup k = if k = id then none else q.lookup k := by
  simp only [lookup, remove]
  induction q.waitList with
  | nil => simp
  | cons p l ih =>
    rw [List.filter_cons]
    by_cases hp : p.1 = id
    · rw [if_neg (by simpa using hp), ih, List.lookup_cons]
      by_cases hk : k = id
      · simp [hk]
      · have hne : (k == p.1) = false := by simpa [hp] using hk
        simp [hk, hne]
    · rw [if_pos (by simpa using hp), List.lookup_cons, List.lookup_cons, ih]
      by_cases hk : k = id
      · have hne : (id == p.1) = false := by simpa using fun h => hp h.symm
        simp [hk, hne]
      · simp [hk]

/-! ## The loop of `push` ends -/

theorem next_eq (ident : UInt32) : next ident = ident + 1 := by
  unfold next
  by_cases h : 2 ^ 32 ≤ ident.toNat + 1
  · have hlt := ident.toNat_lt
    simp only [h, decide_true, if_true]
    apply UInt32.toNat.inj
    rw [UInt32.toNat_add]
    simp
    omega
  · rw [decide_eq_false h, if_neg Bool.false_ne_true]

/-- A loop that goes on for `n` turns has found the `n` ids from `ident` on taken. -/
theorem search_eq_none (h : q.search n ident = none) {k : Nat} (hk : k < n) :
    ident + .ofNat k ∈ q.waitList.map Prod.fst := by
  induction n generalizing ident k with
  | zero => omega
  | succ n ih =>
    unfold search at h
    split at h
    · next hused =>
      cases k with
      | zero =>
        have hne : q.lookup ident ≠ none := by
          simpa [containsKey, Option.isSome_iff_ne_none] using hused
        have hmem := not_not.1 (mt (lookup_eq_none q).2 hne)
        rwa [show ident + .ofNat 0 = ident by apply UInt32.toNat.inj; simp]
      | succ k =>
        have hmem := ih h (k := k) (by omega)
        rwa [next_eq, show ident + 1 + .ofNat k = ident + .ofNat (k + 1) by
          apply UInt32.toNat.inj; simp; omega] at hmem
    · cases h

theorem add_ofNat_inj {ident : UInt32} {k l : Nat} (hk : k < 2 ^ 32) (hl : l < 2 ^ 32)
    (h : ident + .ofNat k = ident + .ofNat l) : k = l := by
  have hnat := congrArg UInt32.toNat h
  simp only [UInt32.toNat_add, UInt32.toNat_ofNat'] at hnat
  omega

/-- As long as there are less than 2^32 entries, `push` finds a free id. -/
theorem push_isSome (h : q.waitList.length < 2 ^ 32) (item : α) : (q.push item).isSome := by
  have hsearch : q.search (q.waitList.length + 1) q.identify ≠ none := by
    intro hnone
    let tried := (List.range (q.waitList.length + 1)).map fun k => q.identify + .ofNat k
    have hnodup : tried.Nodup := by
      refine List.Nodup.map_on (fun k hk l hl heq => ?_) List.nodup_range
      rw [List.mem_range] at hk hl
      exact add_ofNat_inj (by omega) (by omega) heq
    have hsub : tried ⊆ q.waitList.map Prod.fst := by
      intro id hid
      obtain ⟨k, hk, rfl⟩ := List.mem_map.1 hid
      exact search_eq_none hnone (List.mem_range.1 hk)
    have hle := (List.subperm_of_subset hnodup hsub).length_le
    simp only [tried, List.length_map, List.length_range] at hle
    omega
  unfold push
  split
  · exact absurd ‹_› hsearch
  · rfl

/-- With more turns the loop takes the same id. -/
theorem search_mono (h : q.search n ident = some id) (hle : n ≤ m) :
    q.search m ident = some id := by
  induction n generalizing ident m with
  | zero => cases h
  | succ n ih =>
    obtain ⟨m, rfl⟩ : ∃ m', m = m' + 1 := ⟨m - 1, by omega⟩
    unfold search at h ⊢
    split
    · next hused =>
      rw [if_pos hused] at h
      exact ih h (by omega)
    · next hfree => rwa [if_neg hfree] at h

/-- The id of a `push` is the one that the loop stops at. -/
theorem push_search (h : q.push item = some (q', id)) :
    q'.identify = id ∧ q.search (q.waitList.length + 1) q.identify = some id := by
  unfold push at h
  split at h
  · cases h
  · next hs =>
    cases h
    exact ⟨rfl, hs⟩

/-- A `remove` of the id that a `push` took leaves the list that was there before. -/
theorem waitList_push_remove (h : q.push item = some (q', id)) :
    (q'.remove id).1.waitList = q.waitList := by
  obtain ⟨hfree, hlist⟩ := push_eq_some h
  have hne : ∀ p ∈ q.waitList, (p.1 != id) = true := by
    intro p hp
    apply bne_iff_ne.2
    rintro rfl
    exact (lookup_eq_none q).1 hfree (List.mem_map_of_mem hp)
  simp only [remove, hlist]
  rw [List.filter_cons_of_neg (by simp), List.filter_eq_self.2 hne]

/-- With less than 2^32 entries the loop of `push` ends, at an id that was free, and the item is put
there and nowhere else. A `remove` of the id returns the item and restores the list. -/
theorem push_remove (q : MQueue α) (item : α) (h : q.waitList.length < 2 ^ 32) :
    ∃ q' id, q.push item = some (q', id) ∧
      (∀ n, q.waitList.length < n → q.search n q.identify = some id) ∧
      q.lookup id = none ∧ q'.identify = id ∧ q'.lookup id = some item ∧
      (∀ k, k ≠ id → q'.lookup k = q.lookup k) ∧
      (q'.remove id).2 = some item ∧ (q'.remove id).1.waitList = q.waitList := by
  obtain ⟨⟨q', id⟩, hpush⟩ := Option.isSome_iff_exists.1 (push_isSome h item)
  obtain ⟨hident, hsearch⟩ := push_search hpush
  have hitem : q'.lookup id = some item := by rw [lookup_push hpush, if_pos rfl]
  refine ⟨q', id, hpush, fun n hn => search_mono hsearch hn, (push_eq_some hpush).1, hident, hitem,
    ?_, hitem, waitList_push_remove hpush⟩
  intro k hk
  rw [lookup_push hpush, if_neg hk]

/-- The counter is at its greatest value, which is taken, and goes on at zero. -/
theorem push_remove_wrap :
    ∃ q' id, (⟨4294967295, [(4294967295, 7)], by simp⟩ : MQueue Nat).push 8 = some (q', id) ∧
      id = 0 ∧ (q'.remove id).2 = some 8 := by
  obtain ⟨q', id, hpush, hsearch, -, -, -, -, hremove, -⟩ :=
    push_remove (⟨4294967295, [(4294967295, 7)], by simp⟩ : MQueue Nat) 8 (by decide)
  exact ⟨q', id, hpush, Option.some.inj ((hsearch 2 (by decide)).symm.trans rfl), hremove⟩

end MQueue
end Fuso

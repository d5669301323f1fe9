import Mathlib.Algebra.Order.Ring.Nat
import Mathlib.Data.List.Perm.Subperm

/-!
# Serial numbers

Numbers of 32 bits that wrap around, as those of packets do. Which of two comes first is said
relative to a base, from which both are counted on. A list is `Within` a window when its numbers
stand in their order and none is further from the base than the window is long.
-/

namespace Fuso.Serial

/-- How far the number is behind the base. -/
def ahead (base sn : UInt32) : Nat := (sn - base).toNat

variable {base a b sn : UInt32} {n m : Nat} {l l' : List UInt32}

@[simp] theorem ahead_self (base : UInt32) : ahead base base = 0 := by
  simp [ahead]

/-- From a number on that is not behind it. -/
theorem ahead_of_le (h : ahead base a ≤ ahead base sn) :
    ahead a sn = ahead base sn - ahead base a := by
  have := a.toNat_lt
  have := sn.toNat_lt
  have := base.toNat_lt
  unfold ahead at *
  simp only [UInt32.toNat_sub] at *
  omega

theorem ahead_succ (h : ahead base sn + 1 < 2 ^ 32) : ahead base (sn + 1) = ahead base sn + 1 := by
  unfold ahead at *
  simp only [UInt32.toNat_sub, UInt32.toNat_add, UInt32.reduceToNat] at *
  omega

/-- The numbers stand in their order in the window of the length `n` from `base` on. -/
structure Within (base : UInt32) (n : Nat) (l : List UInt32) : Prop where
  lt : ∀ sn ∈ l, ahead base sn < n
  sorted : l.Pairwise fun a b => ahead base a < ahead base b

theorem Within.nil (base : UInt32) (n : Nat) : Within base n [] := ⟨nofun, .nil⟩

theorem Within.nodup (h : Within base n l) : l.Nodup := by
  apply h.sorted.imp
  rintro a b hab rfl
  exact Nat.lt_irrefl _ hab

theorem Within.length_le (h : Within base n l) : l.length ≤ n := by
  have hnodup : (l.map (ahead base)).Nodup := (List.pairwise_map.2 h.sorted).imp Nat.ne_of_lt
  have hsub : l.map (ahead base) ⊆ List.range n := fun i hi => by
    obtain ⟨sn, hsn, rfl⟩ := List.mem_map.1 hi
    exact List.mem_range.2 (h.lt sn hsn)
  simpa using (List.subperm_of_subset hnodup hsub).length_le

theorem Within.sublist (h : Within base n l) (hl : l'.Sublist l) : Within base n l' :=
  ⟨fun sn hsn => h.lt sn (hl.subset hsn), h.sorted.sublist hl⟩

theorem Within.mono (h : Within base n l) (hnm : n ≤ m) : Within base m l :=
  ⟨fun sn hsn => Nat.lt_of_lt_of_le (h.lt sn hsn) hnm, h.sorted⟩

/-- The base moves on, up to the first number. -/
theorem Within.rebase (h : Within base n l) (ha : ∀ sn ∈ l, ahead base a ≤ ahead base sn) :
    Within a (n - ahead base a) l where
  lt sn hsn := by
    have := h.lt sn hsn
    have := ha sn hsn
    rw [ahead_of_le this]
    omega
  sorted := by
    apply h.sorted.imp_of_mem
    intro b c hb hc hbc
    have hb' := ha b hb
    rw [ahead_of_le hb', ahead_of_le (ha c hc)]
    omega

theorem Within.head_le (h : Within base n (a :: l)) :
    ∀ sn ∈ a :: l, ahead base a ≤ ahead base sn := by
  intro sn hsn
  rcases List.mem_cons.1 hsn with rfl | hsn
  · exact Nat.le_refl _
  · exact Nat.le_of_lt (List.rel_of_pairwise_cons h.sorted hsn)

/-- The base moves on behind the number that it was. -/
theorem Within.tail (h : Within base n (base :: l)) : Within (base + 1) n l := by
  have hone : ahead base (base + 1) = 1 := by
    rw [ahead_succ (by simp), ahead_self]
  have hrest : Within base n l := h.sublist (List.sublist_cons_self _ _)
  refine (hrest.rebase fun sn hsn => ?_).mono (Nat.sub_le _ _)
  have hpos : ahead base base < ahead base sn := List.rel_of_pairwise_cons h.sorted hsn
  rw [hone]
  exact Nat.lt_of_le_of_lt (Nat.zero_le _) hpos

/-- The number behind the window is added, and the window is longer by it. -/
theorem Within.concat (h : Within base n l) (ha : ahead base a = n) :
    Within base (n + 1) (l ++ [a]) where
  lt sn hsn := by
    rcases List.mem_append.1 hsn with hsn | hsn
    · exact Nat.lt_succ_of_lt (h.lt sn hsn)
    · rw [List.mem_singleton.1 hsn, ha]
      exact Nat.lt_succ_self n
  sorted := by
    refine List.pairwise_append.2 ⟨h.sorted, List.pairwise_singleton _ _, fun b hb c hc => ?_⟩
    rw [List.mem_singleton.1 hc, ha]
    exact h.lt b hb

end Fuso.Serial

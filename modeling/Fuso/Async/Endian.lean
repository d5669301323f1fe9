import Fuso.Async.Stream

/-!
# Integers on the wire

Four bytes of an integer, the lowest one or the highest one first.
-/

namespace Fuso

def toLeBytes (n : Nat) : Bytes :=
  [.ofNat n, .ofNat (n / 256), .ofNat (n / 65536), .ofNat (n / 16777216)]

def fromLeBytes : Bytes → Nat
  | [] => 0
  | b :: bytes => b.toNat + 256 * fromLeBytes bytes

def putU32 (n : Nat) : Bytes := (toLeBytes n).reverse

def u32FromBe (bytes : Bytes) : Nat := fromLeBytes bytes.reverse

@[simp] theorem length_toLeBytes : (toLeBytes n).length = 4 := rfl

theorem fromLeBytes_toLeBytes (h : n < 2 ^ 32) : fromLeBytes (toLeBytes n) = n := by
  simp [toLeBytes, fromLeBytes]
  omega

theorem fromLeBytes_lt (bytes : Bytes) : fromLeBytes bytes < 256 ^ bytes.length := by
  induction bytes with
  | nil => simp [fromLeBytes]
  | cons b bytes ih =>
    have := b.toNat_lt
    rw [fromLeBytes, List.length_cons, Nat.pow_succ]
    omega

theorem toLeBytes_fromLeBytes {bytes : Bytes} (h : bytes.length = 4) :
    toLeBytes (fromLeBytes bytes) = bytes := by
  obtain ⟨a, b, c, d, rfl⟩ : ∃ a b c d, bytes = [a, b, c, d] := by
    match bytes, h with
    | [a, b, c, d], _ => exact ⟨a, b, c, d, rfl⟩
  have := a.toNat_lt
  have := b.toNat_lt
  have := c.toNat_lt
  have := d.toNat_lt
  simp only [toLeBytes, fromLeBytes, List.cons.injEq, and_true, ← UInt8.toNat_inj,
    UInt8.toNat_ofNat']
  omega

end Fuso

import Fuso.Async.Stream

/-!
# Reading with buffers of any sizes

A reader that is polled again and again, each time with a buffer of some size. `Yields` says that
what comes out is a given sequence of bytes, however the buffers are sized; a `Supply`, a kind of
poll that knows what it has left, yields just that (`Supply.yields`), and with answers enough all of
it (`Supply.completes`).
-/

namespace Fuso

/-- A poll with a fresh buffer of the size `cap`, by what it delivers. -/
def pollInto [AsyncRead R] (r : R) (cap : Nat) : R × Poll (Exit Bytes) :=
  match pollRead r (.new cap) with
  | (r, _, .pending) => (r, .pending)
  | (r, buf, .ready (.ok n)) => (r, .ready (.ret (.ok (buf.filled.take n))))
  | (r, _, .ready (.error e)) => (r, .ready (.ret (.error e)))

section
variable (poll : R → Nat → R × Poll (Exit Bytes))

/-- Polls with buffers of the sizes `caps` deliver `data`. -/
inductive Reads : R → List Nat → Bytes → R → Prop where
  | nil : Reads r [] [] r
  | pending : poll r cap = (r₁, .pending) → Reads r₁ caps data r' → Reads r (cap :: caps) data r'
  | ready : poll r cap = (r₁, .ready (.ret (.ok d))) → Reads r₁ caps data r' →
      Reads r (cap :: caps) (d ++ data) r'

/-- Whatever the sizes of the buffers, `total` comes out: nothing else, no poll fails, and none that
has room for a byte says that the end is there before it is. -/
structure Yields (r : R) (total : Bytes) : Prop where
  part : ∀ caps data r', Reads poll r caps data r' → data <+: total
  ready : ∀ caps data r' cap r'' e, Reads poll r caps data r' → poll r' cap = (r'', .ready e) →
    ∃ d, e = .ret (.ok d) ∧ (0 < cap → d = [] → data = total)

/-- Polls enough get all of `total`. -/
def Completes (r : R) (total : Bytes) : Prop :=
  ∃ n, ∀ caps, (∀ cap ∈ caps, 0 < cap) → n ≤ caps.length → ∃ r', Reads poll r caps total r'

/-- A kind of poll that knows which bytes are left. A reader is `live` while there are answers
enough, and `answers` counts them. -/
structure Supply where
  Left : R → Bytes → Prop
  live : R → Prop
  answers : R → Nat
  read : ∀ r b cap, Left r b → ∃ r',
    (poll r cap = (r', .pending) ∧ Left r' b ∧
      (live r → live r' ∧ (b ≠ [] → answers r' < answers r))) ∨
    ∃ d rest, poll r cap = (r', .ready (.ret (.ok d))) ∧ b = d ++ rest ∧
      (0 < cap → b ≠ [] → d ≠ []) ∧ Left r' rest ∧ (live r → live r' ∧ answers r' ≤ answers r)

namespace Supply
variable {poll} (X : Supply poll) {r r' : R} {b data : Bytes} {caps : List Nat}

theorem left_of_reads (H : Reads poll r caps data r') (h : X.Left r b) :
    ∃ rest, b = data ++ rest ∧ X.Left r' rest := by
  induction H generalizing b with
  | nil => exact ⟨b, rfl, h⟩
  | @pending r cap r₁ caps data r' hpoll _ ih =>
    obtain ⟨r₂, ⟨hpoll', hleft, -⟩ | ⟨d, rest, hpoll', -⟩⟩ := X.read r b cap h
    · rw [hpoll] at hpoll'
      obtain ⟨rfl, -⟩ := Prod.mk.inj hpoll'
      exact ih hleft
    · rw [hpoll] at hpoll'
      cases hpoll'
  | @ready r cap r₁ d caps data r' hpoll _ ih =>
    obtain ⟨r₂, ⟨hpoll', -⟩ | ⟨d', rest, hpoll', rfl, -, hleft, -⟩⟩ := X.read r b cap h
    · rw [hpoll] at hpoll'
      cases hpoll'
    · rw [hpoll] at hpoll'
      cases hpoll'
      obtain ⟨rest', rfl, hleft'⟩ := ih hleft
      exact ⟨rest', (List.append_assoc _ _ _).symm, hleft'⟩

theorem yields (h : X.Left r b) : Yields poll r b := by
  refine ⟨fun caps data r' H => ?_, fun caps data r' cap r'' e H hpoll => ?_⟩
  · obtain ⟨rest, rfl, -⟩ := X.left_of_reads H h
    exact List.prefix_append _ _
  · obtain ⟨rest, rfl, hleft⟩ := X.left_of_reads H h
    obtain ⟨r₂, ⟨hpoll', -⟩ | ⟨d, rest', hpoll', -, hne, -⟩⟩ := X.read r' rest cap hleft
    · rw [hpoll] at hpoll'
      cases hpoll'
    · rw [hpoll] at hpoll'
      cases hpoll'
      refine ⟨d, rfl, fun hcap hd => ?_⟩
      have hrest : rest = [] := by
        by_contra hrest
        exact hne hcap hrest hd
      rw [hrest, List.append_nil]

/-- When nothing is left nothing comes out. -/
theorem exists_reads_nil (h : X.Left r []) (caps : List Nat) : ∃ r', Reads poll r caps [] r' := by
  induction caps generalizing r with
  | nil => exact ⟨r, .nil⟩
  | cons cap caps ih =>
    obtain ⟨r', ⟨hpoll, hleft, -⟩ | ⟨d, rest, hpoll, hb, -, hleft, -⟩⟩ := X.read r [] cap h
    · obtain ⟨r'', H⟩ := ih hleft
      exact ⟨r'', .pending hpoll H⟩
    · obtain ⟨rfl, rfl⟩ := List.append_eq_nil_iff.1 hb.symm
      obtain ⟨r'', H⟩ := ih hleft
      exact ⟨r'', .ready hpoll H⟩

/-- A reader with answers enough delivers all it has left: a poll that delivers nothing uses an
answer up. -/
theorem completes (h : X.Left r b) (hlive : X.live r) : Completes poll r b := by
  refine ⟨X.answers r + b.length, fun caps => ?_⟩
  induction caps generalizing r b with
  | nil =>
    intro _ hle
    rw [List.length_nil] at hle
    obtain rfl : b = [] := List.length_eq_zero_iff.1 (by omega)
    exact ⟨r, .nil⟩
  | cons cap caps ih =>
    intro hcaps hle
    by_cases hb : b = []
    · exact hb ▸ X.exists_reads_nil (hb ▸ h) _
    have hcaps' : ∀ c ∈ caps, 0 < c := fun c hc => hcaps c (by simp [hc])
    rw [List.length_cons] at hle
    obtain ⟨r', ⟨hpoll, hleft, hans⟩ | ⟨d, rest, hpoll, rfl, hne, hleft, hans⟩⟩ := X.read r b cap h
    · obtain ⟨hlive', hlt⟩ := hans hlive
      have := hlt hb
      obtain ⟨r'', H⟩ := ih hleft hlive' hcaps' (by omega)
      exact ⟨r'', .pending hpoll H⟩
    · obtain ⟨hlive', hans'⟩ := hans hlive
      have hpos := List.length_pos_iff.2 (hne (hcaps cap (by simp)) hb)
      rw [List.length_append] at hle
      obtain ⟨r'', H⟩ := ih hleft hlive' hcaps' (by omega)
      exact ⟨r'', .ready hpoll H⟩

end Supply
end
end Fuso

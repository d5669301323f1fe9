import Mathlib.Logic.Function.Basic

/-!
# The session map

The sessions of a KCP endpoint under their conversation ids. A session whose update task has ended
stays as a dead one for 30 seconds.
-/

namespace Fuso.Kcp

/-- A dead session has the time, in seconds, since when it is dead. -/
inductive KLife (S : Type) where
  | dead (since : Nat) (session : S)
  | active (session : S)

def KLife.isActive {S : Type} : KLife S → Bool
  | active _ => true
  | dead .. => false

/-- The session changes. -/
def KLife.map {S : Type} (f : S → S) : KLife S → KLife S
  | dead since session => dead since (f session)
  | active session => active (f session)

/-- The session changes when it is active. -/
def KLife.mapActive {S : Type} (f : S → S) : KLife S → KLife S
  | dead since session => dead since session
  | active session => active (f session)

/-- A map from conversation ids. -/
abbrev Sessions (S : Type) := UInt32 → Option (KLife S)

namespace Sessions
variable {S : Type} (m : Sessions S) (conv : UInt32)

def insert (life : KLife S) : Sessions S := Function.update m conv (some life)

def modify (f : KLife S → KLife S) : Sessions S := Function.update m conv ((m conv).map f)

/-- The dead sessions go whose time is over. -/
def retain (now : Nat) : Sessions S := fun conv =>
  match m conv with
  | some (.dead since session) => if now - since < 30 then some (.dead since session) else none
  | life => life

/-- The callback of a session whose update task has ended. -/
def clean (forceClose : S → S) (now : Nat) : Sessions S :=
  match m conv with
  | none => m
  | some (.dead since session) => m.insert conv (.dead since session)
  | some (.active session) => m.insert conv (.dead now (forceClose session))

variable {m} {conv conv' : UInt32} {life : KLife S} {session : S}

@[simp] theorem insert_self : m.insert conv life conv = some life := Function.update_self ..

theorem insert_of_ne (h : conv' ≠ conv) : m.insert conv life conv' = m conv' :=
  Function.update_of_ne h ..

theorem retain_active (now : Nat) : m.retain now conv = some (.active session) ↔
    m conv = some (.active session) := by
  unfold retain
  split
  · split <;> simp_all
  · rfl

theorem retain_none (h : m conv = none) : m.retain now conv = none := by
  simp only [retain, h]

theorem clean_of_ne {forceClose : S → S} (h : conv' ≠ conv) :
    m.clean conv forceClose now conv' = m conv' := by
  rcases hm : m conv with _ | (⟨since, session⟩ | session) <;> simp only [clean, hm, insert_of_ne h]

theorem clean_of_none {forceClose : S → S} (h : m conv = none) :
    m.clean conv forceClose now = m := by
  simp only [clean, h]

theorem clean_active {forceClose : S → S} :
    m.clean conv forceClose now conv ≠ some (.active session) := by
  rcases hm : m conv with _ | (⟨since, session⟩ | session) <;> simp [clean, hm]

end Sessions
end Fuso.Kcp

import Fuso.Kcp.Kcp

/-!
# The output of KCP

`flush` and `update` write packets to the output, and stop at the first write that fails with what
is done until then. `KcpM` is a computation of that kind. `Keeps` says what one leaves as it was,
and `Returns` that only a write can make it fail.
-/

namespace Fuso.ThirdParty

/-- The output: how the writes to come end, and the packets that were written. When `results` run
out the writes succeed. -/
structure Output where
  results : List (KcpResult Unit)
  written : List Bytes

/-- No write to come fails. -/
def Output.Good (o : Output) : Prop := ∀ r ∈ o.results, r = .ok ()

def KcpM (α : Type) : Type := Kcp × Output → KcpResult α × Kcp × Output

namespace KcpM

instance : Monad KcpM where
  pure a s := (.ok a, s)
  bind m f s :=
    match m s with
    | (.ok a, s) => f a s
    | (.error e, s) => (.error e, s)

def get : KcpM Kcp := fun s => (.ok s.1, s)

def throw (e : KcpErr) : KcpM α := fun s => (.error e, s)

def modify (f : Kcp → Kcp) : KcpM Unit := fun s => (.ok (), f s.1, s.2)

/-- The result does not matter. -/
def ignore (m : KcpM α) : KcpM Unit := fun s => (.ok (), (m s).2)

/-- An `if` without an `else`. -/
def when (c : Prop) [Decidable c] (m : KcpM Unit) : KcpM Unit := if c then m else pure ()

/-- A `write_all` on the output, which takes a packet whole. -/
def write (data : Bytes) : KcpM Unit := fun s =>
  if data = [] then (.ok (), s)
  else match s.2.results with
  | [] => (.ok (), s.1, { s.2 with written := s.2.written ++ [data] })
  | .ok () :: results => (.ok (), s.1, ⟨results, s.2.written ++ [data]⟩)
  | .error e :: results => (.error e, s.1, { s.2 with results })

section
variable (s : Kcp × Output)

theorem get_bind (f : Kcp → KcpM α) : (get >>= f) s = f s.1 s := rfl

theorem modify_bind (g : Kcp → Kcp) (f : Unit → KcpM α) :
    (modify g >>= f) s = f () (g s.1, s.2) := rfl

theorem bind_ok {m : KcpM α} (f : α → KcpM β) (h : m s = (.ok a, s')) : (m >>= f) s = f a s' := by
  simp only [Bind.bind, h]

theorem when_apply [Decidable c] (m : KcpM Unit) : when c m s = if c then m s else (.ok (), s) := by
  unfold when
  split <;> rfl

theorem when_bind_pos [Decidable c] (m : KcpM Unit) (f : Unit → KcpM α) (h : c) :
    (when c m >>= f) s = (m >>= f) s := by
  rw [when, if_pos h]

theorem when_bind_neg [Decidable c] (m : KcpM Unit) (f : Unit → KcpM α) (h : ¬ c) :
    (when c m >>= f) s = f () s := by
  rw [when, if_neg h]
  rfl

end

/-! ### What a computation leaves as it was -/

/-- The computation keeps what `view` sees. -/
def Keeps (view : Kcp → β) (m : KcpM α) : Prop := ∀ s, view (m s).2.1 = view s.1

section
variable {view : Kcp → γ}

theorem Keeps.pure (a : α) : Keeps view (pure a : KcpM α) := fun _ => rfl

theorem Keeps.get : Keeps view get := fun _ => rfl

theorem Keeps.throw (e : KcpErr) : Keeps view (throw e : KcpM α) := fun _ => rfl

theorem Keeps.modify (h : ∀ k, view (f k) = view k) : Keeps view (modify f) := fun s => h s.1

theorem Keeps.map (f : γ → δ) (h : Keeps view m) : Keeps (fun k => f (view k)) m :=
  fun s => congrArg f (h s)

theorem Keeps.ignore (h : Keeps view m) : Keeps view (ignore m) := h

theorem Keeps.write (data : Bytes) : Keeps view (write data) := by
  intro s
  unfold KcpM.write
  split
  · rfl
  · split <;> rfl

theorem Keeps.bind {m : KcpM α} {f : α → KcpM β} (hm : Keeps view m) (hf : ∀ a, Keeps view (f a)) :
    Keeps view (m >>= f) := by
  intro s
  have hfirst := hm s
  simp only [Bind.bind]
  cases h : m s with
  | mk r s' =>
    rw [h] at hfirst
    cases r with
    | error e => exact hfirst
    | ok a => exact (hf a s').trans hfirst

theorem Keeps.when [Decidable c] (hm : Keeps view m) : Keeps view (when c m) := by
  unfold KcpM.when
  split
  · exact hm
  · exact .pure ()

end

/-! ### How a computation moves the control block -/

/-- The control block before the computation and the one behind it are related. -/
def Moves (R : Kcp → Kcp → Prop) (m : KcpM α) : Prop := ∀ s, R s.1 (m s).2.1

section
variable {R : Kcp → Kcp → Prop} {view : Kcp → γ}

theorem Moves.of_keeps {m : KcpM α} (hR : ∀ k k', view k' = view k → R k k') (h : Keeps view m) :
    Moves R m := fun s => hR _ _ (h s)

theorem Moves.modify (h : ∀ k, R k (f k)) : Moves R (modify f) := fun s => h s.1

theorem Moves.bind {m : KcpM α} {f : α → KcpM β} (trans : ∀ a b c, R a b → R b c → R a c)
    (hm : Moves R m) (hf : ∀ a, Moves R (f a)) : Moves R (m >>= f) := by
  intro s
  have hfirst := hm s
  simp only [Bind.bind]
  cases h : m s with
  | mk r s' =>
    rw [h] at hfirst
    cases r with
    | error e => exact hfirst
    | ok a => exact trans _ _ _ hfirst (hf a s')

theorem Moves.when [Decidable c] {m : KcpM Unit} (refl : ∀ k, R k k) (hm : Moves R m) :
    Moves R (when c m) := by
  unfold KcpM.when
  split
  · exact hm
  · exact fun s => refl s.1

end

/-! ### What a computation ensures -/

/-- A write puts the packet out, or fails and puts out nothing. -/
theorem write_cases (data : Bytes) (s : Kcp × Output) :
    write data s = (.ok (), s) ∨
      (∃ o : Output, write data s = (.ok (), s.1, o) ∧ o.written = s.2.written ++ [data]) ∨
      ∃ (e : KcpErr) (o : Output), write data s = (.error e, s.1, o) ∧
        o.written = s.2.written := by
  unfold KcpM.write
  split
  · exact .inl rfl
  · split
    · exact .inr (.inl ⟨_, rfl, rfl⟩)
    · exact .inr (.inl ⟨_, rfl, rfl⟩)
    · exact .inr (.inr ⟨_, _, rfl, rfl⟩)

/-- From states with `P` the computation comes to those with `Q`, or fails and comes to those with
`R`. -/
def Ensures (P : Kcp × Output → Prop) (m : KcpM α) (Q : α → Kcp × Output → Prop)
    (R : Kcp × Output → Prop) : Prop := ∀ s, P s →
  match m s with
  | (.ok a, s') => Q a s'
  | (.error _, s') => R s'

section
variable {P P' R : Kcp × Output → Prop} {Q : α → Kcp × Output → Prop}

theorem Ensures.pure (a : α) (h : ∀ s, P s → Q a s) : Ensures P (pure a) Q R := h

theorem Ensures.get {Q : Kcp → Kcp × Output → Prop} (h : ∀ s, P s → Q s.1 s) :
    Ensures P get Q R := h

theorem Ensures.throw (e : KcpErr) (h : ∀ s, P s → R s) : Ensures P (throw e : KcpM α) Q R := h

theorem Ensures.modify {f : Kcp → Kcp} {Q : Unit → Kcp × Output → Prop}
    (h : ∀ s, P s → Q () (f s.1, s.2)) : Ensures P (modify f) Q R := h

theorem Ensures.bind {m : KcpM α} {f : α → KcpM β} {Q' : β → Kcp × Output → Prop}
    (hm : Ensures P m Q R) (hf : ∀ a, Ensures (Q a) (f a) Q' R) : Ensures P (m >>= f) Q' R := by
  intro s hs
  have hfirst := hm s hs
  simp only [Bind.bind]
  cases h : m s with
  | mk r s' =>
    rw [h] at hfirst
    cases r with
    | error e => exact hfirst
    | ok a => exact hf a s' hfirst

theorem Ensures.when [Decidable c] {m : KcpM Unit} {Q : Unit → Kcp × Output → Prop}
    (hm : c → Ensures P m Q R) (hnot : ¬ c → ∀ s, P s → Q () s) : Ensures P (when c m) Q R := by
  unfold KcpM.when
  split
  · next hc => exact hm hc
  · next hc => exact hnot hc

theorem Ensures.mono {R' : Kcp × Output → Prop} {Q' : α → Kcp × Output → Prop} {m : KcpM α}
    (h : Ensures P m Q R) (hP : ∀ s, P' s → P s) (hQ : ∀ a s, Q a s → Q' a s)
    (hR : ∀ s, R s → R' s) : Ensures P' m Q' R' := by
  intro s hs
  have hrun := h s (hP s hs)
  cases hm : m s with
  | mk r s' =>
    rw [hm] at hrun
    cases r with
    | error e => exact hR s' hrun
    | ok a => exact hQ a s' hrun

/-- The last state, when it does not matter how the computation ends. -/
theorem Ensures.last {m : KcpM α} (h : Ensures P m (fun _ => R) R) (hs : P s) : R (m s).2 := by
  have hrun := h s hs
  cases hm : m s with
  | mk r s' =>
    rw [hm] at hrun
    cases r <;> exact hrun

theorem Ensures.ignore {m : KcpM α} (h : Ensures P m (fun _ => R) R) :
    Ensures P (ignore m) (fun _ => R) R := fun _ hs => h.last hs

/-- What is kept stays as it was, however the computation ends. -/
theorem Keeps.ensures {view : Kcp → γ} {m : KcpM α} (h : Keeps view m) :
    Ensures (view ·.1 = w) m (fun _ s => view s.1 = w) (view ·.1 = w) := by
  intro s hs
  have hlast := h s
  cases hm : m s with
  | mk r s' =>
    rw [hm] at hlast
    cases r <;> exact hlast.trans hs

end

/-! ### Computations on an output that takes everything -/

/-- When no write fails the computation returns. -/
def Returns (m : KcpM α) : Prop :=
  ∀ s : Kcp × Output, s.2.Good → (∃ a, (m s).1 = .ok a) ∧ (m s).2.2.Good

theorem Returns.pure (a : α) : Returns (pure a : KcpM α) := fun _ h => ⟨⟨a, rfl⟩, h⟩

theorem Returns.get : Returns get := fun s h => ⟨⟨s.1, rfl⟩, h⟩

theorem Returns.modify (f : Kcp → Kcp) : Returns (modify f) := fun _ h => ⟨⟨(), rfl⟩, h⟩

theorem write_good (data : Bytes) {s : Kcp × Output} (h : s.2.Good) :
    ∃ o : Output, o.Good ∧ write data s = (.ok (), s.1, o) := by
  unfold KcpM.write
  split
  · exact ⟨s.2, h, rfl⟩
  · split
    · next hresults => exact ⟨{ s.2 with written := s.2.written ++ [data] }, h, rfl⟩
    · next results hresults =>
      exact ⟨_, fun r hr => h r (by rw [hresults]; exact List.mem_cons_of_mem _ hr), rfl⟩
    · next e results hresults =>
      have herror := h (.error e) (by rw [hresults]; exact List.mem_cons_self)
      cases herror

theorem Returns.write (data : Bytes) : Returns (write data) := by
  intro s h
  obtain ⟨o, ho, hwrite⟩ := write_good data h
  rw [hwrite]
  exact ⟨⟨(), rfl⟩, ho⟩

theorem Returns.bind {m : KcpM α} {f : α → KcpM β} (hm : Returns m) (hf : ∀ a, Returns (f a)) :
    Returns (m >>= f) := by
  intro s h
  obtain ⟨⟨a, ha⟩, hgood⟩ := hm s h
  simp only [Bind.bind]
  cases hs : m s with
  | mk r s' =>
    rw [hs] at ha hgood
    cases ha
    exact hf a s' hgood

theorem Returns.when [Decidable c] (hm : c → Returns m) : Returns (when c m) := by
  unfold KcpM.when
  split
  · next hc => exact hm hc
  · exact .pure ()

end KcpM
end Fuso.ThirdParty

import Fuso.Socks.Runs

/-!
# Fragmentation

What a handshake without authentication makes of two ways of cutting the same bytes. A run whose
reads split no message does what `parse` says; a run that splits one ends there. Two runs on the
same bytes therefore agree exactly when they split the same message first, or none
(`fragmentation_iff`).
-/

namespace Fuso.Socks5
open Turn

theorem firstSplit_lt {messages cuts : List Nat} (h : firstSplit messages cuts = some k) :
    k < messages.length := by
  induction messages generalizing cuts k with
  | nil => cases h
  | cons len messages ih =>
    cases cuts with
    | nil => cases h
    | cons n cuts =>
      simp only [firstSplit] at h
      split at h
      · cases h
        simp
      · obtain ⟨j, hj, rfl⟩ := Option.map_eq_some_iff.1 h
        simpa using ih hj

theorem sum_take_le (messages : List Nat) (k : Nat) : (messages.take k).sum ≤ messages.sum := by
  conv_rhs => rw [← List.take_append_drop k messages, List.sum_append]
  exact Nat.le_add_right _ _

/-- Behind more messages there are more bytes. -/
theorem sum_take_lt {messages : List Nat} (hpos : ∀ len ∈ messages, 0 < len) (hjk : j < k)
    (hk : k ≤ messages.length) : (messages.take j).sum < (messages.take k).sum := by
  have hj : j < messages.length := by omega
  have hlen : 0 < messages[j] := hpos _ (List.getElem_mem hj)
  have hsucc : (messages.take (j + 1)).sum ≤ (messages.take k).sum := by
    rw [← Nat.min_eq_left (show j + 1 ≤ k from hjk), ← List.take_take]
    exact sum_take_le _ _
  rw [List.take_add_one, List.getElem?_eq_getElem hj, List.sum_append] at hsucc
  simp at hsucc
  omega

/-- The number of bytes of the client that a handshake has taken. -/
def consumed (d : Duplex) (t : Pc × Socks5 Duplex) : Nat :=
  d.incoming.length - t.2.stream.incoming.length

/-- Outcome and rest say where the first split is. -/
theorem Conforms.firstSplit_eq (hf : Fits p rx) (h₁ : Conforms p rx cuts₁ out rest)
    (h₂ : Conforms p rx cuts₂ out rest) :
    firstSplit p.messages cuts₁ = firstSplit p.messages cuts₂ := by
  have whole : ∀ {k cuts}, firstSplit p.messages cuts = some k → p.out = reset →
      p.rest ≠ rx.drop (p.messages.take (k + 1)).sum := by
    intro k cuts hk hout hrest
    have hne : p.messages ≠ [] := fun h => by simp [h, firstSplit] at hk
    have := sum_take_le p.messages (k + 1)
    have := hf.sum_lt hout hne
    rw [hf.rest_nil hout, eq_comm, List.drop_eq_nil_iff] at hrest
    omega
  unfold Conforms at h₁ h₂
  cases hs₁ : firstSplit p.messages cuts₁ with
  | none =>
    cases hs₂ : firstSplit p.messages cuts₂ with
    | none => rfl
    | some k =>
      simp only [hs₁, hs₂] at h₁ h₂
      exact absurd (h₁.2.symm.trans h₂.2) (whole hs₂ (h₁.1.symm.trans h₂.1))
  | some j =>
    cases hs₂ : firstSplit p.messages cuts₂ with
    | none =>
      simp only [hs₁, hs₂] at h₁ h₂
      exact absurd (h₂.2.symm.trans h₁.2) (whole hs₁ (h₂.1.symm.trans h₁.1))
    | some k =>
      simp only [hs₁, hs₂] at h₁ h₂
      have hlen := congrArg List.length (h₁.2.symm.trans h₂.2)
      have hj := sum_take_le p.messages (j + 1)
      have hk := sum_take_le p.messages (k + 1)
      have hsum := hf.sum_le
      simp only [List.length_drop] at hlen
      rcases Nat.lt_trichotomy j k with hlt | rfl | hlt
      · have := sum_take_lt hf.pos (Nat.add_lt_add_right hlt 1) (firstSplit_lt hs₂)
        omega
      · rfl
      · have := sum_take_lt hf.pos (Nat.add_lt_add_right hlt 1) (firstSplit_lt hs₁)
        omega

/-- Two handshakes on the same bytes have the same outcome and take the same number of bytes exactly
when they split the same message first, or none. -/
theorem fragmentation_iff {d₁ d₂ : Duplex} {t₁ t₂ : Pc × Socks5 Duplex}
    (hin : d₁.incoming = d₂.incoming)
    (H₁ : Drives (step oc) (.select, new .newSkip d₁) t₁ r₁)
    (H₂ : Drives (step oc) (.select, new .newSkip d₂) t₂ r₂) :
    (r₁ = r₂ ∧ consumed d₁ t₁ = consumed d₂ t₂) ↔
      firstSplit (parse oc d₁.incoming).messages (sizes d₁.reads) =
        firstSplit (parse oc d₁.incoming).messages (sizes d₂.reads) := by
  have h₁ := conforms_parse H₁
  have h₂ := conforms_parse H₂
  have hf : Fits (parse oc d₁.incoming) d₁.incoming := fits_parse
  rw [← hin] at h₂
  constructor
  · rintro ⟨rfl, hcons⟩
    have hs₁ := h₁.suffix hf
    have hs₂ := h₂.suffix hf
    have hrest : t₁.2.stream.incoming = t₂.2.stream.incoming := by
      have := hs₁.length_le
      have := hs₂.length_le
      simp only [consumed, ← hin] at hcons
      exact (List.suffix_of_suffix_length_le hs₁ hs₂ (by omega)).eq_of_length (by omega)
    exact h₁.firstSplit_eq hf (hrest ▸ h₂)
  · intro hsplit
    unfold Conforms at h₁ h₂
    rw [← hsplit] at h₂
    split at h₁
    · next hs =>
      rw [hs] at h₂
      exact ⟨h₁.1.trans h₂.1.symm, by rw [consumed, consumed, hin, h₁.2, h₂.2]⟩
    · next hs =>
      rw [hs] at h₂
      exact ⟨h₁.1.trans h₂.1.symm, by rw [consumed, consumed, hin, h₁.2, h₂.2]⟩

/-- A client that asks for 1.2.3.4:80, with its reads answered in the given sizes. -/
def asking (reads : List Nat) : Duplex :=
  { incoming := [0x05, 0x01, 0x00, 0x05, 0x01, 0x00, 0x01, 1, 2, 3, 4, 0, 80]
    reads := reads.map (.upTo <| · - 1), writes := .replicate 2 (.upTo 9), closes := [],
    sent := [] }

theorem drives_asking_whole (oc : Bool) :
    ∃ t, Drives (step oc) (.select, new .newSkip (asking [2, 1, 4, 6])) t
    (.ret (.ok (.tcp (.socket (.v4 ⟨[1, 2, 3, 4], rfl⟩ 80))))) := by
  cases oc <;> exact ⟨_, drives_of_run (n := 20) rfl⟩

theorem drives_asking_split (oc : Bool) :
    ∃ t, Drives (step oc) (.select, new .newSkip (asking [1, 1])) t
    reset := by
  cases oc <;> exact ⟨_, drives_of_run (n := 10) rfl⟩

theorem asking_incoming (reads : List Nat) : (asking reads).incoming = (asking []).incoming := rfl

/-- The first split of the two runs is not the same. -/
theorem fragmentation_iff_asking :
    firstSplit (parse true (asking []).incoming).messages [2, 1, 4, 6] ≠
      firstSplit (parse true (asking []).incoming).messages [1, 1] := by
  obtain ⟨t₁, H₁⟩ := drives_asking_whole true
  obtain ⟨t₂, H₂⟩ := drives_asking_split true
  have hin := (asking_incoming [2, 1, 4, 6]).trans (asking_incoming [1, 1]).symm
  intro h
  exact nomatch ((fragmentation_iff hin H₁ H₂).2 h).1

/-- The same bytes, cut in two ways, are a request for a socket and a `ConnectionReset`. -/
theorem not_fragmentation_independent :
    ¬∀ (oc : Bool) (d₁ d₂ : Duplex) (t₁ t₂ : Pc × Socks5 Duplex) (r₁ r₂ : Exit Socket),
      d₁.incoming = d₂.incoming →
      Drives (step oc) (.select, new .newSkip d₁) t₁ r₁ →
      Drives (step oc) (.select, new .newSkip d₂) t₂ r₂ →
      r₁ = r₂ ∧ consumed d₁ t₁ = consumed d₂ t₂ := by
  obtain ⟨t₁, H₁⟩ := drives_asking_whole true
  obtain ⟨t₂, H₂⟩ := drives_asking_split true
  have hin := (asking_incoming [2, 1, 4, 6]).trans (asking_incoming [1, 1]).symm
  intro h
  exact nomatch (h true _ _ t₁ t₂ _ _ hin H₁ H₂).1

end Fuso.Socks5

import Fuso.Async.Truncate

/-!
# Streams that may end inside of a frame

What has arrived of a stream of frames may end anywhere. `Unframer.Rest` says what a reader of the
frames delivers of it: the messages of the frames that are complete (`Truncatable.poll_rest`). While
the stream has answers for its bytes, so it does after finitely many polls.
-/

namespace Fuso
open Turn

namespace Unframer
variable {σ : Type} {step : Nat → σ → Turn σ (Exit Bytes)} (X : Unframer step)

/-- `b` is left of the frames that are complete, with or without the beginning of another one behind
them. -/
def Rest (s : σ) (b : Bytes) : Prop := X.Left s b ∨ X.Cut s b

/-- What a turn leaves that started with `b` left, at the stream `d`, and delivered `data`. -/
structure Spends (d : Duplex) (b data : Bytes) (s : σ) : Prop where
  left : ∃ rest, b = data ++ rest ∧ X.Rest s rest
  live : d.Live → (X.stream s).Live ∧ (X.stream s).reads.length ≤ d.reads.length

/-- What a turn comes to with a buffer of the size `cap`: it goes round, or it waits and has used an
answer up if there is a byte left, or it delivers bytes from the front, or none is left. -/
inductive Taking (s : σ) (b : Bytes) (cap : Nat) : Turn σ (Exit Bytes) → Prop where
  | again : X.Spends (X.stream s) b [] s' → X.rank s' < X.rank s → Taking s b cap (.again s')
  | waits : X.Spends (X.stream s) b [] s' →
      ((X.stream s).Live → b ≠ [] → (X.stream s').reads.length < (X.stream s).reads.length) →
      Taking s b cap (.pending s')
  | data : data ≠ [] → X.Spends (X.stream s) b data s' →
      Taking s b cap (.ready s' (.ret (.ok data)))
  | ended : b = [] → Taking s b cap (.ready s' (.ret (.ok [])))

variable {X} {s : σ} {b : Bytes} {cap n : Nat}

/-- A turn that leaves the stream alone and delivers what fits of `w`. -/
theorem Taking.of_take {s' : σ} {w rest : Bytes} (hw : w ≠ []) (hcap : 0 < cap)
    (h : X.Rest s' (w.drop cap ++ rest)) (hstream : X.stream s' = X.stream s) :
    X.Taking s (w ++ rest) cap (.ready s' (.ret (.ok (w.take cap)))) := by
  refine .data (fun hnil => ?_) ⟨⟨_, ?_, h⟩, fun hlive => ?_⟩
  · exact hw ((List.take_eq_nil_iff.1 hnil).resolve_left (Nat.ne_of_gt hcap))
  · rw [← List.append_assoc, List.take_append_drop]
  · exact hstream.symm ▸ ⟨hlive, Nat.le_refl _⟩

theorem Leaves.spends {d : Duplex} {data : Bytes} (h : X.Leaves d b data s) :
    X.Spends d b data s := by
  obtain ⟨⟨rest, rfl, hleft⟩, hlive⟩ := h
  exact ⟨⟨rest, rfl, .inl hleft⟩, hlive⟩

theorem Spends.trans {d d' : Duplex} {data : Bytes} (h : X.Spends d' b data s)
    (hlive : d.Live → d'.Live ∧ d'.reads.length ≤ d.reads.length) : X.Spends d b data s :=
  ⟨h.left, Duplex.live_trans hlive h.live⟩

theorem Left.taking (h : X.Left s b) (hcap : 0 < cap) : X.Taking s b cap (step cap s) := by
  rcases h.turn cap with ⟨s', hs, hleaves, hrank⟩ | ⟨s', hs, hleaves, huses⟩ |
    ⟨s', data, hs, hleaves, hne⟩
  · rw [hs]
    exact .again hleaves.spends hrank
  · rw [hs]
    exact .waits hleaves.spends huses
  · rw [hs]
    by_cases hb : b = []
    · obtain ⟨rest, hrest, -⟩ := hleaves.left
      obtain ⟨rfl, -⟩ := List.append_eq_nil_iff.1 (hrest.symm.trans hb)
      exact .ended hb
    · exact .data (hne hcap hb) hleaves.spends

theorem Cut.taking (hX : X.Truncatable) (h : X.Cut s b) (hcap : 0 < cap) :
    X.Taking s b cap (step cap s) := by
  obtain ⟨cache, got, frames, ms, f, m, more, hholds, hwire, hmore, hlt, rfl⟩ := h
  have hturn := hX.turn hholds hwire cap
  generalize hall : frames ++ [f] = all at hturn
  generalize hmsgs : ms ++ [m] = msgs at hturn
  generalize step cap s = turn at hturn ⊢
  cases hturn with
  | @cached _ s' _ _ _ hcache hstream hholds' =>
    subst hall hmsgs
    refine .of_take hcache hcap (.inr ?_) hstream
    exact ⟨_, got, frames, ms, f, m, more, hholds', hstream ▸ hwire, hmore, hlt, rfl⟩
  | @silent s' _ _ _ hstream hholds' hrank =>
    subst hall hmsgs
    have hcut : X.Cut s' ([] ++ ms.flatten) :=
      ⟨[], got, frames, ms, f, m, more, hholds', hstream ▸ hwire, hmore, hlt, rfl⟩
    exact .again ⟨⟨_, rfl, .inr hcut⟩, fun hlive => hstream.symm ▸ ⟨hlive, Nat.le_refl _⟩⟩ hrank
  | @opened m₀ s' frames₀ ms₀ f₀ hm hstream hholds' =>
    obtain ⟨ms', rfl, hcut⟩ := Cut.of_opened hholds' hall hmsgs (hstream.symm ▸ hwire) hmore hlt
    exact .of_take hm hcap (.inr hcut) hstream
  | @waits s' _ _ _ hwaits _ hholds' =>
    subst hall hmsgs
    have hcut : X.Cut s' ([] ++ ms.flatten) :=
      ⟨[], got, frames, ms, f, m, more, hholds', hwaits.incoming ▸ hwire, hmore, hlt, rfl⟩
    refine .waits ⟨⟨_, rfl, .inr hcut⟩, hwaits.live⟩ fun hlive hb =>
      hwaits.uses hlive fun hend => hb ?_
    rw [hend, List.nil_append] at hwire
    rw [hX.eq_nil hholds hwire hlt]
    rfl
  | @filled data s' _ _ _ hgives hdata hholds' hrank =>
    subst hall hmsgs
    have hcut : X.Cut s' ([] ++ ms.flatten) := by
      refine ⟨[], got ++ data, frames, ms, f, m, more, hholds', ?_, hmore, hlt, rfl⟩
      rw [← hwire, hgives.incoming]
      simp only [List.append_assoc]
    exact .again ⟨⟨_, rfl, .inr hcut⟩, hgives.live⟩ hrank
  | @ended s' _ _ _ hgives _ _ =>
    subst hall hmsgs
    rw [hgives.ended rfl] at hwire
    obtain rfl := hX.eq_nil hholds hwire hlt
    exact .ended rfl

theorem Truncatable.taking (hX : X.Truncatable) (h : X.Rest s b) (hcap : 0 < cap) :
    X.Taking s b cap (step cap s) :=
  h.elim (·.taking hcap) (·.taking hX hcap)

/-- A poll with room for a byte waits, or delivers bytes from the front, or none is left. -/
theorem Truncatable.poll_rest (hX : X.Truncatable) (h : X.Rest s b) (hcap : 0 < cap)
    (hn : X.rank s < n) :
    (∃ s', poll (step cap) n s = .pending s' ∧ X.Spends (X.stream s) b [] s' ∧
      ((X.stream s).Live → b ≠ [] → (X.stream s').reads.length < (X.stream s).reads.length)) ∨
    ∃ s' data, poll (step cap) n s = .ready s' (.ret (.ok data)) ∧
      (data ≠ [] ∧ X.Spends (X.stream s) b data s' ∨ data = [] ∧ b = []) := by
  have hpoll := poll_post (step cap) (s := s) (n := n)
    (I := fun s' => X.Spends (X.stream s) b [] s')
    (P := fun s' => X.Spends (X.stream s) b [] s' ∧ ((X.stream s).Live → b ≠ [] →
        (X.stream s').reads.length < (X.stream s).reads.length))
    (Q := fun s' r => ∃ data, r = .ret (.ok data) ∧
      (data ≠ [] ∧ X.Spends (X.stream s) b data s' ∨ data = [] ∧ b = []))
    X.rank ?_ ⟨⟨b, rfl, h⟩, fun hlive => ⟨hlive, Nat.le_refl _⟩⟩ hn
  · rcases hpoll with ⟨s', hs, hP⟩ | ⟨s', r, hs, data, rfl, hQ⟩
    · exact .inl ⟨s', hs, hP⟩
    · exact .inr ⟨s', data, hs, hQ⟩
  · clear hn h
    intro u hu
    obtain ⟨⟨b, rfl, hrest⟩, hlive⟩ := hu
    have htaking := hX.taking hrest hcap
    generalize step cap u = turn at htaking
    cases htaking with
    | again hspends hrank => exact .inl ⟨_, rfl, hspends.trans hlive, hrank⟩
    | waits hspends huses =>
      refine .inr (.inl ⟨_, rfl, hspends.trans hlive, fun hl hb => ?_⟩)
      obtain ⟨hl', hle⟩ := hlive hl
      exact Nat.lt_of_lt_of_le (huses hl' hb) hle
    | data hne hspends => exact .inr (.inr ⟨_, _, rfl, _, rfl, .inl ⟨hne, hspends.trans hlive⟩⟩)
    | ended hb => exact .inr (.inr ⟨_, _, rfl, [], rfl, .inr ⟨rfl, hb⟩⟩)

end Unframer
end Fuso

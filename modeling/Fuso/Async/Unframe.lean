import Fuso.Async.Reader
import Fuso.Async.Source
import Fuso.Theory.Turn

/-!
# Readers that take a stream of frames apart

A reader that reads one frame after the other from a stream, opens each to a message and delivers
the messages, what does not fit into the buffer with the next poll. `Unframer` says what every turn
of the loop of such a reader does (`Unframing`); from that alone a poll delivers the messages one
behind the other, wherever the stream is cut and whatever the sizes of the buffers
(`Unframer.poll_cases`).
-/

namespace Fuso
open Turn

namespace Duplex

/-- A read that is not ready: the bytes stay, and an answer is used up while there are any. -/
structure Waits (d d' : Duplex) : Prop where
  incoming : d'.incoming = d.incoming
  live : d.Live → d'.Live ∧ d'.reads.length ≤ d.reads.length
  uses : d.Live → d.incoming ≠ [] → d'.reads.length < d.reads.length

/-- A read of `data`. -/
structure Gives (d : Duplex) (data : Bytes) (d' : Duplex) : Prop where
  incoming : d.incoming = data ++ d'.incoming
  ended : data = [] → d.incoming = []
  live : d.Live → d'.Live ∧ d'.reads.length ≤ d.reads.length

theorem live_trans {d d' d'' : Duplex}
    (h : d.Live → d'.Live ∧ d'.reads.length ≤ d.reads.length)
    (h' : d'.Live → d''.Live ∧ d''.reads.length ≤ d'.reads.length) (hlive : d.Live) :
    d''.Live ∧ d''.reads.length ≤ d.reads.length := by
  obtain ⟨hlive', hle⟩ := h hlive
  exact ⟨(h' hlive').1, Nat.le_trans (h' hlive').2 hle⟩

/-- A read into a fresh buffer with room. -/
theorem pollRead_room (d : Duplex) (cap : Nat) (hcap : 0 < cap) : ∃ d' buf,
    (AsyncRead.pollRead d (.new cap) = (d', buf, .pending) ∧ buf.filled = [] ∧ d.Waits d') ∨
    (AsyncRead.pollRead d (.new cap) = (d', buf, .ready (.ok buf.filled.length)) ∧
      buf.filled.length ≤ cap ∧ d.Gives buf.filled d') := by
  have hb : (ReadBuf.new cap).remaining ≠ 0 := Nat.ne_of_gt hcap
  cases hr : d.reads with
  | nil =>
    refine ⟨d, .new cap, .inl ⟨pollRead_nil hr hb, rfl, rfl, fun hlive => ⟨hlive, Nat.le_refl _⟩,
      fun hlive hne => ?_⟩⟩
    exact absurd (by simpa [Live, hr, sizes] using hlive) hne
  | cons a reads =>
    cases a with
    | pending =>
      refine ⟨{ d with reads }, .new cap, .inl ⟨pollRead_pending hr hb, rfl, rfl, fun hlive => ?_,
        fun _ _ => by simp [hr]⟩⟩
      simpa [Live, hr, sizes] using hlive
    | upTo n =>
      obtain ⟨buf, hfill, hread⟩ := pollRead_upTo hr (Nat.ne_of_gt hcap)
      have hlen : (d.delivered n cap).length = min (min (n + 1) cap) d.incoming.length :=
        length_delivered
      refine ⟨d.behind reads (d.delivered n cap), buf, .inr ?_⟩
      rw [hread, hfill]
      refine ⟨rfl, by omega, delivered_append.symm, fun h0 => ?_, fun hlive => ?_⟩
      · rw [h0, List.length_nil] at hlen
        exact List.length_eq_zero_iff.1 (by omega)
      · simp only [Live, behind, hr, sizes, List.length_cons, List.length_drop] at *
        omega

end Duplex

section
variable {σ : Type}

/-- A turn of a reader in state `s` that polls with a buffer of size `cap`, holds `cache` for the
reader above and the beginning `got` of a frame, and is to read `frames`, which open to `ms`.
`Holds` is what the reader knows of these. -/
inductive Unframing (stream : σ → Duplex) (rank : σ → Nat)
    (Holds : σ → Bytes → Bytes → List Bytes → List Bytes → Prop) (cap : Nat) (s : σ) :
    Bytes → Bytes → List Bytes → List Bytes → Turn σ (Exit Bytes) → Prop where
  /-- What is held back comes first. -/
  | cached : cache ≠ [] → stream s' = stream s → Holds s' (cache.drop cap) got frames ms →
      Unframing stream rank Holds cap s cache got frames ms
        (.ready s' (.ret (.ok (cache.take cap))))
  | silent : stream s' = stream s → Holds s' [] got frames ms → rank s' < rank s →
      Unframing stream rank Holds cap s [] got frames ms (.again s')
  /-- A frame that is complete is opened. -/
  | opened : m ≠ [] → stream s' = stream s → Holds s' (m.drop cap) [] frames ms →
      Unframing stream rank Holds cap s [] f (f :: frames) (m :: ms)
        (.ready s' (.ret (.ok (m.take cap))))
  | waits : (stream s).Waits (stream s') → (got = frames.flatten → frames = []) →
      Holds s' [] got frames ms → Unframing stream rank Holds cap s [] got frames ms (.pending s')
  | filled : (stream s).Gives data (stream s') → data ≠ [] → Holds s' [] (got ++ data) frames ms →
      rank s' < rank s → Unframing stream rank Holds cap s [] got frames ms (.again s')
  | ended : (stream s).Gives [] (stream s') → (got = frames.flatten → frames = []) →
      (got = [] → Holds s' [] [] [] []) →
      Unframing stream rank Holds cap s [] got frames ms (.ready s' (.ret (.ok [])))

/-- A turn that goes on as from another state. -/
theorem Unframing.from {stream : σ → Duplex} {rank : σ → Nat}
    {Holds : σ → Bytes → Bytes → List Bytes → List Bytes → Prop}
    (h : Unframing stream rank Holds cap s cache got frames ms turn) (hs : stream s = stream s₀)
    (hr : rank s ≤ rank s₀) : Unframing stream rank Holds cap s₀ cache got frames ms turn := by
  cases h with
  | cached hne hstream h => exact .cached hne (hstream.trans hs) h
  | silent hstream h hlt => exact .silent (hstream.trans hs) h (Nat.lt_of_lt_of_le hlt hr)
  | opened hne hstream h => exact .opened hne (hstream.trans hs) h
  | waits hwaits hopen h => exact .waits (hs ▸ hwaits) hopen h
  | filled hgives hne h hlt => exact .filled (hs ▸ hgives) hne h (Nat.lt_of_lt_of_le hlt hr)
  | ended hgives hopen h => exact .ended (hs ▸ hgives) hopen h

/-- A reader of frames, by the turns of its loop. -/
structure Unframer (step : Nat → σ → Turn σ (Exit Bytes)) where
  stream : σ → Duplex
  rank : σ → Nat
  Holds : σ → Bytes → Bytes → List Bytes → List Bytes → Prop
  length_eq : Holds s cache got frames ms → frames.length = ms.length
  turn : Holds s cache got frames ms → got ++ (stream s).incoming = frames.flatten → ∀ cap,
    Unframing stream rank Holds cap s cache got frames ms (step cap s)

namespace Unframer
variable {step : Nat → σ → Turn σ (Exit Bytes)} (X : Unframer step)

/-- `b` is left: what is held back, and what the frames on the stream open to. -/
def Left (s : σ) (b : Bytes) : Prop :=
  ∃ cache got frames ms, X.Holds s cache got frames ms ∧
    got ++ (X.stream s).incoming = frames.flatten ∧ b = cache ++ ms.flatten

/-- What a poll leaves that started with `b` left, at the stream `d`, and delivered `data`. -/
structure Leaves (d : Duplex) (b data : Bytes) (s : σ) : Prop where
  left : ∃ rest, b = data ++ rest ∧ X.Left s rest
  live : d.Live → (X.stream s).Live ∧ (X.stream s).reads.length ≤ d.reads.length

variable {X} {s : σ} {b : Bytes} {cap n : Nat}

/-- Only at the end of the stream no frame is left. -/
theorem nil_of_ended (h : X.Holds s cache got frames ms)
    (hwire : got ++ (X.stream s).incoming = frames.flatten)
    (hopen : got = frames.flatten → frames = []) (hend : (X.stream s).incoming = []) :
    got = [] ∧ frames = [] ∧ ms = [] := by
  rw [hend, List.append_nil] at hwire
  obtain rfl := hopen hwire
  exact ⟨hwire, rfl, List.length_eq_zero_iff.1 (X.length_eq h).symm⟩

theorem Leaves.trans {d d' : Duplex} {data : Bytes} (h : X.Leaves d' b data s)
    (hlive : d.Live → d'.Live ∧ d'.reads.length ≤ d.reads.length) : X.Leaves d b data s :=
  ⟨h.left, Duplex.live_trans hlive h.live⟩

/-- A turn that leaves the stream alone and delivers what fits of `w`. -/
theorem Leaves.of_take {s' : σ} {w rest : Bytes} (h : X.Left s' (w.drop cap ++ rest))
    (hstream : X.stream s' = X.stream s) : X.Leaves (X.stream s) (w ++ rest) (w.take cap) s' where
  left := ⟨_, by rw [← List.append_assoc, List.take_append_drop], h⟩
  live hlive := hstream.symm ▸ ⟨hlive, Nat.le_refl _⟩

/-- A turn goes round, or it waits and has used an answer up if there is a byte left, or it delivers
bytes from the front, some if there is a byte left and room for it. -/
theorem Left.turn (h : X.Left s b) (cap : Nat) :
    (∃ s', step cap s = .again s' ∧ X.Leaves (X.stream s) b [] s' ∧ X.rank s' < X.rank s) ∨
    (∃ s', step cap s = .pending s' ∧ X.Leaves (X.stream s) b [] s' ∧
      ((X.stream s).Live → b ≠ [] →
        (X.stream s').reads.length < (X.stream s).reads.length)) ∨
    ∃ s' data, step cap s = .ready s' (.ret (.ok data)) ∧
      X.Leaves (X.stream s) b data s' ∧ (0 < cap → b ≠ [] → data ≠ []) := by
  obtain ⟨cache, got, frames, ms, hholds, hwire, rfl⟩ := h
  have hne : ∀ {w : Bytes}, w ≠ [] → 0 < cap → w.take cap ≠ [] := fun hw hcap hnil =>
    hw ((List.take_eq_nil_iff.1 hnil).resolve_left (Nat.ne_of_gt hcap))
  have hturn := X.turn hholds hwire cap
  generalize step cap s = turn at hturn ⊢
  cases hturn with
  | @cached _ s' _ _ _ hcache hstream hholds' =>
    have hleft : X.Left s' (cache.drop cap ++ ms.flatten) :=
      ⟨_, got, frames, ms, hholds', hstream ▸ hwire, rfl⟩
    exact .inr (.inr ⟨s', _, rfl, .of_take hleft hstream, fun hcap _ => hne hcache hcap⟩)
  | @silent s' _ _ _ hstream hholds' hlt =>
    have hleft : X.Left s' ([] ++ ms.flatten) :=
      ⟨[], got, frames, ms, hholds', hstream ▸ hwire, rfl⟩
    exact .inl ⟨s', rfl, ⟨⟨_, rfl, hleft⟩, fun hlive => hstream.symm ▸ ⟨hlive, Nat.le_refl _⟩⟩, hlt⟩
  | @opened m s' frames ms f hm hstream hholds' =>
    have hleft : X.Left s' (m.drop cap ++ ms.flatten) := by
      refine ⟨_, [], frames, ms, hholds', ?_, rfl⟩
      rw [hstream, List.nil_append]
      exact List.append_cancel_left hwire
    exact .inr (.inr ⟨s', _, rfl, .of_take hleft hstream, fun hcap _ => hne hm hcap⟩)
  | @waits s' _ _ _ hwaits hopen hholds' =>
    have hleft : X.Left s' ([] ++ ms.flatten) :=
      ⟨[], got, frames, ms, hholds', hwaits.incoming ▸ hwire, rfl⟩
    refine .inr (.inl ⟨s', rfl, ⟨⟨_, rfl, hleft⟩, hwaits.live⟩, fun hlive hb => ?_⟩)
    refine hwaits.uses hlive fun hend => hb ?_
    obtain ⟨-, -, rfl⟩ := nil_of_ended hholds hwire hopen hend
    rfl
  | @filled data s' _ _ _ hgives _ hholds' hlt =>
    have hleft : X.Left s' ([] ++ ms.flatten) := by
      refine ⟨[], got ++ data, frames, ms, hholds', ?_, rfl⟩
      rw [List.append_assoc, ← hgives.incoming, hwire]
    exact .inl ⟨s', rfl, ⟨⟨_, rfl, hleft⟩, hgives.live⟩, hlt⟩
  | @ended s' _ _ _ hgives hopen hholds' =>
    obtain ⟨rfl, rfl, rfl⟩ := nil_of_ended hholds hwire hopen (hgives.ended rfl)
    have hleft : X.Left s' [] := by
      refine ⟨[], [], [], [], hholds' rfl, ?_, rfl⟩
      rw [← List.nil_append (X.stream s').incoming, ← hgives.incoming, hgives.ended rfl]
      rfl
    exact .inr (.inr ⟨s', [], rfl, ⟨⟨[], rfl, hleft⟩, hgives.live⟩, fun _ hb => absurd rfl hb⟩)

/-- A poll waits, and has used an answer up if there is a byte left, or it delivers bytes from the
front, some if there is a byte left and room for it. -/
theorem poll_cases (h : X.Left s b) (hn : X.rank s < n) (cap : Nat) :
    (∃ s', poll (step cap) n s = .pending s' ∧ X.Leaves (X.stream s) b [] s' ∧
      ((X.stream s).Live → b ≠ [] →
        (X.stream s').reads.length < (X.stream s).reads.length)) ∨
    ∃ s' data, poll (step cap) n s = .ready s' (.ret (.ok data)) ∧
      X.Leaves (X.stream s) b data s' ∧ (0 < cap → b ≠ [] → data ≠ []) := by
  have hpoll := poll_post (step cap) (s := s) (n := n)
    (I := fun s' => X.Leaves (X.stream s) b [] s')
    (P := fun s' => X.Leaves (X.stream s) b [] s' ∧ ((X.stream s).Live → b ≠ [] →
        (X.stream s').reads.length < (X.stream s).reads.length))
    (Q := fun s' r => ∃ data, r = .ret (.ok data) ∧ X.Leaves (X.stream s) b data s' ∧
      (0 < cap → b ≠ [] → data ≠ []))
    X.rank ?_ ⟨⟨b, rfl, h⟩, fun hlive => ⟨hlive, Nat.le_refl _⟩⟩ hn
  · rcases hpoll with ⟨s', hs, hP⟩ | ⟨s', r, hs, data, rfl, hleaves, hne⟩
    · exact .inl ⟨s', hs, hP⟩
    · exact .inr ⟨s', data, hs, hleaves, hne⟩
  · clear hn h
    intro u hu
    obtain ⟨⟨b, rfl, hleft⟩, hlive⟩ := hu
    rcases hleft.turn cap with ⟨s', hs, hleaves, hrank⟩ | ⟨s', hs, hleaves, huses⟩ |
      ⟨s', data, hs, hleaves, hne⟩
    · exact .inl ⟨s', hs, hleaves.trans hlive, hrank⟩
    · refine .inr (.inl ⟨s', hs, hleaves.trans hlive, fun hl hb => ?_⟩)
      obtain ⟨hl', hle⟩ := hlive hl
      exact Nat.lt_of_lt_of_le (huses hl' hb) hle
    · exact .inr (.inr ⟨s', _, hs, data, rfl, hleaves.trans hlive, hne⟩)

end Unframer
end
end Fuso

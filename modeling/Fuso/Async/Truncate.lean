import Fuso.Async.Unframe

/-!
# Streams that end inside of a frame

A reader of frames over a stream of which the end is cut off. What it knows in its loop also holds
of the frames that were to come (`Unframer.Truncatable`), so it delivers the messages of the frames
that are complete, and then it reads 0 bytes (`Unframer.poll_cut`).
-/

namespace Fuso
open Turn

namespace Duplex

/-- There are as many answers with bytes as there are bytes, and one for the end. -/
def Ends (d : Duplex) : Prop := d.incoming.length < (sizes d.reads).length

variable {d d' : Duplex} {buf : ReadBuf} {room : Nat}

theorem Ends.of_pending (h : d.Ends)
    (hread : AsyncRead.pollRead d (.new room) = (d', buf, .pending)) :
    d'.Ends ∧ d'.reads.length < d.reads.length := by
  rcases Nat.eq_zero_or_pos room with rfl | hroom
  · rw [pollRead_zero] at hread
    cases hread
  have hb : (ReadBuf.new room).remaining ≠ 0 := Nat.ne_of_gt hroom
  cases hr : d.reads with
  | nil => simp [Ends, hr, sizes] at h
  | cons a reads =>
    cases a with
    | pending =>
      rw [pollRead_pending hr hb] at hread
      cases hread
      simpa [Ends, hr, sizes] using h
    | upTo n =>
      obtain ⟨buf', -, hread'⟩ := pollRead_upTo hr (Nat.ne_of_gt hroom)
      rw [hread'] at hread
      cases hread

theorem Ends.of_ready (h : d.Ends) (hne : d.incoming ≠ [])
    (hread : AsyncRead.pollRead d (.new room) = (d', buf, .ready r)) :
    d'.Ends ∧ d'.reads.length ≤ d.reads.length := by
  rcases Nat.eq_zero_or_pos room with rfl | hroom
  · rw [pollRead_zero] at hread
    cases hread
    exact ⟨h, Nat.le_refl _⟩
  have hb : (ReadBuf.new room).remaining ≠ 0 := Nat.ne_of_gt hroom
  cases hr : d.reads with
  | nil => simp [Ends, hr, sizes] at h
  | cons a reads =>
    cases a with
    | pending =>
      rw [pollRead_pending hr hb] at hread
      cases hread
    | upTo n =>
      obtain ⟨buf', -, hread'⟩ := pollRead_upTo hr (Nat.ne_of_gt hroom)
      rw [hread'] at hread
      cases hread
      have hpos := List.length_pos_iff.2 hne
      have hlen : (d.delivered n room).length = min (min (n + 1) room) d.incoming.length :=
        length_delivered
      simp only [Ends, behind, hr, sizes, List.length_cons, List.length_drop] at *
      omega

end Duplex

/-! ## Where a stream is cut -/

/-- `wire` ends with one of the frames, or in front of the first one. -/
def AtBoundary (frames : List Bytes) (wire : Bytes) : Prop := ∃ n, wire = (frames.take n).flatten

/-- A stream of frames is cut at a boundary or inside of a frame. -/
theorem atBoundary_or_inside {frames : List Bytes} {wire : Bytes} (h : wire <+: frames.flatten) :
    AtBoundary frames wire ∨ ∃ n part, ∃ _ : n < frames.length,
      wire = (frames.take n).flatten ++ part ∧ part <+: frames[n] ∧ part ≠ [] ∧
        part ≠ frames[n] := by
  induction frames generalizing wire with
  | nil => exact .inl ⟨0, List.prefix_nil.1 h⟩
  | cons f frames ih =>
    rw [List.flatten_cons] at h
    by_cases hle : wire.length < f.length
    · have hpart : wire <+: f :=
        List.prefix_of_prefix_length_le h (List.prefix_append f _) (Nat.le_of_lt hle)
      by_cases hnil : wire = []
      · exact .inl ⟨0, hnil⟩
      · refine .inr ⟨0, wire, Nat.succ_pos _, rfl, hpart, hnil, ?_⟩
        rintro rfl
        exact Nat.lt_irrefl _ hle
    · obtain ⟨wire, rfl⟩ := List.prefix_of_prefix_length_le (List.prefix_append f _) h
        (Nat.le_of_not_lt hle)
      rcases ih ((List.prefix_append_right_inj f).1 h) with ⟨n, rfl⟩ |
        ⟨n, part, hn, rfl, hpart, hnil, hne⟩
      · exact .inl ⟨n + 1, rfl⟩
      · refine .inr ⟨n + 1, part, Nat.succ_lt_succ hn, ?_, hpart, hnil, hne⟩
        rw [List.take_succ_cons, List.flatten_cons, List.append_assoc]

/-! ## Turns -/

section
variable {σ ρ : Type}

/-- What a turn asks the stream for: nothing, or one read. A turn that gives up was told to wait. -/
inductive Asks (stream : σ → Duplex) (s : σ) : Turn σ ρ → Prop where
  | silent : stream s' = stream s → Asks stream s (.again s')
  | read {room : Nat} : AsyncRead.pollRead (stream s) (.new room) = (stream s', buf, .ready r) →
      Asks stream s (.again s')
  | waits {room : Nat} : AsyncRead.pollRead (stream s) (.new room) = (stream s', buf, .pending) →
      Asks stream s (.pending s')
  | ready : Asks stream s (.ready s' r)

variable {stream : σ → Duplex} {s s' : σ}

theorem Asks.ends_of_again (h : Asks stream s (.again s' : Turn σ ρ)) (hends : (stream s).Ends)
    (hne : (stream s).incoming ≠ []) :
    (stream s').Ends ∧ (stream s').reads.length ≤ (stream s).reads.length := by
  cases h with
  | silent hstream => exact hstream.symm ▸ ⟨hends, Nat.le_refl _⟩
  | read hread => exact hends.of_ready hne hread

theorem Asks.ends_of_pending (h : Asks stream s (.pending s' : Turn σ ρ))
    (hends : (stream s).Ends) :
    (stream s').Ends ∧ (stream s').reads.length < (stream s).reads.length := by
  cases h with
  | waits hread => exact hends.of_pending hread

end

/-! ## Polls -/

namespace Unframer
variable {σ : Type} {step : Nat → σ → Turn σ (Exit Bytes)} (X : Unframer step)

/-- A reader whose turns are the same when some of the bytes never arrive, and which holds no more
than one frame at any time. -/
structure Truncatable : Prop where
  turn : X.Holds s cache got frames ms → got ++ ((X.stream s).incoming ++ more) = frames.flatten →
    ∀ cap, Unframing X.stream X.rank X.Holds cap s cache got frames ms (step cap s)
  asks : ∀ cap s, Asks X.stream s (step cap s)
  bound : X.Holds s cache got (f :: frames) ms → got ++ rest = (f :: frames).flatten →
    got.length ≤ f.length

/-- `b` is left: what is held back, and what the frames open to that are complete. The stream ends
with the beginning of a frame `f`, of which `more` is missing. -/
def Cut (s : σ) (b : Bytes) : Prop :=
  ∃ cache got frames ms f m more, X.Holds s cache got (frames ++ [f]) (ms ++ [m]) ∧
    got ++ ((X.stream s).incoming ++ more) = (frames ++ [f]).flatten ∧ more ≠ [] ∧
    more.length < f.length ∧ b = cache ++ ms.flatten

/-- What a poll leaves that started with `b` left, at the stream `d`, and delivered `data`. -/
structure CutLeaves (d : Duplex) (b data : Bytes) (s : σ) : Prop where
  left : ∃ rest, b = data ++ rest ∧ X.Cut s rest
  ends : (X.stream s).Ends
  answers : (X.stream s).reads.length ≤ d.reads.length

variable {X} {s : σ} {b : Bytes} {cap n : Nat}

theorem CutLeaves.trans {d d' : Duplex} {data : Bytes} (h : X.CutLeaves d' b data s)
    (hle : d'.reads.length ≤ d.reads.length) : X.CutLeaves d b data s :=
  ⟨h.left, h.ends, Nat.le_trans h.answers hle⟩

/-- A turn that leaves the stream alone and delivers what fits of `w`. -/
theorem CutLeaves.of_take {s' : σ} {w rest : Bytes} (h : X.Cut s' (w.drop cap ++ rest))
    (hends : (X.stream s).Ends) (hstream : X.stream s' = X.stream s) :
    X.CutLeaves (X.stream s) (w ++ rest) (w.take cap) s' where
  left := ⟨_, by rw [← List.append_assoc, List.take_append_drop], h⟩
  ends := hstream.symm ▸ hends
  answers := Nat.le_of_eq (congrArg (·.reads.length) hstream)

/-- When the first frame has been opened the last one is still to come. -/
theorem Cut.of_opened {s' : σ} {f₀ m₀ more : Bytes} {frames frames₀ ms ms₀ : List Bytes}
    (hholds : X.Holds s' (m₀.drop cap) [] frames₀ ms₀) (hall : frames ++ [f] = f₀ :: frames₀)
    (hmsgs : ms ++ [m] = m₀ :: ms₀)
    (hwire : f₀ ++ ((X.stream s').incoming ++ more) = (frames ++ [f]).flatten) (hmore : more ≠ [])
    (hlt : more.length < f.length) :
    ∃ ms', ms = m₀ :: ms' ∧ X.Cut s' (m₀.drop cap ++ ms'.flatten) := by
  have hlen := X.length_eq hholds
  cases frames with
  | nil =>
    obtain ⟨rfl, rfl⟩ := List.cons.inj hall
    rw [List.nil_append, List.flatten_singleton, List.append_right_eq_self] at hwire
    exact absurd (List.append_eq_nil_iff.1 hwire).2 hmore
  | cons g frames =>
    obtain ⟨rfl, rfl⟩ := List.cons.inj hall
    cases ms with
    | nil =>
      obtain ⟨rfl, rfl⟩ := List.cons.inj hmsgs
      simp at hlen
    | cons m' ms =>
      obtain ⟨rfl, rfl⟩ := List.cons.inj hmsgs
      exact ⟨ms, rfl, _, [], frames, ms, f, m, more, hholds, List.append_cancel_left hwire, hmore,
        hlt, rfl⟩

/-- When all that is there has arrived no frame but the last one is left. -/
theorem Truncatable.eq_nil (hX : X.Truncatable)
    (hholds : X.Holds s cache got (frames ++ [f]) (ms ++ [m]))
    (hwire : got ++ more = (frames ++ [f]).flatten) (hlt : more.length < f.length) : ms = [] := by
  have hlen := X.length_eq hholds
  cases frames with
  | nil => simpa using hlen
  | cons g frames =>
    have hle := hX.bound hholds hwire
    have hsize := congrArg List.length hwire
    simp only [List.length_append, List.cons_append, List.flatten_cons, List.flatten_append]
      at hsize
    omega

/-- A turn goes round, or it waits, or it delivers bytes from the front, or none is left and it
reads 0 bytes. -/
theorem Cut.turn (hX : X.Truncatable) (h : X.Cut s b) (hends : (X.stream s).Ends)
    (hcap : 0 < cap) :
    (∃ s', step cap s = .again s' ∧ X.CutLeaves (X.stream s) b [] s' ∧ X.rank s' < X.rank s) ∨
    (∃ s', step cap s = .pending s' ∧ X.CutLeaves (X.stream s) b [] s' ∧
      (X.stream s').reads.length < (X.stream s).reads.length) ∨
    ∃ s' data, step cap s = .ready s' (.ret (.ok data)) ∧
      (data ≠ [] ∧ X.CutLeaves (X.stream s) b data s' ∨ data = [] ∧ b = []) := by
  obtain ⟨cache, got, frames, ms, f, m, more, hholds, hwire, hmore, hlt, rfl⟩ := h
  have hne : ∀ {w : Bytes}, w ≠ [] → w.take cap ≠ [] := fun hw hnil =>
    hw ((List.take_eq_nil_iff.1 hnil).resolve_left (Nat.ne_of_gt hcap))
  have hturn := hX.turn hholds hwire cap
  have hasks := hX.asks cap s
  generalize hall : frames ++ [f] = all at hturn
  generalize hmsgs : ms ++ [m] = msgs at hturn
  generalize step cap s = turn at hturn hasks ⊢
  cases hturn with
  | @cached _ s' _ _ _ hcache hstream hholds' =>
    subst hall hmsgs
    refine .inr (.inr ⟨s', cache.take cap, rfl, .inl ⟨hne hcache, ?_⟩⟩)
    have hcut : X.Cut s' (cache.drop cap ++ ms.flatten) :=
      ⟨_, got, frames, ms, f, m, more, hholds', hstream ▸ hwire, hmore, hlt, rfl⟩
    exact .of_take hcut hends hstream
  | @silent s' _ _ _ hstream hholds' hrank =>
    subst hall hmsgs
    have hcut : X.Cut s' ([] ++ ms.flatten) :=
      ⟨[], got, frames, ms, f, m, more, hholds', hstream ▸ hwire, hmore, hlt, rfl⟩
    have hends' : (X.stream s').Ends := hstream.symm ▸ hends
    exact .inl ⟨s', rfl, ⟨⟨_, rfl, hcut⟩, hends', by rw [hstream]⟩, hrank⟩
  | @opened m₀ s' frames₀ ms₀ f₀ hm hstream hholds' =>
    obtain ⟨ms', rfl, hcut⟩ := Cut.of_opened hholds' hall hmsgs (hstream.symm ▸ hwire) hmore hlt
    exact .inr (.inr ⟨s', m₀.take cap, rfl, .inl ⟨hne hm, .of_take hcut hends hstream⟩⟩)
  | @waits s' _ _ _ hwaits _ hholds' =>
    subst hall hmsgs
    obtain ⟨hends', hans⟩ := hasks.ends_of_pending hends
    have hcut : X.Cut s' ([] ++ ms.flatten) :=
      ⟨[], got, frames, ms, f, m, more, hholds', hwaits.incoming ▸ hwire, hmore, hlt, rfl⟩
    exact .inr (.inl ⟨s', rfl, ⟨⟨_, rfl, hcut⟩, hends', Nat.le_of_lt hans⟩, hans⟩)
  | @filled data s' _ _ _ hgives hdata hholds' hrank =>
    subst hall hmsgs
    have hincoming : (X.stream s).incoming ≠ [] := by
      rw [hgives.incoming]
      exact mt (fun h => (List.append_eq_nil_iff.1 h).1) hdata
    obtain ⟨hends', hans⟩ := hasks.ends_of_again hends hincoming
    have hcut : X.Cut s' ([] ++ ms.flatten) := by
      refine ⟨[], got ++ data, frames, ms, f, m, more, hholds', ?_, hmore, hlt, rfl⟩
      rw [← hwire, hgives.incoming]
      simp only [List.append_assoc]
    exact .inl ⟨s', rfl, ⟨⟨_, rfl, hcut⟩, hends', hans⟩, hrank⟩
  | @ended s' _ _ _ hgives _ _ =>
    subst hall hmsgs
    rw [hgives.ended rfl] at hwire
    obtain rfl := hX.eq_nil hholds hwire hlt
    exact .inr (.inr ⟨s', [], rfl, .inr ⟨rfl, rfl⟩⟩)

/-- A poll waits, or it delivers bytes from the front, or none is left and it reads 0 bytes. -/
theorem poll_cut (hX : X.Truncatable) (h : X.Cut s b) (hends : (X.stream s).Ends)
    (hcap : 0 < cap) (hn : X.rank s < n) :
    (∃ s', poll (step cap) n s = .pending s' ∧ X.CutLeaves (X.stream s) b [] s' ∧
      (X.stream s').reads.length < (X.stream s).reads.length) ∨
    ∃ s' data, poll (step cap) n s = .ready s' (.ret (.ok data)) ∧
      (data ≠ [] ∧ X.CutLeaves (X.stream s) b data s' ∨ data = [] ∧ b = []) := by
  have hpoll := poll_post (step cap) (s := s) (n := n)
    (I := fun s' => X.CutLeaves (X.stream s) b [] s')
    (P := fun s' => X.CutLeaves (X.stream s) b [] s' ∧
      (X.stream s').reads.length < (X.stream s).reads.length)
    (Q := fun s' r => ∃ data, r = .ret (.ok data) ∧
      (data ≠ [] ∧ X.CutLeaves (X.stream s) b data s' ∨ data = [] ∧ b = []))
    X.rank ?_ ⟨⟨b, rfl, h⟩, hends, Nat.le_refl _⟩ hn
  · rcases hpoll with ⟨s', hs, hP⟩ | ⟨s', r, hs, data, rfl, hQ⟩
    · exact .inl ⟨s', hs, hP⟩
    · exact .inr ⟨s', data, hs, hQ⟩
  · clear hn h hends
    intro u hu
    obtain ⟨⟨b, rfl, hcut⟩, hends, hle⟩ := hu
    rcases hcut.turn hX hends hcap with ⟨s', hs, hleaves, hrank⟩ | ⟨s', hs, hleaves, hans⟩ |
      ⟨s', data, hs, ⟨hdata, hleaves⟩ | hend⟩
    · exact .inl ⟨s', hs, hleaves.trans hle, hrank⟩
    · exact .inr (.inl ⟨s', hs, hleaves.trans hle, Nat.lt_of_lt_of_le hans hle⟩)
    · exact .inr (.inr ⟨s', _, hs, data, rfl, .inl ⟨hdata, hleaves.trans hle⟩⟩)
    · exact .inr (.inr ⟨s', _, hs, data, rfl, .inr hend⟩)

end Unframer

/-! ## Buffers of any sizes -/

section
variable {R : Type} (poll : R → Nat → R × Poll (Exit Bytes))

/-- Polls enough deliver `total`, and behind it one reads 0 bytes. -/
def EndsCleanly (r : R) (total : Bytes) : Prop :=
  ∃ n, ∀ caps, (∀ cap ∈ caps, 0 < cap) → n ≤ caps.length → ∃ pre cap post r' r'',
    caps = pre ++ cap :: post ∧ Reads poll r pre total r' ∧
      poll r' cap = (r'', .ready (.ret (.ok [])))

/-- A poll with room reads 0 bytes only if the stream ends at a boundary, and if it does not polls
enough come to an error. -/
structure Reports (r : R) (boundary : Prop) : Prop where
  ended : ∀ caps data r' cap r'', (∀ c ∈ caps, 0 < c) → 0 < cap → Reads poll r caps data r' →
    poll r' cap = (r'', .ready (.ret (.ok []))) → boundary
  failed : ¬ boundary → ∃ n, ∀ caps, (∀ cap ∈ caps, 0 < cap) → n ≤ caps.length →
    ∃ pre cap post data r' r'' e, caps = pre ++ cap :: post ∧ Reads poll r pre data r' ∧
      poll r' cap = (r'', .ready (.ret (.error e)))

/-- A kind of poll whose stream ends inside of a frame, and which knows what comes out before. -/
structure Shortage where
  Left : R → Bytes → Prop
  answers : R → Nat
  read : ∀ r b cap, Left r b → 0 < cap → ∃ r',
    (poll r cap = (r', .pending) ∧ Left r' b ∧ answers r' < answers r) ∨
    (∃ d rest, poll r cap = (r', .ready (.ret (.ok d))) ∧ d ≠ [] ∧ b = d ++ rest ∧
      Left r' rest ∧ answers r' ≤ answers r) ∨
    poll r cap = (r', .ready (.ret (.ok []))) ∧ b = []

variable {poll} {r : R} {b : Bytes}

/-- A poll uses an answer up or delivers a byte, or it is the last one. -/
theorem Shortage.endsCleanly (X : Shortage poll) (h : X.Left r b) : EndsCleanly poll r b := by
  refine ⟨X.answers r + b.length + 1, fun caps => ?_⟩
  induction caps generalizing r b with
  | nil => simp
  | cons cap caps ih =>
    intro hcaps hle
    have hcaps' : ∀ c ∈ caps, 0 < c := fun c hc => hcaps c (.tail _ hc)
    rw [List.length_cons] at hle
    obtain ⟨r₁, ⟨hpoll, hleft, hans⟩ | ⟨d, rest, hpoll, hd, rfl, hleft, hans⟩ | ⟨hpoll, rfl⟩⟩ :=
      X.read r b cap h (hcaps cap List.mem_cons_self)
    · obtain ⟨pre, cap', post, r', r'', rfl, H, hend⟩ := ih hleft hcaps' (by omega)
      exact ⟨cap :: pre, cap', post, r', r'', rfl, .pending hpoll H, hend⟩
    · have hpos := List.length_pos_iff.2 hd
      rw [List.length_append] at hle
      obtain ⟨pre, cap', post, r', r'', rfl, H, hend⟩ := ih hleft hcaps' (by omega)
      exact ⟨cap :: pre, cap', post, r', r'', rfl, .ready hpoll H, hend⟩
    · exact ⟨[], cap, caps, r, r₁, rfl, .nil, hpoll⟩

theorem reports_iff_of_endsCleanly {boundary : Prop} (h : ¬ boundary → ∃ b, EndsCleanly poll r b) :
    Reports poll r boundary ↔ boundary := by
  constructor
  · intro hr
    by_contra hb
    obtain ⟨b, n, hn⟩ := h hb
    have hcaps : ∀ cap ∈ List.replicate n 1, 0 < cap := fun cap hcap => by
      rw [List.eq_of_mem_replicate hcap]
      exact Nat.one_pos
    obtain ⟨pre, cap, post, r', r'', heq, H, hend⟩ := hn _ hcaps (by simp)
    rw [heq] at hcaps
    exact hb (hr.ended pre b r' cap r'' (fun c hc => hcaps c (by simp [hc])) (hcaps cap (by simp)) H
      hend)
  · intro hb
    exact ⟨fun _ _ _ _ _ _ _ _ _ => hb, absurd hb⟩

end
end Fuso

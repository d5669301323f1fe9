import Fuso.Async.Copy
import Fuso.Theory.Race

/-!
# `forward`

The relay between two streams. `Forward.step` is one turn of `Forward::poll`, which pops the copies
from the end of its list and is ready as soon as one of them is.
-/

namespace Fuso
open Turn

/-- The direction of a copy: from the first stream to the second, or back. -/
inductive Direction where
  | there
  | back
  deriving DecidableEq

def Direction.other : Direction → Direction
  | .there => .back
  | .back => .there

/-- `futures` are the copies that are still to be polled, `polled` those that were pending in this
poll. The two streams are shared by the copies. -/
structure Forward where
  futures : List Direction
  polled : List Direction
  there : Copy
  back : Copy
  s1 : Duplex
  s2 : Duplex

/-- `forward(s1, s2)`. -/
def forward (s1 s2 : Duplex) : Forward :=
  { futures := [.there, .back], polled := [], there := .read, back := .read, s1, s2 }

namespace Forward

def copy (f : Forward) : Direction → Copy
  | .there => f.there
  | .back => f.back

/-- The stream a direction reads from. -/
def source (f : Forward) : Direction → Duplex
  | .there => f.s1
  | .back => f.s2

/-- The stream a direction writes to. -/
def sink (f : Forward) (dir : Direction) : Duplex := f.source dir.other

/-- The relay with one of its copies and the two streams replaced. -/
def update (f : Forward) : Direction → Copy × Duplex × Duplex → Forward
  | .there, (copy, reader, writer) => { f with there := copy, s1 := reader, s2 := writer }
  | .back, (copy, reader, writer) => { f with back := copy, s2 := reader, s1 := writer }

/-- A turn of `Forward::poll`: a turn of the copy that was popped last, which goes to `polled` when
it is pending, or the end of the loop. -/
def step (f : Forward) : Turn Forward (Result Unit) :=
  match f.futures.getLast? with
  | none =>
    let f := { f with futures := f.polled, polled := [] }
    if f.futures.isEmpty then .ready f (.ok ()) else .pending f
  | some dir =>
    match (f.copy dir).step (f.source dir, f.sink dir) with
    | .again s => .again (f.update dir s)
    | .pending s =>
      .again { f.update dir s with
        futures := f.futures.dropLast, polled := f.polled ++ [dir] }
    | .ready s r => .ready { f.update dir s with futures := f.futures.dropLast } r

/-! ## The copies alone -/

variable {s1 s2 : Duplex}

/-- One of the copies of `forward(s1, s2)`, with its two streams for itself. -/
def alone (s1 s2 : Duplex) (dir : Direction) : Copy × Duplex × Duplex :=
  (.read, (forward s1 s2).source dir, (forward s1 s2).sink dir)

/-- The relay of two copies that have their streams for themselves: a copy uses the read half of the
one and the write half of the other. -/
def ofRace (x : Race Direction (Copy × Duplex × Duplex)) : Forward where
  futures := x.futures
  polled := x.polled
  there := (x.state .there).1
  back := (x.state .back).1
  s1 := (x.state .there).2.1.glue (x.state .back).2.2
  s2 := (x.state .back).2.1.glue (x.state .there).2.2

/-- The copies of a relay do not get in each other's way. -/
theorem step_ofRace (x : Race Direction (Copy × Duplex × Duplex)) :
    step (ofRace x) = (Race.step Copy.turn (.ok ()) x).map ofRace id := by
  have hcopy : ∀ dir, ((ofRace x).copy dir).step ((ofRace x).source dir, (ofRace x).sink dir) =
      (Copy.turn (x.state dir)).map (fun s => (s.1, s.2.1.glue (x.state dir.other).2.2,
        (x.state dir.other).2.1.glue s.2.2)) id := by
    intro dir
    cases dir <;> exact Copy.step_glue ..
  have hupdate : ∀ dir s, ofRace { x with state := Function.update x.state dir s } =
      (ofRace x).update dir (s.1, s.2.1.glue (x.state dir.other).2.2,
        (x.state dir.other).2.1.glue s.2.2) := by
    intro dir s
    cases dir <;> rfl
  simp only [Forward.step, Race.step]
  have hfutures : (ofRace x).futures = x.futures := rfl
  rw [hfutures]
  cases hlast : x.futures.getLast? with
  | none =>
    dsimp only
    split
    · next h => rw [if_pos (show x.polled.isEmpty from h)]; rfl
    · next h => rw [if_neg (show ¬x.polled.isEmpty from h)]; rfl
  | some dir =>
    simp only [hcopy]
    rcases Copy.turn (x.state dir) with s | s | ⟨s, r⟩
    · simp only [Turn.map, hupdate]
    · simp only [Turn.map, ← hupdate]
      rfl
    · simp only [Turn.map, ← hupdate]
      rfl

/-- The direction that the poll `n` of a relay starts with. -/
def first : Nat → Direction
  | 0 => .back
  | n + 1 => (first n).other

theorem turned_first (n : Nat) :
    Race.turned n [.there, .back] = [(first n).other, first n] := by
  induction n with
  | zero => rfl
  | succ n ih =>
    rw [Race.turned_succ, ih]
    cases h : first n <;> simp [first, h, Direction.other]

/-- How often the other direction was polled when `dir` is ready in the poll `n`. -/
def polls (dir : Direction) (n : Nat) : Nat := if dir = first n then n else n + 1

/-- Each of the copies polled alone: `dir` is ready in its poll `n`, and the other one is in the
state `s` behind the polls it has had in a relay by then. -/
def EndsFirst (s1 s2 : Duplex) (dir : Direction) (n : Nat) (s : Copy × Duplex × Duplex) : Prop :=
  (∃ u s', Waits Copy.turn n (alone s1 s2 dir) u ∧ Polls Copy.turn u (.ready s' (.ok ()))) ∧
    Waits Copy.turn (polls dir n) (alone s1 s2 dir.other) s

theorem EndsFirst.unique {dir dir' : Direction} (h : EndsFirst s1 s2 dir n s)
    (h' : EndsFirst s1 s2 dir' n' s') : dir = dir' ∧ n = n' ∧ s = s' := by
  obtain ⟨⟨u, _, hu, hp⟩, hs⟩ := h
  obtain ⟨⟨u', _, hu', hp'⟩, hs'⟩ := h'
  by_cases hdir : dir = dir'
  · subst hdir
    have hn : n = n' := Nat.le_antisymm (hu'.le_of_ready hp' hu) (hu.le_of_ready hp hu')
    subst hn
    exact ⟨rfl, rfl, hs.unique hs'⟩
  · -- each of the two would have been ready before the other one
    obtain rfl : dir.other = dir' := by cases dir <;> cases dir' <;> simp_all [Direction.other]
    have hback : dir.other.other = dir := by cases dir <;> rfl
    rw [hback] at hs'
    have h₁ : polls dir n ≤ n' := hu'.le_of_ready hp' hs
    have h₂ : polls dir.other n' ≤ n := hu.le_of_ready hp hs'
    unfold polls at h₁ h₂
    split at h₁ <;> split at h₂
    · next hfirst hfirst' =>
      obtain rfl : n = n' := by omega
      exact absurd (hfirst.trans hfirst'.symm) hdir
    all_goals omega

/-- What a relay that is done has written: the copy that ended it all of its bytes, and the other
one what it writes alone. -/
theorem sent_of_drives (H : Drives step (forward s1 s2) t (.ok ())) :
    ∃ dir n s s', EndsFirst s1 s2 dir n s ∧ Drives Copy.turn (alone s1 s2 dir) s' (.ok ()) ∧
      (t.sink dir).sent = s'.2.2.sent ∧ (t.sink dir.other).sent = s.2.2.sent := by
  have hforward : forward s1 s2 = ofRace ⟨[.there, .back], [], alone s1 s2⟩ := rfl
  rw [hforward] at H
  obtain ⟨x, rfl, Hx⟩ := H.of_map step_ofRace
  obtain ⟨n, post, dir, pre, hl, ⟨u, hu, hp⟩, hpre, hpost⟩ :=
    Race.drives_list (by simp) (by simp) Hx
  rw [turned_first] at hl
  have hsent : ∀ dir, ((ofRace x).sink dir).sent = (x.state dir).2.2.sent := by
    intro dir
    cases dir <;> rfl
  refine ⟨dir, n, x.state dir.other, x.state dir, ⟨⟨u, _, hu, hp⟩, ?_⟩,
    (drives_iff_of_reaches hu.reaches).2 hp.drives, hsent dir, hsent dir.other⟩
  cases post with
  | nil =>
    obtain ⟨rfl, rfl⟩ : (first n).other = dir ∧ [first n] = pre := by simpa using hl
    have hne : (first n).other ≠ first n := by cases first n <;> nofun
    have hback : (first n).other.other = first n := by cases first n <;> rfl
    rw [polls, if_neg hne, hback]
    exact hpre _ (List.mem_singleton_self _)
  | cons i post =>
    have hpost' : post = [] := by
      have := congrArg List.length hl
      simp at this
      exact List.length_eq_zero_iff.1 (by omega)
    subst hpost'
    obtain ⟨rfl, rfl, -⟩ : (first n).other = i ∧ first n = dir ∧ [] = pre := by simpa using hl
    rw [polls, if_pos rfl]
    exact hpost _ (List.mem_singleton_self _)

theorem moves_alone (hr : Reaches Copy.turn (alone s1 s2 dir) s) :
    Copy.Moves (alone s1 s2 dir) s := Copy.moves_of_reaches trivial hr

/-- A relay that resolves has delivered every byte in both directions exactly when of the two
copies, each polled alone, the one that is not ready first has moved all of its bytes by the time
the other one is ready. -/
theorem forward_lossless_iff {s1 s2 : Duplex} {t : Forward}
    (H : Drives Forward.step (forward s1 s2) t (.ok ())) :
    (t.s2.sent = s2.sent ++ s1.incoming ∧ t.s1.sent = s1.sent ++ s2.incoming) ↔
      ∃ dir n s, EndsFirst s1 s2 dir n s ∧ Copy.Moved s := by
  obtain ⟨dir, n, s, s', hends, hd, hsent, hother⟩ := sent_of_drives H
  have hvalid : (alone s1 s2 dir).1.Valid (alone s1 s2 dir).2.1 := trivial
  obtain ⟨hm, hmoved⟩ := Copy.moved_of_drives hvalid hd
  have hdone := (hm.sent_iff rfl).2 hmoved
  have hiff := (moves_alone hends.2.reaches).sent_iff rfl
  rw [← hsent] at hdone
  rw [← hother] at hiff
  have hmain : (t.s2.sent = s2.sent ++ s1.incoming ∧ t.s1.sent = s1.sent ++ s2.incoming) ↔
      Copy.Moved s := by
    cases dir with
    | there => exact (and_iff_right hdone).trans hiff
    | back => exact (and_iff_left hdone).trans hiff
  rw [hmain]
  constructor
  · exact fun h => ⟨dir, n, s, hends, h⟩
  · rintro ⟨dir', n', s', hends', h⟩
    obtain ⟨-, -, rfl⟩ := hends.unique hends'
    exact h

/-- A stream at its end, which takes what is written to it. -/
def ended : Duplex :=
  { incoming := [], reads := [.upTo 0], writes := [.upTo 9], closes := [.upTo 0, .upTo 0],
    sent := [] }

/-- A stream that delivers one byte, after the given answers. -/
def delivering (answers : List Answer) : Duplex :=
  { ended with incoming := [1], reads := answers ++ [.upTo 0, .upTo 0] }

/-- A stream that is at its end in its third read. -/
def slow (answers : List Answer) : Duplex := { ended with reads := answers ++ [.upTo 0] }

/-- The byte is delivered: its copy is ready in the second poll, when the other one has been polled
twice. -/
theorem forward_lossless_iff_delivering : ∃ t : Forward,
    Drives Forward.step (forward (slow [.pending, .pending]) (delivering [.pending])) t (.ok ()) ∧
      t.s1.sent = [1] := by
  let s1 := slow [.pending, .pending]
  let s2 := delivering [.pending]
  have hback : Polls Copy.turn (alone s1 s2 .back) (.pending (.read, delivering [], s1)) :=
    polls_of_poll (n := 1) rfl (by simp)
  have hready : Polls Copy.turn (.read, delivering [], s1)
      (.ready (.close, { ended with reads := [] },
        { s1 with writes := [], closes := [], sent := [1] }) (.ok ())) :=
    polls_of_poll (n := 9) rfl (by simp)
  have hthere : Polls Copy.turn (alone s1 s2 .there) (.pending (.read, slow [.pending], s2)) :=
    polls_of_poll (n := 1) rfl (by simp)
  have hthere' : Polls Copy.turn (.read, slow [.pending], s2) (.pending (.read, slow [], s2)) :=
    polls_of_poll (n := 1) rfl (by simp)
  have hends : EndsFirst s1 s2 .back 1 (.read, slow [], s2) :=
    ⟨⟨_, _, .succ hback .zero, hready⟩, .succ hthere (.succ hthere' .zero)⟩
  have H : Drives Forward.step (forward s1 s2) _ (.ok ()) := drives_of_run (n := 20) rfl
  exact ⟨_, H, ((forward_lossless_iff H).2 ⟨_, _, _, hends, rfl, rfl⟩).2⟩

/-- A stream that is at its end cuts the other direction short. -/
theorem not_forward_lossless : ¬∀ (s1 s2 : Duplex) (t : Forward),
    Drives Forward.step (forward s1 s2) t (.ok ()) →
    t.s2.sent = s2.sent ++ s1.incoming ∧ t.s1.sent = s1.sent ++ s2.incoming := by
  intro h
  have H : Drives Forward.step (forward ended (delivering [.pending])) _ (.ok ()) :=
    drives_of_run (n := 10) rfl
  exact absurd (h _ _ _ H).2 (by decide)

end Forward
end Fuso

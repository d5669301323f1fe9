import Fuso.Async.Forward
import Fuso.Theory.Deadline

/-!
# Bridged connections

`run_bridge` spawns one future for a bridged connection: it decorates the stream of the visitor,
connects, decorates the upstream and relays. `time::wait_for` drops the whole of it ten seconds
after its first poll, so also a relay that is not over by then (`Bridging.relay_iff`). The addresses
of the two streams are only asked for by a log line and are left out.
-/

namespace Fuso
open Turn

/-- The futures of the providers a bridge is given: the decorations of the two streams and the
connection in between. -/
structure Links (C U S D : Type) where
  clientDecorate : C → Turn C (Result Duplex)
  upstream : U → Turn U (Result S)
  upstreamDecorate : S → D
  decorated : D → Turn D (Result Duplex)

/-- Where control is in `forward_fn`. -/
inductive Bridging (C U D : Type) where
  | clientDecorate (c : C) (upstream : U)
  | connect (stream : Duplex) (upstream : U)
  | upstreamDecorate (stream : Duplex) (d : D)
  | forward (f : Forward)

namespace Bridging
variable {C U S D : Type}

def step (links : Links C U S D) : Bridging C U D → Turn (Bridging C U D) (Result Unit)
  | .clientDecorate c u =>
    match links.clientDecorate c with
    | .again c => .again (.clientDecorate c u)
    | .pending c => .pending (.clientDecorate c u)
    | .ready c (.error e) => .ready (.clientDecorate c u) (.error e)
    | .ready _ (.ok stream) => .again (.connect stream u)
  | .connect stream u =>
    match links.upstream u with
    | .again u => .again (.connect stream u)
    | .pending u => .pending (.connect stream u)
    | .ready u (.error e) => .ready (.connect stream u) (.error e)
    | .ready _ (.ok upstream) => .again (.upstreamDecorate stream (links.upstreamDecorate upstream))
  | .upstreamDecorate stream d =>
    match links.decorated d with
    | .again d => .again (.upstreamDecorate stream d)
    | .pending d => .pending (.upstreamDecorate stream d)
    | .ready d (.error e) => .ready (.upstreamDecorate stream d) (.error e)
    | .ready _ (.ok upstream) => .again (.forward (Fuso.forward stream upstream))
  | .forward f => f.step.map .forward id

/-- `time::wait_for(Duration::from_secs(10), forward_fn())`, polled at the times, which are in
milliseconds. The ten seconds start with the first poll. -/
def waitFor (links : Links C U S D) (b : Bridging C U D) (times : List Nat)
    (o : Outcome (Bridging C U D) (Result Unit)) : Prop :=
  Until (step links) (times.headD 0 + 10000) b times o

/-- The set-up waits in `n` polls and is over in the next one, in which `io::forward` starts with
the streams `s1` and `s2`. -/
def Established (links : Links C U S D) (b : Bridging C U D) (n : Nat) (s1 s2 : Duplex) : Prop :=
  ∃ b', Waits (step links) n b b' ∧
    Relation.ReflTransGen (fun b b' => step links b = .again b') b' (.forward (Fuso.forward s1 s2))

/-- The connection is relayed until `io::forward` is ready. -/
def EndsWithForward (s1 s2 : Duplex) : Outcome (Bridging C U D) (Result Unit) → Prop
  | .waiting _ => True
  | .ready _ r => ∃ f, Drives Forward.step (Fuso.forward s1 s2) f r
  | .elapsed _ => False

/-- Polled at the times, the bridge of `s1` and `s2` ends only as `io::forward` does. -/
def Uncut (links : Links C U S D) (b : Bridging C U D) (times : List Nat) (s1 s2 : Duplex) :
    Prop :=
  ∀ o, waitFor links b times o → EndsWithForward s1 s2 o

variable {links : Links C U S D} {b : Bridging C U D} {s1 s2 : Duplex} {early later : List Nat}
  {now deadline : Nat} {o : Outcome (Bridging C U D) (Result Unit)}

/-- Behind the set-up the bridge is the relay. -/
theorem until_iff (hest : Established links b early.length s1 s2)
    (htime : ∀ t ∈ early, t < deadline) :
    Until (step links) deadline b (early ++ now :: later) o ↔
      ∃ o', Until Forward.step deadline (Fuso.forward s1 s2) (now :: later) o' ∧
        o = o'.map .forward := by
  obtain ⟨b', hw, hreach⟩ := hest
  rw [Until.of_waits hw rfl htime,
    Until.congr (fun _ => Polls.of_reaches_again hreach) (List.cons_ne_nil _ _)]
  exact Until.map_iff (f := Bridging.forward) fun _ => rfl

/-- A connection that is set up in time is relayed until `io::forward` is ready, if and only if that
does not wait up to and in the first poll that comes ten seconds after the first one. -/
theorem relay_iff (hest : Established links b early.length s1 s2)
    (htime : ∀ t ∈ early ++ [now], t < (early ++ now :: later).headD 0 + 10000) :
    Uncut links b (early ++ now :: later) s1 s2 ↔
      ∀ pre t post f, later = pre ++ t :: post →
        (∀ u ∈ pre, u < (early ++ now :: later).headD 0 + 10000) →
        (early ++ now :: later).headD 0 + 10000 ≤ t →
        ¬ Waits Forward.step (pre.length + 2) (Fuso.forward s1 s2) f := by
  have hnow := htime now (by simp)
  have hiff : ∀ o, waitFor links b (early ++ now :: later) o ↔ _ := fun o =>
    until_iff hest fun t ht => htime t (List.mem_append_left _ ht)
  constructor
  · intro h pre t post f hlater hpre hle hw
    refine h (.elapsed (.forward f)) ((hiff _).2 ⟨.elapsed f, ?_, rfl⟩)
    refine until_elapsed_iff.2 ⟨now :: pre, t, post, by rw [hlater]; rfl, fun u hu => ?_, hle, hw⟩
    rcases List.mem_cons.1 hu with rfl | hu
    · exact hnow
    · exact hpre u hu
  · intro h o ho
    obtain ⟨o', ho', rfl⟩ := (hiff o).1 ho
    cases o' with
    | waiting f => trivial
    | ready f r => exact ⟨f, ho'.drives⟩
    | elapsed f =>
      obtain ⟨pre, t, post, htimes, hpre, hle, hw⟩ := until_elapsed_iff.1 ho'
      cases pre with
      | nil =>
        cases htimes
        omega
      | cons u pre =>
        obtain ⟨rfl, hlater⟩ := List.cons.inj htimes
        exact h pre t post f hlater (fun u hu => hpre u (.tail _ hu)) hle hw

/-- Providers that are ready at once. -/
def direct : Links Duplex Duplex Duplex Duplex where
  clientDecorate stream := .ready stream (.ok stream)
  upstream stream := .ready stream (.ok stream)
  upstreamDecorate stream := stream
  decorated stream := .ready stream (.ok stream)

theorem established_direct (s1 s2 : Duplex) : Established direct (.clientDecorate s1 s2) 0 s1 s2 :=
  ⟨_, .zero, .head rfl (.head rfl (.head rfl .refl))⟩

/-- A connection that is over after five seconds, with a byte delivered. -/
theorem relay_short :
    let s1 := Forward.slow [.pending, .pending]
    let s2 := Forward.delivering [.pending]
    Uncut direct (.clientDecorate s1 s2) [0, 5000, 12000] s1 s2 ∧
      ∃ f : Forward, waitFor direct (.clientDecorate s1 s2) [0, 5000, 12000]
        (.ready (.forward f) (.ok ())) ∧ f.s1.sent = [1] := by
  intro s1 s2
  let waiting : Forward :=
    { Fuso.forward (Forward.slow [.pending]) (Forward.delivering []) with
      futures := [.back, .there] }
  have hpending : Polls Forward.step (Fuso.forward s1 s2) (.pending waiting) :=
    polls_of_poll (n := 3) rfl (by simp)
  obtain ⟨f, hready, hsent⟩ : ∃ f, Polls Forward.step waiting (.ready f (.ok ())) ∧
      f.s1.sent = [1] :=
    ⟨_, polls_of_poll (n := 9) rfl (by simp), rfl⟩
  have hest : Established direct _ ([] : List Nat).length _ _ := established_direct s1 s2
  constructor
  · refine (relay_iff hest (by simp)).2 fun pre t post f _ _ _ hw => ?_
    have := (Waits.succ hpending .zero).le_of_ready hready hw
    omega
  · refine ⟨f, ?_, hsent⟩
    refine (until_iff hest (by simp)).2 ⟨.ready f (.ok ()), ?_, rfl⟩
    exact .pending hpending (by simp) (.ready hready)

/-- A byte of the visitor that has not arrived after ten seconds is lost. -/
theorem not_relay : ¬ ∀ (s1 s2 : Duplex) (early : List Nat) (now : Nat) (later : List Nat)
    (b : Bridging Duplex Duplex Duplex), Established direct b early.length s1 s2 →
    (∀ t ∈ early ++ [now], t < (early ++ now :: later).headD 0 + 10000) →
    Uncut direct b (early ++ now :: later) s1 s2 := by
  intro h
  -- Each poll asks both streams for bytes, and neither has one yet.
  let idle (reads : List Answer) : Duplex := ⟨[1], reads, [], [], []⟩
  let f (reads : List Answer) (futures : List Direction) : Forward :=
    { Fuso.forward (idle reads) (idle reads) with futures }
  have hfirst : Polls Forward.step (f [.pending, .pending] [.there, .back])
      (.pending (f [.pending] [.back, .there])) := polls_of_poll (n := 9) rfl nofun
  have hsecond : Polls Forward.step (f [.pending] [.back, .there])
      (.pending (f [] [.there, .back])) := polls_of_poll (n := 9) rfl nofun
  have hest : Established direct _ ([] : List Nat).length _ _ :=
    established_direct (idle [.pending, .pending]) (idle [.pending, .pending])
  refine h _ _ [] 0 [10000] _ hest (by simp) (.elapsed (.forward (f [] [.there, .back]))) ?_
  refine (until_iff hest (by simp)).2 ⟨.elapsed _, ?_, rfl⟩
  exact .pending hfirst (by simp) (.elapsed hsecond (by simp))

end Bridging
end Fuso

import Fuso.Penetrate.Chain

/-!
# The negotiation comes to an end

Every event that changes anything takes a party further, so that there is a bound on them; and when
nobody can go on, the client is done or somebody has stopped with an error (`settles`).
-/

namespace Fuso.Setup

variable {p : Parties}

/-! ## How far a party is -/

def Client.Stage.rank : Client.Stage → Nat
  | .setup => 4
  | .reply => 3
  | .config .. => 2
  | .configured .. => 1
  | .done .. | .failed _ => 0

def Server.Stage.rank : Server.Stage → Nat
  | .setup => 6
  | .bind .. => 5
  | .success .. => 4
  | .config => 3
  | .answer _ | .refuse _ => 2
  | .unsent _ | .reject _ | .start => 1
  | .done | .failed _ => 0

def Bridge.Stage.rank : Bridge.Stage → Nat
  | .setup => 8
  | .connect .. => 7
  | .send .. => 6
  | .reply _ => 5
  | .bind .. => 4
  | .success .. => 3
  | .relay _ => 2
  | .forward => 1
  | .ended | .failed _ => 0

/-- A bridge that relays has two messages to receive on either side. -/
def Bridge.rank (b : Bridge) (l next : Link) : Nat :=
  b.stage.rank + (2 - l.downRead) + (2 - next.upRead)

def Chain.rank : Chain → Link → Nat
  | .server s, _ => s.stage.rank
  | .bridge b next rest, l => b.rank l next + rest.rank next

def System.rank (s : System) : Nat := s.client.rank + s.chain.rank s.link

theorem Client.Stage.turn_rank (c : Client.Stage) (l : Link) :
    c.turn p l = (c, l) ∨ (c.turn p l).1.rank < c.rank := by
  cases c with
  | setup => exact .inr (Nat.lt_succ_self 3)
  | reply =>
    unfold turn
    simp only
    split
    · exact .inl rfl
    all_goals exact .inr (by simp [rank])
  | config => exact .inr (Nat.lt_succ_self 1)
  | configured =>
    unfold turn
    simp only
    split
    · exact .inl rfl
    · split <;> exact .inr (by simp [rank])
    · exact .inr (by simp [rank])
  | done | failed => exact .inl rfl

theorem Server.turn_rank (s : Server) (l : Link) :
    s.turn p l = (s, l) ∨ (s.turn p l).1.stage.rank < s.stage.rank := by
  obtain ⟨stage, config, accepters⟩ := s
  cases stage with
  | setup =>
    unfold turn
    simp only
    split
    · exact .inl rfl
    all_goals exact .inr (by simp [Stage.rank])
  | config =>
    unfold turn
    simp only
    split
    · exact .inl rfl
    all_goals exact .inr (by simp [Stage.rank])
  | refuse => exact .inr Nat.zero_lt_two
  | unsent | reject | start => exact .inr Nat.zero_lt_one
  | success => exact .inr (Nat.lt_succ_self 3)
  | answer => exact .inr (Nat.lt_succ_self 1)
  | bind | done | failed => exact .inl rfl

theorem Server.bound_rank (s : Server) (r : Except String (Address × Address)) :
    s.bound r = s ∨ (s.bound r).stage.rank < s.stage.rank := by
  obtain ⟨stage, config, accepters⟩ := s
  cases stage with
  | bind =>
    cases r with
    | ok addrs => exact .inr (Nat.lt_succ_self 4)
    | error err => exact .inr (by simp [bound, Stage.rank])
  | _ => exact .inl rfl

theorem Server.act_rank (s : Server) (l : Link) (a : Act) :
    s.act p l a = (s, l) ∨ (s.act p l a).1.stage.rank < s.stage.rank := by
  cases a with
  | turn => exact s.turn_rank l
  | bound r =>
    rcases s.bound_rank r with h | h
    · exact .inl (congrArg (·, l) h)
    · exact .inr h
  | fail e =>
    obtain ⟨stage, config, accepters⟩ := s
    cases stage with
    | done | failed => exact .inl rfl
    | _ => exact .inr (by simp [act, Stage.rank])
  | up | listen => exact .inl rfl

/-! A connection carries two messages in each direction, so that a bridge that receives one is
further than before. -/

theorem Link.recvDown_rank {l l' : Link} (h : l.recvDown = some (m, l'))
    (hdown : l.down.length ≤ 2) : 2 - l'.downRead < 2 - l.downRead := by
  obtain ⟨hm, rfl⟩ := recvDown_eq_some.1 h
  have hlt := (List.getElem?_eq_some_iff.1 hm).1
  simp only
  omega

theorem Link.recvUp_rank {l l' : Link} (h : l.recvUp = some (m, l')) (hup : l.up.length ≤ 2) :
    2 - l'.upRead < 2 - l.upRead := by
  obtain ⟨hm, rfl⟩ := recvUp_eq_some.1 h
  have hlt := (List.getElem?_eq_some_iff.1 hm).1
  simp only
  omega

theorem Bridge.turn_rank (b : Bridge) (l next : Link) (hdown : l.down.length ≤ 2)
    (hup : next.up.length ≤ 2) : b.turn l next = (b, l, next) ∨
      (b.turn l next).1.rank (b.turn l next).2.1 (b.turn l next).2.2 < b.rank l next := by
  obtain ⟨stage, upstream, proxyAccepter, clientAddr⟩ := b
  cases stage with
  | setup =>
    unfold turn
    simp only
    split
    · exact .inl rfl
    all_goals
      next hrecv =>
      have := Link.recvDown_rank hrecv hdown
      simp only [rank, Stage.rank]
      omega
  | reply =>
    unfold turn
    simp only
    split
    · exact .inl rfl
    all_goals
      next hrecv =>
      have := Link.recvUp_rank hrecv hup
      simp only [rank, Stage.rank]
      omega
  | forward =>
    unfold turn
    simp only
    split
    · exact .inl rfl
    · next hrecv =>
      have := Link.recvDown_rank hrecv hdown
      simp only [rank, Link.sendDown]
      omega
  | connect | send | success | relay =>
    simp only [turn, rank, Stage.rank, Link.sendDown, Link.sendUp]
    omega
  | bind | ended | failed => exact .inl rfl

theorem Bridge.up_rank (b : Bridge) (l next : Link) (hup : next.up.length ≤ 2) :
    b.up l next = (l, next) ∨ b.rank (b.up l next).1 (b.up l next).2 < b.rank l next := by
  unfold up
  split
  · split
    · exact .inl rfl
    · next hrecv =>
      have := Link.recvUp_rank hrecv hup
      simp only [rank, Link.sendUp]
      omega
  · exact .inl rfl

theorem Bridge.act_rank (b : Bridge) (l next : Link) (hdown : l.down.length ≤ 2)
    (hup : next.up.length ≤ 2) (a : Act) : b.act l next a = (b, l, next) ∨
      (b.act l next a).1.rank (b.act l next a).2.1 (b.act l next a).2.2 < b.rank l next := by
  cases a with
  | turn => exact b.turn_rank l next hdown hup
  | up =>
    rcases b.up_rank l next hup with h | h
    · exact .inl (congrArg (b, ·) h)
    · exact .inr h
  | listen proxy =>
    obtain ⟨stage, upstream, proxyAccepter, clientAddr⟩ := b
    cases stage with
    | bind =>
      simp only [act, listen, rank, Stage.rank]
      omega
    | _ => exact .inl rfl
  | fail e =>
    obtain ⟨stage, upstream, proxyAccepter, clientAddr⟩ := b
    cases stage with
    | ended | failed => exact .inl rfl
    | _ =>
      simp only [act, rank, Stage.rank]
      omega
  | bound => exact .inl rfl

theorem Answers.length_le (h : Answers p chain up) : up.length ≤ 2 := by
  cases h with
  | nothing | failed | success | yes => simp

theorem length_le_of_script {down : List Message} (h : down <+: p.script) : down.length ≤ 2 :=
  h.length_le

theorem Chain.rank_congr (chain : Chain) {l l' : Link} (h : l'.downRead = l.downRead) :
    chain.rank l' = chain.rank l := by
  cases chain with
  | server => rfl
  | bridge => simp only [rank, Bridge.rank, h]

theorem Chain.Reached.act_rank {chain : Chain} {l : Link} (h : chain.Reached p l)
    (hdown : l.down <+: p.script) (n : Nat) (a : Act) : chain.act p n a l = (chain, l) ∨
      (chain.act p n a l).1.rank (chain.act p n a l).2 < chain.rank l := by
  induction chain generalizing n l with
  | server s =>
    cases n with
    | zero =>
      rcases s.act_rank (p := p) l a with hact | hlt
      · exact .inl (by simp only [Chain.act, hact])
      · exact .inr hlt
    | succ n => exact .inl rfl
  | bridge b next rest ih =>
    obtain ⟨hb, hrest⟩ := h
    cases n with
    | zero =>
      rcases b.act_rank l next (length_le_of_script hdown) hrest.answers.length_le a with hact | hlt
      · exact .inl (by simp only [Chain.act, hact])
      · have heq := rest.rank_congr (b.act_used l next a).downRead
        refine .inr ?_
        simp only [Chain.act]
        generalize b.act l next a = r at hlt heq
        obtain ⟨b', l', next'⟩ := r
        simp only [rank] at hlt heq ⊢
        omega
    | succ n =>
      rcases ih hrest (hb.down hdown) n with hact | hlt
      · exact .inl (by simp only [Chain.act, hact])
      · have heq := (rest.act_served p n a next).upRead
        refine .inr ?_
        simp only [Chain.act, rank, Bridge.rank, heq]
        omega

/-! ## When nobody can go on -/

def Act.Harmless : Act → Prop
  | .fail _ => False
  | _ => True

/-- Nobody fails at the event. -/
def System.Event.Harmless : System.Event → Prop
  | .client => True
  | .clientFails _ => False
  | .party _ a => a.Harmless

/-- Nothing can happen any more unless somebody fails. -/
def System.Quiet (p : Parties) (s : System) : Prop := ∀ e, e.Harmless → s.step p e = s

/-- The same of a chain. -/
def Chain.Quiet (p : Parties) (chain : Chain) (l : Link) : Prop :=
  ∀ n a, a.Harmless → chain.act p n a l = (chain, l)

theorem Chain.Quiet.behind {rest : Chain} (h : (Chain.bridge b next rest).Quiet p l) :
    rest.Quiet p next := by
  intro n a ha
  have := h (n + 1) a ha
  simp only [act, Prod.mk.injEq, Chain.bridge.injEq, and_true, true_and] at this
  exact Prod.ext this.2 this.1

theorem Link.length_le_of_recvDown {l : Link} (h : l.recvDown = none) :
    l.down.length ≤ l.downRead := by
  rw [recvDown, Option.map_eq_none_iff] at h
  exact List.getElem?_eq_none_iff.1 h

theorem Link.length_le_of_recvUp {l : Link} (h : l.recvUp = none) : l.up.length ≤ l.upRead := by
  rw [recvUp, Option.map_eq_none_iff] at h
  exact List.getElem?_eq_none_iff.1 h

/-- A quiet server has answered whatever it was sent. -/
theorem Server.Reached.answered {s : Server} {l : Link} (h : s.Reached p l.downRead l.up)
    (hdown : l.down <+: p.script) (hle : l.downRead ≤ l.down.length)
    (hquiet : (Chain.server s).Quiet p l) (hfailure : s.failure = none) :
    l.up.length = l.down.length := by
  have hturn : s.turn p l = (s, l) := by
    have := hquiet 0 .turn trivial
    simp only [Chain.act, Server.act, Prod.mk.injEq, Chain.server.injEq] at this
    exact Prod.ext this.1 this.2
  have hbound : ∀ r, s.bound r = s := fun r => by
    have := hquiet 0 (.bound r) trivial
    simp only [Chain.act, Server.act, Prod.mk.injEq, Chain.server.injEq] at this
    exact this.1
  have hlength := length_le_of_script hdown
  generalize hn : l.downRead = n at h hle
  generalize hup : l.up = up at h
  cases h with
  | setup =>
    rcases Link.recvDown_first hdown hn with hrecv | hrecv
    · have := Link.length_le_of_recvDown hrecv
      simp only [List.length_nil]
      omega
    · simp [Server.turn, hrecv, Parties.setupMessage] at hturn
  | config =>
    rcases Link.recvDown_second hdown hn with hrecv | hrecv
    · have := Link.length_le_of_recvDown hrecv
      simp only [List.length_singleton]
      omega
    · simp [Server.turn, hrecv] at hturn
  | bind =>
    have := hbound (.error "")
    simp [Server.bound] at this
  | refuse | unsent | success | answer | start => simp [Server.turn] at hturn
  | done =>
    simp only [List.length_cons, List.length_nil]
    omega
  | refused | silent | failed => cases hfailure

theorem Chain.not_refused {chain : Chain} (h : chain.failures = []) : ¬ chain.Refused err := by
  induction chain with
  | server s =>
    intro hrefused
    unfold Refused at hrefused
    simp [failures, Server.failure, hrefused] at h
  | bridge b next rest ih => exact ih (List.append_eq_nil_iff.1 h).2

theorem Link.sendDown_ne (l : Link) (m : Message) : l.sendDown m ≠ l := fun h => by
  have := congrArg (·.down.length) h
  simp [sendDown] at this

theorem Link.sendUp_ne (l : Link) (m : Message) : l.sendUp m ≠ l := fun h => by
  have := congrArg (·.up.length) h
  simp [sendUp] at this

theorem Bridge.recvDown_of_turn {b : Bridge} (hb : b.stage = .forward)
    (h : b.turn l next = (b, l, next)) : l.recvDown = none := by
  cases hrecv : l.recvDown with
  | none => rfl
  | some r =>
    simp only [turn, hb, hrecv, Prod.mk.injEq] at h
    exact absurd h.2.2 (next.sendDown_ne r.1)

theorem Bridge.recvUp_of_up {b : Bridge} (hb : b.stage = .forward) (h : b.up l next = (l, next)) :
    next.recvUp = none := by
  cases hrecv : next.recvUp with
  | none => rfl
  | some r =>
    simp only [up, hb, hrecv, Prod.mk.injEq] at h
    exact absurd h.1 (l.sendUp_ne r.1)

/-- A quiet bridge has passed on whatever it was sent, and the answers. -/
theorem Bridge.Reached.answered {b : Bridge} {l next : Link} (h : b.Reached p l next)
    (hdown : l.down <+: p.script) (hquiet : (Chain.bridge b next rest).Quiet p l)
    (hfailure : b.failure = none) (hrest : Answers p rest next.up)
    (hrefused : ∀ err, ¬ rest.Refused err)
    (hanswered : next.up.length = next.down.length) : l.up.length = l.down.length := by
  have hturn : b.turn l next = (b, l, next) := by
    have := hquiet 0 .turn trivial
    simp only [Chain.act, Bridge.act, Prod.mk.injEq, Chain.bridge.injEq, and_true] at this
    exact Prod.ext this.1.1 (Prod.ext this.2 this.1.2)
  have hup : b.up l next = (l, next) := by
    have := hquiet 0 .up trivial
    simp only [Chain.act, Bridge.act, Prod.mk.injEq, Chain.bridge.injEq, and_true, true_and] at this
    exact Prod.ext this.2 this.1
  have hlisten : ∀ proxy, b.listen proxy = b := fun proxy => by
    have := hquiet 0 (.listen proxy) trivial
    simp only [Chain.act, Bridge.act, Prod.mk.injEq, Chain.bridge.injEq, and_true] at this
    exact this
  cases h with
  | @setup _ down =>
    cases down with
    | nil => rfl
    | cons m down =>
      obtain ⟨rfl, -⟩ := List.cons_prefix_cons.1 hdown
      simp [Bridge.turn, Link.recvDown, Parties.setupMessage] at hturn
  | connect | send | success | relay => simp [Bridge.turn] at hturn
  | @reply _ _ _ _ ups =>
    cases hrest with
    | nothing => cases hanswered
    | failed | success | yes => simp [Bridge.turn, Link.recvUp] at hturn
  | bind =>
    have := hlisten (.many [])
    simp [Bridge.listen] at this
  | forward =>
    have hahead := Link.length_le_of_recvDown (Bridge.recvDown_of_turn rfl hturn)
    have hbehind := Link.length_le_of_recvUp (Bridge.recvUp_of_up rfl hup)
    simp only [List.length_cons, List.length_append] at hahead hbehind hanswered ⊢
    omega
  | ended =>
    cases hrest with
    | failed h => exact absurd h (hrefused _)
  | failed => cases hfailure

theorem Chain.Reached.answered {chain : Chain} {l : Link} (h : chain.Reached p l)
    (hdown : l.down <+: p.script) (hquiet : chain.Quiet p l) (hfailures : chain.failures = []) :
    l.up.length = l.down.length := by
  induction chain generalizing l with
  | server s => exact h.1.answered hdown h.2 hquiet (Option.toList_eq_nil_iff.1 hfailures)
  | bridge b next rest ih =>
    obtain ⟨hb, hrest⟩ := List.append_eq_nil_iff.1 hfailures
    exact h.1.answered hdown hquiet (Option.toList_eq_nil_iff.1 hb) h.2.answers
      (fun _ => Chain.not_refused hrest) (ih h.2 (h.1.down hdown) hquiet.behind hrest)

/-! ## The whole -/

namespace System

variable {s : System} {events : List Event}

theorem Inv.step_rank (h : s.Inv p) (e : Event) :
    s.step p e = s ∨ (s.step p e).rank < s.rank := by
  cases e with
  | client =>
    rcases s.client.turn_rank (p := p) s.link with hturn | hlt
    · exact .inl (by simp only [System.step, hturn])
    · have heq := s.chain.rank_congr (s.client.turn_used p s.link).downRead
      refine .inr ?_
      simp only [System.step, System.rank, heq]
      omega
  | clientFails e =>
    obtain ⟨client, link, chain⟩ := s
    cases client with
    | done | failed => exact .inl rfl
    | _ =>
      simp only [System.step, System.rank, Client.Stage.rank]
      omega
  | party n a =>
    rcases h.chain.act_rank h.client.down n a with hact | hlt
    · exact .inl (by simp only [System.step, hact])
    · refine .inr ?_
      simp only [System.step, System.rank]
      omega

theorem start_rank (p : Parties) : (start p).rank = 10 + 12 * p.bridges.length := by
  have hchain : ∀ bridges config,
      (Chain.start bridges config).rank .new = 6 + 12 * bridges.length := by
    intro bridges config
    induction bridges with
    | nil => rfl
    | cons upstream bridges ih =>
      simp only [Chain.start, Chain.rank, ih, List.length_cons]
      simp only [Bridge.rank, Bridge.Stage.rank, Link.new]
      omega
  have hrank : (start p).rank = 4 + (Chain.start p.bridges p.serverConfig).rank .new := rfl
  rw [hrank, hchain]
  omega

theorem Inv.done (h : s.Inv p) (hquiet : s.Quiet p) (hfailures : s.failures = []) :
    ∃ server visit, s.client = .done server visit := by
  obtain ⟨hclient, hchain⟩ := List.append_eq_nil_iff.1 hfailures
  have hanswered := h.chain.answered h.client.down
    (fun n a ha => by
      have := hquiet (.party n a) ha
      exact Prod.ext (congrArg System.chain this) (congrArg System.link this)) hchain
  have hanswers := h.chain.answers
  have hturn := hquiet .client trivial
  obtain ⟨hinv, -⟩ := h
  obtain ⟨c, l, chain⟩ := s
  simp only at hinv hanswered hanswers hturn hclient hchain ⊢
  cases hinv with
  | setup | config => simp [System.step, Client.Stage.turn] at hturn
  | reply =>
    cases hanswers with
    | nothing => cases hanswered
    | failed | success | yes => simp [System.step, Client.Stage.turn, Link.recvUp] at hturn
  | configured =>
    cases hanswers with
    | success => cases hanswered
    | yes => simp [System.step, Client.Stage.turn, Link.recvUp, yes] at hturn
  | done => exact ⟨_, _, rfl⟩
  | refused | failed => cases hclient

/-- However long the chain is and whatever fails in it, only so many events change anything; and
when nobody can go on, the client is done unless somebody has failed. -/
theorem settles (p : Parties)
    (hmoves : Admissible (step p) (fun e s => step p e s ≠ s) (start p) events) :
    events.length ≤ 10 + 12 * p.bridges.length ∧
      ((after (step p) (start p) events).Quiet p →
        (∃ server visit, (after (step p) (start p) events).client = .done server visit) ∨
          (after (step p) (start p) events).failures ≠ []) := by
  constructor
  · rw [← start_rank]
    exact length_le_rank rank (I := Inv p) (fun _ e h => h.step e) (fun _ e h => h.step_rank e)
      (start_inv p) hmoves
  · intro hquiet
    by_cases hfailures : (after (step p) (start p) events).failures = []
    · exact .inl ((inv_after p events).done hquiet hfailures)
    · exact .inr hfailures

theorem settles_sample : sampleRun.length ≤ 10 + 12 * sample.bridges.length ∧
    ((after (step sample) (start sample) sampleRun).Quiet sample →
      (∃ server visit, (after (step sample) (start sample) sampleRun).client =
        .done server visit) ∨
      (after (step sample) (start sample) sampleRun).failures ≠ []) := by
  refine settles sample ?_
  unfold sampleRun
  repeat refine admissible_cons.2 ⟨nofun, ?_⟩
  exact admissible_nil

end System
end Fuso.Setup

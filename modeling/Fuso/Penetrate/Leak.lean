import Fuso.Penetrate.Server

/-!
# Pending mappings

`Tidy`: every id in the wait list belongs to a visitor whose task still waits under it. The id of a
visitor is taken before the result of the mock is looked at, and nothing gives it back when the task
ends, so a state is left tidy by all events but those that end a task with its id in the list
(`tidy_iff`).
-/

namespace Fuso

variable {id id' : UInt32}

/-- The task waits for a data connection under `id`. -/
def Task.Pending (id : UInt32) : Task → Prop
  | .send id' _ | .wait id' => id' = id
  | _ => False

theorem Task.Pending.unique {t : Task} (h : t.Pending id) (h' : t.Pending id') : id = id' := by
  cases t with
  | send | wait => exact h.symm.trans h'
  | mock | copy | ended => exact h.elim

/-- The visitor waits under `id`, and nothing has been sent to its channel. -/
structure Visitor.Waits (id : UInt32) (vis : Visitor) : Prop where
  pending : vis.task.Pending id
  channel : vis.channel = none
  closed : vis.closed = false

namespace Penetrate

/-- Every id in the wait list belongs to a visitor that waits for its data connection. -/
def Tidy (s : Penetrate) : Prop :=
  ∀ id v, s.mqueue.lookup id = some v → ∃ task, s.task v = some task ∧ task.Pending id

/-- The event ends the task of a visitor whose id is in the wait list, or is put there. -/
def Leaks (e : Event) (s : Penetrate) : Prop :=
  s.stopped = false ∧ match e with
  | .mocked v peer => s.task v = some .mock ∧ peer ≠ .route ∧ (s.mqueue.push v).isSome
  | .timeout v => ∃ id, s.mqueue.lookup id = some v
  | _ => False

/-- A tidy server. Nothing was sent to the channels in the wait list, nor to those that will be put
there. -/
structure Waiting (s : Penetrate) : Prop where
  waits : ∀ id v, s.mqueue.lookup id = some v → ∃ vis, s.visitors[v]? = some vis ∧ vis.Waits id
  fresh : ∀ (v : Nat) (vis : Visitor), s.visitors[v]? = some vis → vis.task = .mock →
    vis.channel = none ∧ vis.closed = false

variable {s s' : Penetrate} {v w : Nat}

theorem Waiting.tidy (h : Waiting s) : Tidy s := by
  intro id v hid
  obtain ⟨vis, hvis, hw⟩ := h.waits id v hid
  exact ⟨vis.task, task_eq_some.2 ⟨vis, hvis, rfl⟩, hw.pending⟩

theorem waiting_new : Waiting .new := ⟨by simp [Penetrate.new], by simp [Penetrate.new]⟩

/-- One visitor changes, and the wait list loses entries or none. -/
theorem Waiting.modify (h : Waiting s) {f : Visitor → Visitor}
    (hqueue : ∀ id w, s'.mqueue.lookup id = some w → s.mqueue.lookup id = some w)
    (hvisitors : s'.visitors = s.visitors.modify v f)
    (hwaits : ∀ id vis, s'.mqueue.lookup id = some v → s.visitors[v]? = some vis → vis.Waits id →
      (f vis).Waits id)
    (hfresh : ∀ vis, s.visitors[v]? = some vis → (f vis).task = .mock → vis.task = .mock ∧
      (f vis).channel = vis.channel ∧ (f vis).closed = vis.closed) : Waiting s' := by
  constructor
  · intro id w hid
    obtain ⟨vis, hvis, hw⟩ := h.waits id w (hqueue id w hid)
    rw [hvisitors, getElem?_modify]
    split
    · next hvw =>
      subst hvw
      exact ⟨f vis, by rw [hvis]; rfl, hwaits id vis hid hvis hw⟩
    · exact ⟨vis, hvis, hw⟩
  · intro w vis hvis hmock
    obtain ⟨vis', hvis', ⟨rfl, rfl⟩ | ⟨-, rfl⟩⟩ := exists_of_modify (hvisitors ▸ hvis)
    · obtain ⟨hmock', hchannel, hclosed⟩ := hfresh vis' hvis' hmock
      rw [hchannel, hclosed]
      exact h.fresh v vis' hvis' hmock'
    · exact h.fresh w vis hvis' hmock

/-- The task of a visitor goes on, and waits as it did if its id is in the wait list. -/
theorem Waiting.goOn (h : Waiting s) {t : Task} (hmock : t ≠ .mock)
    (hwaits : ∀ id (vis : Visitor), s.mqueue.lookup id = some v → s.visitors[v]? = some vis →
      vis.task.Pending id → t.Pending id) : Waiting (s.goOn v t) :=
  h.modify (fun _ _ hid => hid) rfl
    (fun id vis hid hvis hw => ⟨hwaits id vis hid hvis hw.pending, hw.channel, hw.closed⟩)
    fun _ _ h => absurd h hmock

theorem Waiting.stop : Waiting s.stop := by
  refine ⟨by simp [Penetrate.stop], ?_⟩
  intro v vis hvis hmock
  obtain ⟨vis', -, rfl⟩ := exists_of_stop hvis
  cases hmock

theorem Waiting.requests (h : Waiting s) (requests : List Request) :
    Waiting { s with requests } := ⟨h.waits, h.fresh⟩

/-- An answer takes the id of the visitor that it is for out of the wait list. -/
theorem Waiting.answered (h : Waiting s) {f : Visitor → Visitor}
    (hf : ∀ vis : Visitor, (f vis).task = vis.task) : Waiting (s.answered i id f) := by
  have hqueue : ∀ k w, (s.mqueue.remove id).1.lookup k = some w →
      k ≠ id ∧ s.mqueue.lookup k = some w := by
    intro k w hk
    rw [MQueue.lookup_remove] at hk
    split at hk
    · cases hk
    · exact ⟨‹_›, hk⟩
  unfold Penetrate.answered
  split
  · next hrem =>
    have hq := congrArg Prod.fst hrem
    exact ⟨fun k w hk => h.waits k w (hqueue k w (hq ▸ hk)).2, h.fresh⟩
  · next v hrem =>
    have hq := congrArg Prod.fst hrem
    have hid : s.mqueue.lookup id = some v := congrArg Prod.snd hrem
    obtain ⟨vis₀, hvis₀, hw₀⟩ := h.waits id v hid
    refine h.modify (fun k w hk => (hqueue k w (hq ▸ hk)).2) rfl ?_ ?_
    · intro k vis hk hvis hw
      obtain rfl : vis₀ = vis := Option.some.inj (hvis₀.symm.trans hvis)
      exact absurd (hw.pending.unique hw₀.pending) (hqueue k v (hq ▸ hk)).1
    · intro vis hvis hmock
      obtain rfl : vis₀ = vis := Option.some.inj (hvis₀.symm.trans hvis)
      rw [hf] at hmock
      exact absurd hw₀.pending (by simp [hmock, Task.Pending])

/-- A visitor to be routed waits under the id it takes. -/
theorem Waiting.mocked (h : Waiting s) (hmock : s.task v = some .mock) :
    Waiting (s.mocked v .route) := by
  unfold Penetrate.mocked
  split
  · exact h
  · next mqueue id hpush =>
    obtain ⟨vis, hvis, ht⟩ := task_eq_some.1 hmock
    obtain ⟨hchannel, hclosed⟩ := h.fresh v vis hvis ht
    constructor
    · intro k w hk
      replace hk : mqueue.lookup k = some w := hk
      rw [MQueue.lookup_push hpush] at hk
      simp only [Penetrate.goOn, getElem?_modify]
      split at hk
      · next hkid =>
        obtain rfl := Option.some.inj hk
        rw [if_pos rfl, hvis]
        exact ⟨_, rfl, hkid.symm, hchannel, hclosed⟩
      · obtain ⟨vis', hvis', hw'⟩ := h.waits k w hk
        by_cases hvw : v = w
        · subst hvw
          obtain rfl : vis = vis' := Option.some.inj (hvis.symm.trans hvis')
          exact absurd hw'.pending (by simp [ht, Task.Pending])
        · rw [if_neg hvw]
          exact ⟨vis', hvis', hw'⟩
    · intro w vis' hvis' hmock'
      obtain ⟨vis₁, hvis₁, ⟨-, rfl⟩ | ⟨-, rfl⟩⟩ := exists_of_modify hvis'
      · cases hmock'
      · exact h.fresh w vis' hvis₁ hmock'

theorem Waiting.visit (h : Waiting s) : Waiting { s with visitors := s.visitors ++ [.new] } := by
  constructor
  · intro id v hid
    obtain ⟨vis, hvis, hw⟩ := h.waits id v hid
    exact ⟨vis, getElem?_visit hvis, hw⟩
  · intro v vis hvis hmock
    rcases of_visit hvis with hvis | rfl
    · exact h.fresh v vis hvis hmock
    · exact ⟨rfl, rfl⟩

/-- The task goes from one point at which it waits to another one. -/
theorem Waiting.goOn_pending (h : Waiting s) (ht : s.task v = some t) (hmock : t' ≠ .mock)
    (hp : ∀ id, t.Pending id → t'.Pending id) : Waiting (s.goOn v t') :=
  h.goOn hmock fun id _ _ hvis hpending => hp id (task_of_getElem? ht hvis ▸ hpending)

/-- A visitor that waits has nothing to receive as long as its id is in the wait list. -/
theorem Waiting.recv (h : Waiting s) (ht : s.task v = some (.wait k)) :
    Waiting { s with visitors := s.visitors.modify v Visitor.recv } := by
  refine h.modify (fun _ _ hid => hid) rfl (fun id vis hid hvis hw => ?_) fun vis hvis hmock => ?_
  · simpa [Visitor.recv, hw.channel, hw.closed] using hw
  · have hwait := task_of_getElem? ht hvis
    obtain ⟨conn, -, hrecv⟩ | ⟨-, hrecv⟩ | hrecv := vis.recv_cases <;>
      simp [hrecv, hwait] at hmock

theorem Waiting.handles (h : Waiting s) (hrun : s.stopped = false) (hok : ¬Leaks e s)
    (H : Handles s e s' ds) : Waiting s' := by
  cases H with
  | idle => exact h
  | visit => exact h.visit
  | @mocked v peer hmock =>
    by_cases hpeer : peer = .route
    · exact hpeer ▸ h.mocked hmock
    · have hfull : s.mqueue.push v = none := by
        by_contra hpush
        exact hok ⟨hrun, hmock, hpeer, Option.isSome_iff_ne_none.2 hpush⟩
      have hsame : s.mocked v peer = s := by simp only [Penetrate.mocked, hfull]
      rwa [hsame]
  | mockFailed hmock => exact h.goOn_pending hmock nofun fun _ hp => hp.elim
  | @write v k ht =>
    have hout : Waiting (s.goOn v (.send k true)) := h.goOn_pending ht nofun fun _ hp => hp
    exact hout.requests _
  | sent ht => exact h.goOn_pending ht nofun fun _ hp => hp
  | sendFailed => exact .stop
  | recv ht => exact h.recv ht
  | copied ht => exact h.goOn_pending ht nofun fun _ hp => hp.elim
  | timeout => exact h.goOn nofun fun id _ hid => absurd ⟨hrun, id, hid⟩ hok
  | answer => exact h.requests _
  | accept => exact h.answered fun vis => vis.task_send _
  | mapError => exact h.answered fun _ => rfl
  | lose => exact h.requests _
  | clientError => exact .stop

theorem Waiting.step (h : Waiting s) (hok : ¬Leaks e s) : Waiting (s.step e) := by
  unfold Penetrate.step
  split
  · exact h
  · next hrun =>
    have hrun : s.stopped = false := by simpa using hrun
    exact h.handles hrun hok (Penetrate.handles hrun e)

/-- An event that leaks leaves an id of a task that has ended in the wait list. -/
theorem Waiting.leak (h : Waiting s) (hleak : Leaks e s) : ¬Tidy (s.step e) := by
  obtain ⟨hrun, hleak⟩ := hleak
  rw [step_of_running hrun]
  intro htidy
  cases e with
  | mocked v peer =>
    obtain ⟨hmock, hpeer, hpush⟩ := hleak
    obtain ⟨⟨mqueue, id⟩, hpush⟩ := Option.isSome_iff_exists.1 hpush
    have hended : s.handle (.mocked v peer) = { s with mqueue }.goOn v .ended := by
      cases peer with
      | route => exact absurd rfl hpeer
      | finished | unknown => simp only [Penetrate.handle, if_pos hmock, Penetrate.mocked, hpush]
    have hid : mqueue.lookup id = some v := by rw [MQueue.lookup_push hpush, if_pos rfl]
    rw [hended] at htidy
    obtain ⟨t, ht, hp⟩ := htidy id v hid
    have hmock' : ({ s with mqueue } : Penetrate).task v = some .mock := hmock
    rw [task_goOn hmock'] at ht
    obtain rfl := Option.some.inj ht
    exact hp
  | timeout v =>
    obtain ⟨id, hid⟩ := hleak
    obtain ⟨t₀, ht₀, -⟩ := h.tidy id v hid
    obtain ⟨t, ht, hp⟩ := htidy id v hid
    rw [Penetrate.handle, task_goOn ht₀] at ht
    obtain rfl := Option.some.inj ht
    exact hp
  | _ => exact hleak

/-- Along a run the wait list stays tidy exactly as long as no event leaks. -/
theorem tidy_iff (events : List Event) :
    (∀ pre, pre <+: events → Tidy (after step .new pre)) ↔
      Admissible step (fun e s => ¬Leaks e s) .new events :=
  after_iff (fun _ => Waiting.tidy) (fun _ _ => Waiting.step)
    (fun _ _ h htidy hleak => h.leak hleak htidy) waiting_new

/-- A visitor whose mock returns `Finished` leaves its id in the wait list. -/
theorem not_tidy : ¬∀ events, Tidy (after step .new events) := by
  intro h
  obtain ⟨t, ht, hp⟩ := h [.visit, .mocked 0 .finished] 0 0 rfl
  obtain rfl : Task.ended = t := Option.some.inj ht
  exact hp

end Penetrate
end Fuso

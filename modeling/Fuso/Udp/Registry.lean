import Fuso.Theory.Run
import Fuso.Udp.Datagram
import Mathlib.Data.Nat.Find
import Mathlib.Data.Set.Function
import Mathlib.Logic.Function.Basic

/-!
# Which session is registered

The virtual sockets of a `Datagram` next to its map of sessions. `connect` puts the session of a new
socket under the hash of its address, and a socket that is dropped spawns a task that removes what
is under that hash when it runs. Without the sockets these are runs of the `Datagram`
(`exists_datagram_run`). `kept_iff` says in which of them the newest socket of every address is the
registered one.
-/

namespace Fuso.Udp

/-- A virtual socket; its session lives on in the map when it is dropped. -/
structure Virtual (A : Type) where
  peerAddr : A
  ucore : Session
  dropped : Bool

/-- The sockets in the order of their connects, the map from hashes to the sessions of sockets, and
the removals that are spawned and have not run. -/
structure Registry (A : Type) where
  sockets : List (Virtual A)
  udpSessions : UInt64 → Option Nat
  spawned : List UInt64

namespace Registry

inductive Event (A : Type) where
  | connect (addr : A)
  | drop (i : Nat)
  /-- The spawned task at position `k` runs. -/
  | remove (k : Nat)
  | recv (addr : A) (data : Bytes)

/-- The addresses an event names. -/
def Event.addrs {A : Type} : Event A → List A
  | .connect addr | .recv addr _ => [addr]
  | _ => []

variable {A : Type}

def new : Registry A := ⟨[], fun _ => none, []⟩

/-- A datagram for the session of socket `i`. -/
def input (s : Registry A) (i : Nat) (data : Bytes) : Registry A :=
  { s with sockets := s.sockets.modify i fun v => { v with ucore := (v.ucore.input data).1 } }

/-- The receive buffer holds 1500 bytes. -/
def step (hash : A → UInt64) : Event A → Registry A → Registry A
  | .connect addr, s =>
    { s with
      sockets := s.sockets ++ [⟨addr, .new, false⟩]
      udpSessions := Function.update s.udpSessions (hash addr) (some s.sockets.length) }
  | .drop i, s =>
    match s.sockets[i]? with
    | none => s
    | some v =>
      if v.dropped then s
      else { s with
        sockets := s.sockets.set i { v with dropped := true }
        spawned := s.spawned ++ [hash v.peerAddr] }
  | .remove k, s =>
    match s.spawned[k]? with
    | none => s
    | some id => { s with
      udpSessions := Function.update s.udpSessions id none, spawned := s.spawned.eraseIdx k }
  | .recv addr data, s =>
    match s.udpSessions (hash addr) with
    | some i => s.input i (data.take 1500)
    | none => s

/-- Socket `i` is one for `addr` and has not been dropped. -/
def Live (s : Registry A) (addr : A) (i : Nat) : Prop :=
  ∃ v, s.sockets[i]? = some v ∧ v.peerAddr = addr ∧ v.dropped = false

/-- Of the sockets for `addr` that have not been dropped `i` was connected last. -/
def Newest (s : Registry A) (addr : A) (i : Nat) : Prop :=
  s.Live addr i ∧ ∀ j, s.Live addr j → j ≤ i

/-- The newest socket of every address is registered for it, and every datagram from there is input
to it. -/
def Kept (hash : A → UInt64) (s : Registry A) : Prop :=
  ∀ addr i, s.Newest addr i → s.udpSessions (hash addr) = some i ∧
    ∀ data, step hash (.recv addr data) s = s.input i (data.take 1500)

/-- A drop does not hit the newest of several sockets of an address, and a removal runs when no
socket is left for its address. -/
def Harmless (hash : A → UInt64) (e : Event A) (s : Registry A) : Prop :=
  match e with
  | .drop i => ∀ addr, s.Newest addr i → ∀ j, s.Live addr j → j = i
  | .remove k => ∀ id ∈ s.spawned[k]?, ∀ addr i, s.Live addr i → hash addr ≠ id
  | _ => True

variable {hash : A → UInt64} {s : Registry A} {addr : A} {i : Nat}

theorem kept_iff_registered :
    Kept hash s ↔ ∀ addr i, s.Newest addr i → s.udpSessions (hash addr) = some i := by
  refine ⟨fun h addr i hi => (h addr i hi).1, fun h addr i hi => ⟨h addr i hi, fun data => ?_⟩⟩
  simp only [step, h addr i hi]

/-! ## What the events do to the live sockets -/

theorem Live.lt (h : s.Live addr i) : i < s.sockets.length := by
  obtain ⟨v, hv, -⟩ := h
  exact (List.getElem?_eq_some_iff.1 hv).1

theorem live_input {k : Nat} {data : Bytes} : (s.input k data).Live addr i ↔ s.Live addr i := by
  simp only [Live, input, List.getElem?_modify]
  cases s.sockets[i]? with
  | none => simp
  | some v =>
    by_cases h : k = i
    · simp [h]
    · simp [h]

theorem live_recv {a : A} {data : Bytes} :
    (step hash (.recv a data) s).Live addr i ↔ s.Live addr i := by
  simp only [step]
  split
  · exact live_input
  · rfl

theorem live_connect {a : A} :
    (step hash (.connect a) s).Live addr i ↔ s.Live addr i ∨ a = addr ∧ i = s.sockets.length := by
  simp only [Live, step, List.getElem?_append]
  split
  · next hlt =>
    exact (or_iff_left fun h => Nat.ne_of_lt hlt h.2).symm
  · next hge =>
    rw [List.getElem?_eq_none (Nat.not_lt.1 hge)]
    by_cases heq : i = s.sockets.length
    · simp [heq]
    · have : i - s.sockets.length ≠ 0 := by omega
      simp [heq, this]

theorem live_drop {k : Nat} :
    (step hash (.drop k) s).Live addr i ↔ s.Live addr i ∧ i ≠ k := by
  simp only [step]
  split
  · next hnone =>
    refine (and_iff_left_of_imp fun h => ?_).symm
    rintro rfl
    have := h.lt
    rw [List.getElem?_eq_none_iff] at hnone
    omega
  · next v hv =>
    split
    · next hdrop =>
      refine (and_iff_left_of_imp fun h => ?_).symm
      rintro rfl
      obtain ⟨w, hw, -, hlive⟩ := h
      rw [hv] at hw
      cases hw
      rw [hdrop] at hlive
      cases hlive
    · simp only [Live, List.getElem?_set]
      split
      · next heq =>
        subst heq
        simp
      · next hne => simp [Ne.symm hne]

theorem live_remove {k : Nat} :
    (step hash (.remove k) s).Live addr i ↔ s.Live addr i := by
  simp only [step]
  split <;> rfl

theorem exists_newest (h : s.Live addr i) : ∃ j, s.Newest addr j := by
  classical
  refine ⟨Nat.findGreatest (s.Live addr) s.sockets.length,
    Nat.findGreatest_spec (Nat.le_of_lt h.lt) h, fun j hj => ?_⟩
  exact Nat.le_findGreatest (Nat.le_of_lt hj.lt) hj

theorem sessions_drop {k : Nat} :
    (step hash (.drop k) s).udpSessions = s.udpSessions := by
  simp only [step]
  split
  · rfl
  · split <;> rfl

theorem sessions_recv {a : A} {data : Bytes} :
    (step hash (.recv a data) s).udpSessions = s.udpSessions := by
  simp only [step]
  split <;> rfl

/-! ## The sessions without the sockets -/

/-- The `Datagram` of the sockets. -/
def datagram (s : Registry A) : Datagram where
  udpSessions id := (s.udpSessions id).bind fun i => (s.sockets.map Virtual.ucore)[i]?
  receiving := true

/-- What an event is to the `Datagram`. -/
def shared (s : Registry A) : Event A → List (Datagram.Event A Error)
  | .connect addr => [.connect addr]
  | .drop _ => []
  | .remove k => (s.spawned[k]?.map .remove).toList
  | .recv addr data => [.recv (.received addr data)]

/-- What is registered is the session of a socket, under the hash of its address. -/
def Placed (hash : A → UInt64) (s : Registry A) : Prop :=
  ∀ id i, s.udpSessions id = some i → (s.sockets.map fun v => hash v.peerAddr)[i]? = some id

theorem map_drop {k : Nat} {f : Virtual A → B} (hf : ∀ v, f { v with dropped := true } = f v) :
    (step hash (.drop k) s).sockets.map f = s.sockets.map f := by
  simp only [step]
  split
  · rfl
  · next v hv =>
    split
    · rfl
    · obtain ⟨hlt, rfl⟩ := List.getElem?_eq_some_iff.1 hv
      rw [List.map_set, hf, ← List.getElem_map f (h := by rwa [List.length_map]),
        List.set_getElem_self]

theorem map_input {data : Bytes} {f : Virtual A → B}
    (hf : ∀ (v : Virtual A) c, f { v with ucore := c } = f v) :
    (s.input i data).sockets.map f = s.sockets.map f := by
  refine List.ext_getElem? fun j => ?_
  simp only [input, List.getElem?_map, List.getElem?_modify]
  cases s.sockets[j]? with
  | none => rfl
  | some v =>
    by_cases h : i = j
    · simp [h, hf]
    · simp [h]

theorem Placed.step (h : Placed hash s) (e : Event A) : Placed hash (step hash e s) := by
  intro id i hi
  cases e with
  | connect a =>
    simp only [Registry.step, Function.update_apply, List.map_append] at hi ⊢
    split at hi
    · next hid =>
      cases hi
      simp [hid]
    · have hids := h id i hi
      have hlt := (List.getElem?_eq_some_iff.1 hids).1
      rwa [List.getElem?_append_left hlt]
  | drop k =>
    rw [sessions_drop] at hi
    rw [map_drop (fun _ => rfl)]
    exact h id i hi
  | remove k =>
    simp only [Registry.step] at hi ⊢
    split at hi
    · exact h id i hi
    · dsimp only at hi
      rw [Function.update_apply] at hi
      split at hi
      · cases hi
      · exact h id i hi
  | recv a data =>
    rw [sessions_recv] at hi
    simp only [Registry.step]
    split
    · rw [map_input (fun _ _ => rfl)]
      exact h id i hi
    · exact h id i hi

theorem datagram_connect (h : Placed hash s) (a : A) : (step hash (.connect a) s).datagram =
    Datagram.step hash (.connect a : Datagram.Event A Error) s.datagram := by
  simp only [datagram, step, Datagram.step, Datagram.mk.injEq, and_true]
  funext id
  simp only [Function.update_apply, List.map_append]
  split
  · simp
  · cases hid : s.udpSessions id with
    | none => rfl
    | some i =>
      have hlt := (List.getElem?_eq_some_iff.1 (h id i hid)).1
      rw [List.length_map] at hlt
      exact List.getElem?_append_left (by rwa [List.length_map])

theorem datagram_remove {k : Nat} {id : UInt64} (hk : s.spawned[k]? = some id) :
    (step hash (.remove k) s).datagram =
      Datagram.step hash (.remove id : Datagram.Event A Error) s.datagram := by
  simp only [datagram, step, hk, Datagram.step, Datagram.mk.injEq, and_true]
  funext id'
  simp only [Function.update_apply]
  split <;> rfl

theorem datagram_recv (h : Placed hash s) (a : A) (data : Bytes) :
    (step hash (.recv a data) s).datagram =
      Datagram.step hash (.recv (.received a data) : Datagram.Event A Error) s.datagram := by
  cases hreg : s.udpSessions (hash a) with
  | none => simp [step, hreg, Datagram.step, Datagram.recv, datagram]
  | some i =>
    have hi := h _ i hreg
    rw [List.getElem?_map] at hi
    obtain ⟨v, hv, hid⟩ := Option.map_eq_some_iff.1 hi
    simp only [step, hreg, Datagram.step, Datagram.recv, datagram, if_true, Option.bind_some,
      List.getElem?_map, hv, Option.map_some, Datagram.mk.injEq, and_true]
    funext id
    rw [Function.update_apply]
    split
    · next heq =>
      subst heq
      simp [input, hreg, hv]
    · next hne =>
      simp only [input]
      cases hid' : s.udpSessions id with
      | none => rfl
      | some j =>
        have hj := h id j hid'
        have hij : i ≠ j := by
          rintro rfl
          rw [List.getElem?_map, hv] at hj
          exact hne ((Option.some.inj hj).symm.trans hid)
        simp only [List.getElem?_modify, hij, if_false, Option.bind_some]
        cases s.sockets[j]? <;> rfl

/-- An event does to the shared `Datagram` what the receiver task, `connect` and the removals do. -/
theorem datagram_step (h : Placed hash s) (e : Event A) :
    (step hash e s).datagram = after (Datagram.step hash) s.datagram (s.shared e) := by
  cases e with
  | connect a => exact datagram_connect h a
  | drop k =>
    simp only [datagram, sessions_drop, map_drop (f := Virtual.ucore) fun _ => rfl, shared,
      after_nil]
  | remove k =>
    rw [shared]
    cases hk : s.spawned[k]? with
    | none => simp [step, hk]
    | some id => exact datagram_remove hk
  | recv a data => exact datagram_recv h a data

/-- The runs of the sockets are runs of a `Datagram`. -/
theorem exists_datagram_run (events : List (Event A)) : ∃ run : List (Datagram.Event A Error),
    (after (step hash) new events).datagram = after (Datagram.step hash) Datagram.new run := by
  have h : Placed hash (after (step hash) new events) ∧
      ∃ run : List (Datagram.Event A Error),
        (after (step hash) new events).datagram = after (Datagram.step hash) Datagram.new run := by
    apply after_invariant (I := fun s : Registry A => Placed hash s ∧
      ∃ run : List (Datagram.Event A Error),
        s.datagram = after (Datagram.step hash) Datagram.new run)
    · rintro s e ⟨hp, run, hrun⟩
      exact ⟨hp.step e, run ++ s.shared e, by rw [datagram_step hp, hrun, after_append]⟩
    · exact ⟨nofun, [], rfl⟩
  exact h.2

/-! ## Runs -/

/-- The newest sockets are registered, and all sockets are for addresses of `used`. -/
structure Valid (hash : A → UInt64) (used : Set A) (s : Registry A) : Prop where
  registered : ∀ addr i, s.Newest addr i → s.udpSessions (hash addr) = some i
  used : ∀ addr i, s.Live addr i → addr ∈ used

variable {used : Set A}

/-- Where the live sockets of an address and its session are the same, so is what is registered. -/
theorem Valid.registered_of_live {s' : Registry A} (h : Valid hash used s)
    (hlive : ∀ j, s'.Live addr j ↔ s.Live addr j)
    (hreg : s'.udpSessions (hash addr) = s.udpSessions (hash addr)) (hi : s'.Newest addr i) :
    s'.udpSessions (hash addr) = some i := by
  rw [hreg]
  exact h.registered addr i ⟨(hlive i).1 hi.1, fun j hj => hi.2 j ((hlive j).2 hj)⟩

theorem Valid.connect {a : A} (h : Valid hash used s) (hinj : Set.InjOn hash used)
    (ha : a ∈ used) : Valid hash used (step hash (.connect a) s) where
  registered addr i hi := by
    by_cases heq : a = addr
    · subst heq
      have hle := hi.2 _ (live_connect.2 (.inr ⟨rfl, rfl⟩))
      have hi : i = s.sockets.length := by
        rcases live_connect.1 hi.1 with hlive | hlast
        · have := hlive.lt
          omega
        · exact hlast.2
      rw [hi]
      exact Function.update_self ..
    · have hlive : ∀ j, (step hash (.connect a) s).Live addr j ↔ s.Live addr j :=
        fun j => live_connect.trans (or_iff_left fun h => heq h.1)
      refine h.registered_of_live hlive ?_ hi
      have haddr : addr ∈ used := h.used addr i ((hlive i).1 hi.1)
      exact Function.update_of_ne (fun hh => heq (hinj ha haddr hh.symm)) ..
  used addr i hi := by
    rcases live_connect.1 hi with hlive | ⟨rfl, -⟩
    · exact h.used addr i hlive
    · exact ha

theorem Valid.drop {k : Nat} (h : Valid hash used s) (hok : Harmless hash (.drop k) s) :
    Valid hash used (step hash (.drop k) s) where
  registered addr i hi := by
    obtain ⟨hlive, hne⟩ := live_drop.1 hi.1
    rw [sessions_drop]
    refine h.registered addr i ⟨hlive, fun j hj => ?_⟩
    by_cases hjk : j = k
    · -- Were the dropped socket a newer one, it would be the newest and not the only one.
      subst hjk
      by_contra hlt
      refine hne (hok addr ⟨hj, fun l hl => ?_⟩ i hlive)
      by_cases hlj : l = j
      · exact Nat.le_of_eq hlj
      · have := hi.2 l (live_drop.2 ⟨hl, hlj⟩)
        omega
    · exact hi.2 j (live_drop.2 ⟨hj, hjk⟩)
  used addr i hi := h.used addr i (live_drop.1 hi).1

theorem Valid.remove {k : Nat} (h : Valid hash used s) (hok : Harmless hash (.remove k) s) :
    Valid hash used (step hash (.remove k) s) where
  registered addr i hi := by
    refine h.registered_of_live (fun _ => live_remove) ?_ hi
    have hlive := live_remove.1 hi.1
    simp only [step]
    split
    · rfl
    · next id hid => exact Function.update_of_ne (hok id hid addr i hlive) ..
  used addr i hi := h.used addr i (live_remove.1 hi)

theorem Valid.recv {a : A} {data : Bytes} (h : Valid hash used s) :
    Valid hash used (step hash (.recv a data) s) where
  registered addr i hi :=
    h.registered_of_live (fun _ => live_recv) (by rw [sessions_recv]) hi
  used addr i hi := h.used addr i (live_recv.1 hi)

/-- A drop of the newest of several sockets leaves an older one that is not registered. -/
theorem Valid.harmless_drop {k : Nat} (h : Valid hash used s)
    (hkept : Kept hash (step hash (.drop k) s)) : Harmless hash (.drop k) s := by
  intro addr hk j hj
  by_contra hne
  obtain ⟨i, hi⟩ := exists_newest (live_drop.2 ⟨hj, hne⟩)
  have hreg := (hkept addr i hi).1
  rw [sessions_drop, h.registered addr k hk] at hreg
  exact (live_drop.1 hi.1).2 (Option.some.inj hreg).symm

/-- A removal with a socket left for its address leaves that one without a session in the map. -/
theorem harmless_remove {k : Nat} (hkept : Kept hash (step hash (.remove k) s)) :
    Harmless hash (.remove k) s := by
  intro id hid addr i hlive heq
  obtain ⟨j, hj⟩ := exists_newest (live_remove.2 hlive)
  have hreg := (hkept addr j hj).1
  have hsome : s.spawned[k]? = some id := hid
  simp [step, hsome, heq] at hreg

/-- The newest socket of every address stays registered in a run, if and only if no drop hits the
newest of several sockets of an address and no removal runs while there is a socket for its
address. -/
theorem kept_iff {events : List (Event A)}
    (hinj : Set.InjOn hash {a | ∃ e ∈ events, a ∈ e.addrs}) :
    (∀ pre, pre <+: events → Kept hash (after (step hash) new pre)) ↔
      Admissible (step hash) (Harmless hash) new events := by
  apply after_iff_of_mem (I := Valid hash {a | ∃ e ∈ events, a ∈ e.addrs})
  · intro s hs
    exact kept_iff_registered.2 hs.registered
  · intro s e he hs hok
    cases e with
    | connect a => exact hs.connect hinj ⟨_, he, List.mem_singleton_self a⟩
    | drop k => exact hs.drop hok
    | remove k => exact hs.remove hok
    | recv a data => exact hs.recv
  · intro s e _ hs hkept
    cases e with
    | connect a => trivial
    | drop k => exact hs.harmless_drop hkept
    | remove k => exact harmless_remove hkept
    | recv a data => trivial
  · have hnone : ∀ addr i, ¬ (new : Registry A).Live addr i := by
      rintro addr i ⟨v, hv, -⟩
      simp [new] at hv
    exact ⟨fun addr i hi => absurd hi.1 (hnone addr i), fun addr i hi => absurd hi (hnone addr i)⟩

/-- A reconnect behind the removal. -/
theorem kept_reconnect :
    Kept id (after (step id) new [.connect (7 : UInt64), .drop 0, .remove 0, .connect 7]) := by
  have hdrop : Harmless id (.drop 0) (after (step id) new [.connect (7 : UInt64)]) :=
    fun addr _ j hj => Nat.lt_one_iff.1 hj.lt
  have hremove : Harmless id (.remove 0)
      (after (step id) new [.connect (7 : UInt64), .drop 0]) := by
    intro _ _ addr i hlive
    rw [after_cons, after_cons, after_nil] at hlive
    obtain ⟨hold, hne⟩ := live_drop.1 hlive
    have hlt : i < 1 := hold.lt
    omega
  have hall : Admissible (step id) (Harmless id) new
      [.connect (7 : UInt64), .drop 0, .remove 0, .connect 7] :=
    admissible_cons.2 ⟨trivial, admissible_cons.2 ⟨hdrop,
      admissible_cons.2 ⟨hremove, admissible_cons.2 ⟨trivial, admissible_nil⟩⟩⟩⟩
  exact (kept_iff (Set.injOn_id _)).2 hall _ List.prefix_rfl

/-- A reconnect in front of the removal, with at most one socket at any time. -/
theorem not_kept : ¬ ∀ (hash : UInt64 → UInt64) (events : List (Event UInt64)),
    Set.InjOn hash {a | ∃ e ∈ events, a ∈ e.addrs} →
    ∀ pre, pre <+: events → Kept hash (after (step hash) new pre) := by
  intro h
  have hkept := h id [.connect 7, .drop 0, .connect 7, .remove 0] (Set.injOn_id _) _ List.prefix_rfl
  have hlive : Live (after (step id) new [.connect (7 : UInt64), .drop 0, .connect 7, .remove 0]) 7
      1 := ⟨⟨7, .new, false⟩, rfl, rfl, rfl⟩
  have hreg := (hkept 7 1 ⟨hlive, fun j hj => Nat.le_of_lt_succ hj.lt⟩).1
  cases hreg

end Registry
end Fuso.Udp

import Fuso.Penetrate.Accept
import Fuso.Protocol.Packet
import Fuso.Socks.Address

/-!
# `PenetrateClient::poll_generate`

The client polls its futures one after the other. One of them, `register_server_handle`, reads the
control stream until there is a `Poto::Map`; the client then starts a forward, or a reply that there
is none, and reads on. A call that does not fail keeps the futures that are not over
(`pollGenerate_keeps`), and there is always one that reads (`one_reader`).
-/

namespace Fuso

def SocketAddr.isDefault : SocketAddr → Bool
  | .v4 ip port => port == 0 && ip.toList.all (· == 0)
  | .v6 ip port => port == 0 && ip.toList.all (· == 0)

def Addr.isDefault : Addr → Bool
  | .socket addr => addr.isDefault
  | .domain .. => false

def Socket.defaultOr (s socket : Socket) : Socket :=
  if s.target.isDefault then { socket with isMixed := s.isMixed, kind := s.kind } else s

inductive Address where
  | one (socket : Socket)
  | many (sockets : List Socket)

/-- `Address::select`; `choose` is the choice of the random generator, and without a result the
error is `Kind::Improper`. -/
def Address.select (choose : List Socket → Option Socket) (a : Address) (socket : Socket) :
    Option Socket :=
  match a with
  | .one socket => some socket
  | .many sockets =>
    let sockets := sockets.filter fun s => socket.kind == .ufd || s.kind == socket.kind
    choose (sockets.filter (·.kind == .kcp)) <|> choose sockets

/-- The messages of a control stream, as far as the client tells them apart. -/
inductive Poto where
  | map (id : UInt32) (socket : Socket)
  | other

namespace PenetrateClient

/-- How a future of the client ends. -/
inductive State (B : Type u) where
  | leave (socket : Socket)
  | ready (fut : B)
  | map (id : UInt32) (socket : Socket)
  | error (e : Error)

/-- How a forward ends that has not failed. -/
inductive Forwarded (B : Type u) where
  | ready (fut : B)
  | error (e : Error)

/-- A future of the client: `register_server_handle`, `guard_server_heartbeat`, one of
`start_async_forward`, or the reply that there is nothing to forward to. -/
inductive Fut (B : Type u) where
  | register
  | heartbeat (script : Script Error)
  | forward (id : UInt32) (server target : Socket) (script : Script (Result (Forwarded B)))
  | reply (id : UInt32) (target : Socket) (script : Script (Result Unit))

/-- What a call meets: the decoder of messages, the random choices, and how the futures to come
answer to their polls, by their numbers. -/
structure World (B : Type u) where
  deserialize : Bytes → Result Poto
  choose : Nat → List Socket → Option Socket
  forward : Nat → Script (Result (Forwarded B))
  reply : Nat → Script (Result Unit)

/-- The control stream: how its `recv_packet` answers to polls. -/
abbrev Control := Script (Result Packet)

variable {B : Type u}

/-- A poll of `register_server_handle`. -/
def registerServerHandle (w : World B) : Control → Control × Poll (Result (State B))
  | [] => ([], .pending)
  | .pending :: control => (control, .pending)
  | .ready (.error e) :: control => (control, .ready (.ok (.error e)))
  | .ready (.ok packet) :: control =>
    match w.deserialize packet.payload with
    | .error e => (control, .ready (.ok (.error e)))
    | .ok (.map id socket) => (control, .ready (.ok (.map id socket)))
    | .ok .other => registerServerHandle w control

namespace Fut

def poll (w : World B) (control : Control) : Fut B → Fut B × Control × Poll (Result (State B))
  | .register => (.register, registerServerHandle w control)
  | .heartbeat script =>
    (.heartbeat script.poll.1, control,
      match script.poll.2 with
      | .pending => .pending
      | .ready e => .ready (.ok (.error e)))
  | .forward id server target script =>
    (.forward id server target script.poll.1, control,
      match script.poll.2 with
      | .pending => .pending
      | .ready (.error e) => .ready (.error e)
      | .ready (.ok (.error e)) => .ready (.ok (.error e))
      | .ready (.ok (.ready fut)) => .ready (.ok (.ready fut)))
  | .reply id target script =>
    (.reply id target script.poll.1, control,
      match script.poll.2 with
      | .pending => .pending
      | .ready (.ok ()) => .ready (.ok (.leave target))
      | .ready (.error e) => .ready (.ok (.error e)))

def isRegister : Fut B → Bool
  | .register => true
  | _ => false

end Fut

/-- A call of `poll_generate` on its way. -/
structure Generating (B : Type u) where
  pool : Pool (Fut B)
  control : Control

/-- The future that a `Poto::Map` starts. -/
def startMap (w : World B) (forward : Address × Socket) (number : Nat) (id : UInt32)
    (socket : Socket) : Fut B :=
  let target := socket.defaultOr forward.2
  match forward.1.select (w.choose number) target with
  | some server => .forward id server target (w.forward number)
  | none => .reply id target (w.reply number)

/-- A turn of the loop. -/
def Generating.turn (w : World B) (forward : Address × Socket) (s : Generating B) :
    Turn (Generating B) (Result (Option B)) :=
  match s.pool.work with
  | [] => .pending s
  | ⟨n, fut⟩ :: work =>
    match fut.poll w s.control with
    | (fut, control, .pending) => .again ⟨s.pool.keep n fut work, control⟩
    | (_, control, .ready (.ok (.error e))) => .ready ⟨s.pool.complete n work, control⟩ (.error e)
    | (_, control, .ready (.ok (.leave _))) => .again ⟨s.pool.complete n work, control⟩
    | (_, control, .ready (.ok (.map id socket))) =>
      let pool := s.pool.complete n work
      .again ⟨(pool.push (startMap w forward pool.all.length id socket)).push .register, control⟩
    | (_, control, .ready (.ok (.ready fut))) =>
      .ready ⟨(s.pool.complete n work).restore, control⟩ (.ok (some fut))
    | (_, control, .ready (.error _)) => .again ⟨s.pool.complete n work, control⟩

end PenetrateClient

/-- What `poll_generate` has to do with. -/
structure PenetrateClient (B : Type u) where
  forward : Address × Socket
  futures : List (PenetrateClient.Fut B)
  control : PenetrateClient.Control

namespace PenetrateClient
variable {B : Type u}

/-- `new`, with the heartbeat as it answers to its polls. -/
def new (forward : Address × Socket) (heartbeat : Script Error) (control : Control) :
    PenetrateClient B :=
  { forward, futures := [.heartbeat heartbeat, .register], control }

def start (c : PenetrateClient B) : Generating B := ⟨.take c.futures, c.control⟩

/-- The turns to come. -/
def Generating.left (s : Generating B) : Nat := 2 * s.control.length + s.pool.work.length

/-- `PenetrateClient::poll_generate`. -/
def pollGenerate (w : World B) (c : PenetrateClient B) :
    Turn (Generating B) (Result (Option B)) :=
  Turn.poll (Generating.turn w c.forward) (c.start.left + 1) c.start

/-! ## What a call keeps -/

/-- The `Poto::Map` messages in what was read. -/
def maps (w : World B) (read : Control) : List (UInt32 × Socket) :=
  read.filterMap fun
    | .ready (.ok packet) =>
      match w.deserialize packet.payload with
      | .ok (.map id socket) => some (id, socket)
      | _ => none
    | _ => none

/-- What a `Poto::Map` starts: one forward, or one reply when there is no suitable address. -/
inductive Starts (w : World B) (forward : Address × Socket) (id : UInt32) (socket : Socket) :
    Fut B → Prop where
  | forward {number : Nat} {server : Socket} (script : Script (Result (Forwarded B))) :
    forward.1.select (w.choose number) (socket.defaultOr forward.2) = some server →
    Starts w forward id socket (.forward id server (socket.defaultOr forward.2) script)
  | reply {number : Nat} (script : Script (Result Unit)) :
    forward.1.select (w.choose number) (socket.defaultOr forward.2) = none →
    Starts w forward id socket (.reply id (socket.defaultOr forward.2) script)

theorem starts_startMap (w : World B) (forward : Address × Socket) (number : Nat) (id : UInt32)
    (socket : Socket) :
    Starts w forward id socket (startMap w forward number id socket) := by
  unfold startMap
  simp only
  split
  · next hselect => exact .forward _ hselect
  · next hselect => exact .reply _ hselect

theorem Starts.isRegister {w : World B} {forward : Address × Socket} {id : UInt32}
    {socket : Socket} {fut : Fut B} (h : Starts w forward id socket fut) :
    fut.isRegister = false := by
  cases h <;> rfl

/-- Every `Poto::Map` that was read has started what it starts, and another reader. -/
def Started (w : World B) (c : PenetrateClient B) (control : Control) (pushed : List (Fut B)) :
    Prop :=
  ∃ read starts, c.control = read ++ control ∧
    (maps w read).Forall₂ (fun m => Starts w c.forward m.1 m.2) starts ∧
    pushed = starts.flatMap fun fut => [fut, .register]

/-- A pending poll leads from the one to the other. -/
def Fut.Pends (w : World B) (fut fut' : Fut B) : Prop :=
  ∃ control control', fut.poll w control = (fut', control', .pending)

/-- A poll is its end. -/
def Fut.Ends (w : World B) (fut : Fut B) : Prop :=
  ∃ control fut' control' r, fut.poll w control = (fut', control', .ready r)

/-! ## One poll -/

/-- `register_server_handle` reads up to the first `Poto::Map`, or to an error. -/
theorem registerServerHandle_cases (w : World B) (control : Control) :
    ∃ read, control = read ++ (registerServerHandle w control).1 ∧
      ((maps w read = [] ∧ ((registerServerHandle w control).2 = .pending ∨
          ∃ e, (registerServerHandle w control).2 = .ready (.ok (.error e)))) ∨
        ∃ id socket, maps w read = [(id, socket)] ∧ read ≠ [] ∧
          (registerServerHandle w control).2 = .ready (.ok (.map id socket))) := by
  induction control with
  | nil => exact ⟨[], rfl, .inl ⟨rfl, .inl rfl⟩⟩
  | cons answer control ih =>
    cases answer with
    | pending => exact ⟨[.pending], rfl, .inl ⟨rfl, .inl rfl⟩⟩
    | ready r =>
      cases r with
      | error e => exact ⟨[.ready (.error e)], rfl, .inl ⟨rfl, .inr ⟨e, rfl⟩⟩⟩
      | ok packet =>
        unfold registerServerHandle
        cases hpoto : w.deserialize packet.payload with
        | error e =>
          refine ⟨[.ready (.ok packet)], rfl, .inl ⟨?_, .inr ⟨e, rfl⟩⟩⟩
          simp [maps, hpoto]
        | ok poto =>
          cases poto with
          | map id socket =>
            refine ⟨[.ready (.ok packet)], rfl, .inr ⟨id, socket, ?_, nofun, rfl⟩⟩
            simp [maps, hpoto]
          | other =>
            obtain ⟨read, hread, hcases⟩ := ih
            have hmaps : maps w (.ready (.ok packet) :: read) = maps w read := by
              simp [maps, hpoto]
            refine ⟨.ready (.ok packet) :: read, congrArg _ hread, ?_⟩
            rw [hmaps]
            rcases hcases with hquiet | ⟨id, socket, hmap, -, hready⟩
            · exact .inl hquiet
            · exact .inr ⟨id, socket, hmap, nofun, hready⟩

namespace Fut

/-- Only `register_server_handle` reads the control stream. -/
theorem control_poll (w : World B) (control : Control) {fut : Fut B}
    (h : fut.isRegister = false) : (fut.poll w control).2.1 = control := by
  cases fut with
  | register => cases h
  | heartbeat | forward | reply => rfl

theorem isRegister_poll (w : World B) (control : Control) (fut : Fut B) :
    (fut.poll w control).1.isRegister = fut.isRegister := by
  cases fut <;> rfl

/-- Only it ends with a `Poto::Map`. -/
theorem poll_ne_map {w : World B} {control : Control} {fut : Fut B} (h : fut.isRegister = false)
    (id : UInt32) (socket : Socket) :
    (fut.poll w control).2.2 ≠ .ready (.ok (.map id socket)) := by
  intro hready
  cases fut with
  | register => cases h
  | heartbeat script =>
    simp only [poll] at hready
    split at hready <;> cases hready
  | forward _ _ _ script =>
    simp only [poll] at hready
    split at hready <;> cases hready
  | reply _ _ script =>
    simp only [poll] at hready
    split at hready <;> cases hready

/-- A poll that reads no `Poto::Map`. It ends the reader with an error only. -/
structure Quiet (w : World B) (control control' : Control) (fut : Fut B)
    (r : Poll (Result (State B))) : Prop where
  reads : ∃ read, control = read ++ control' ∧ maps w read = []
  register : fut.isRegister = true → r = .pending ∨ ∃ e, r = .ready (.ok (.error e))

section
variable {w : World B} {control control' : Control} {fut fut' : Fut B} {id : UInt32}
  {socket : Socket}

/-- A poll that reads a `Poto::Map` is the end of the reader. -/
theorem poll_map (h : fut.poll w control = (fut', control', .ready (.ok (.map id socket)))) :
    fut.isRegister = true ∧
      ∃ read, control = read ++ control' ∧ maps w read = [(id, socket)] ∧ read ≠ [] := by
  cases hreg : fut.isRegister with
  | false =>
    have hne : (fut.poll w control).2.2 ≠ _ := poll_ne_map hreg id socket
    rw [h] at hne
    exact absurd rfl hne
  | true =>
    cases fut with
    | register =>
      obtain ⟨-, hhandle⟩ := Prod.ext_iff.1 h
      simp only [poll] at hhandle
      obtain ⟨read, hread, hcases⟩ := registerServerHandle_cases w control
      rw [hhandle] at hread hcases
      rcases hcases with ⟨-, hpending | ⟨e, herror⟩⟩ | ⟨id', socket', hmaps, hne, hready⟩
      · cases hpending
      · cases herror
      · cases hready
        exact ⟨rfl, read, hread, hmaps, hne⟩
    | heartbeat | forward | reply => cases hreg

theorem poll_quiet (h : fut.poll w control = (fut', control', r))
    (hr : ∀ id socket, r ≠ .ready (.ok (.map id socket))) : Quiet w control control' fut r := by
  cases hreg : fut.isRegister with
  | false =>
    have hcontrol := control_poll w control hreg
    rw [h] at hcontrol
    exact ⟨⟨[], hcontrol.symm, rfl⟩, fun htrue => Bool.noConfusion (hreg.symm.trans htrue)⟩
  | true =>
    cases fut with
    | register =>
      obtain ⟨-, hhandle⟩ := Prod.ext_iff.1 h
      simp only [poll] at hhandle
      obtain ⟨read, hread, hcases⟩ := registerServerHandle_cases w control
      rw [hhandle] at hread hcases
      rcases hcases with ⟨hmaps, hend⟩ | ⟨id, socket, -, -, hready⟩
      · exact ⟨⟨read, hread, hmaps⟩, fun _ => hend⟩
      · exact absurd hready (hr id socket)
    | heartbeat | forward | reply => cases hreg

end
end Fut

/-! ## A whole call -/

/-- What holds all along a call: no future is lost or there twice, what was read has started what it
starts, and the number of readers stays. -/
structure Keeps (w : World B) (c : PenetrateClient B) (s : Generating B) : Prop where
  conserved : s.pool.Conserved (Fut.Pends w) (Fut.Ends w)
  found : s.pool.found = c.futures
  started : Started w c s.control s.pool.pushed
  readers : s.pool.live.countP Fut.isRegister = c.futures.countP Fut.isRegister

/-- What a call that does not fail has done. -/
structure Done (w : World B) (c : PenetrateClient B) (s : Generating B) : Prop where
  kept : s.pool.Kept (Fut.Pends w) (Fut.Ends w)
  found : s.pool.found = c.futures
  started : Started w c s.control s.pool.pushed
  readers : s.pool.futures.countP Fut.isRegister = c.futures.countP Fut.isRegister

/-- What a call has done when it is pending. -/
structure Waits (w : World B) (c : PenetrateClient B) (s : Generating B) : Prop
    extends Done w c s where
  polled : ∀ t ∈ s.pool.stored, t.number ∈ s.pool.polled

section
variable {w : World B} {c : PenetrateClient B} {s : Generating B} {control : Control}
  {pushed : List (Fut B)}

theorem keeps_start (w : World B) (c : PenetrateClient B) : Keeps w c c.start where
  conserved := Pool.conserved_take c.futures
  found := rfl
  started := ⟨[], [], rfl, .nil, rfl⟩
  readers := by rw [start, Pool.live_take]

theorem maps_append (read more : Control) : maps w (read ++ more) = maps w read ++ maps w more :=
  List.filterMap_append

theorem Started.quiet {control' : Control} (h : Started w c control pushed)
    (hquiet : ∃ read, control = read ++ control' ∧ maps w read = []) :
    Started w c control' pushed := by
  obtain ⟨read, starts, hread, hstarts, hpushed⟩ := h
  obtain ⟨more, hmore, hmaps⟩ := hquiet
  refine ⟨read ++ more, starts, ?_, ?_, hpushed⟩
  · rw [hread, hmore, List.append_assoc]
  · rw [maps_append, hmaps, List.append_nil]
    exact hstarts

theorem Started.map {control' : Control} {fut : Fut B} {id : UInt32} {socket : Socket}
    (h : Started w c control pushed) (hstarts : Starts w c.forward id socket fut)
    (hread : ∃ read, control = read ++ control' ∧ maps w read = [(id, socket)]) :
    Started w c control' (pushed ++ [fut] ++ [.register]) := by
  obtain ⟨read, starts, hread', hall, hpushed⟩ := h
  obtain ⟨more, hmore, hmaps⟩ := hread
  refine ⟨read ++ more, starts ++ [fut], ?_, ?_, ?_⟩
  · rw [hread', hmore, List.append_assoc]
  · rw [maps_append, hmaps]
    exact List.rel_append hall (.cons hstarts .nil)
  · rw [List.flatMap_append, hpushed, List.append_assoc]
    rfl

theorem Keeps.drained (h : Keeps w c s) (hwork : s.pool.work = []) : Waits w c s where
  kept := (h.conserved.drained hwork).1
  found := h.found
  started := h.started
  readers := (congrArg _ (Pool.futures_drained hwork)).trans h.readers
  polled := (h.conserved.drained hwork).2

/-- A call that returns stores what it has not polled. -/
theorem Keeps.restore (h : Keeps w c s) : Done w c { s with pool := s.pool.restore } where
  kept := h.conserved.restored
  found := h.found
  started := h.started
  readers := (congrArg _ s.pool.futures_restore).trans h.readers

section
variable {fut fut' : Fut B} {work : List (Pooled (Fut B))} {control' : Control}

theorem left_quiet (hwork : s.pool.work = ⟨n, fut⟩ :: work)
    (hreads : ∃ read, s.control = read ++ control' ∧ maps w read = []) {pool : Pool (Fut B)}
    (hpool : pool.work = work) : Generating.left ⟨pool, control'⟩ < s.left := by
  obtain ⟨read, hread, -⟩ := hreads
  simp only [Generating.left, hread, hwork, hpool, List.length_append, List.length_cons]
  omega

/-- The first future is pending. -/
theorem Keeps.keep (h : Keeps w c s) (hwork : s.pool.work = ⟨n, fut⟩ :: work)
    (hpoll : fut.poll w s.control = (fut', control', .pending)) :
    Keeps w c ⟨s.pool.keep n fut' work, control'⟩ ∧
      Generating.left ⟨s.pool.keep n fut' work, control'⟩ < s.left := by
  have hquiet := Fut.poll_quiet hpoll nofun
  have hreg : fut'.isRegister = fut.isRegister := by
    have h := fut.isRegister_poll w s.control
    rwa [hpoll] at h
  have hcount := Pool.countP_keep Fut.isRegister hwork hreg
  rw [h.readers] at hcount
  exact ⟨⟨h.conserved.keep hwork ⟨_, _, hpoll⟩, h.found, h.started.quiet hquiet.reads, hcount⟩,
    left_quiet hwork hquiet.reads rfl⟩

/-- The first future is over, and was not the reader. -/
theorem Keeps.complete (h : Keeps w c s) (hwork : s.pool.work = ⟨n, fut⟩ :: work)
    (hpoll : fut.poll w s.control = (fut', control', .ready r))
    (hmap : ∀ id socket, r ≠ .ok (.map id socket)) (herror : ∀ e, r ≠ .ok (.error e)) :
    Keeps w c ⟨s.pool.complete n work, control'⟩ ∧
      Generating.left ⟨s.pool.complete n work, control'⟩ < s.left := by
  have hquiet := Fut.poll_quiet hpoll fun id socket h => hmap id socket (Poll.ready.inj h)
  have hreg : fut.isRegister ≠ true := fun hreg => by
    rcases hquiet.register hreg with hpending | ⟨e, he⟩
    · cases hpending
    · exact herror e (Poll.ready.inj he)
  have hcount := Pool.countP_complete Fut.isRegister hwork
  rw [if_neg hreg, Nat.add_zero, h.readers] at hcount
  exact ⟨⟨h.conserved.complete hwork ⟨_, _, _, _, hpoll⟩, h.found, h.started.quiet hquiet.reads,
    hcount⟩, left_quiet hwork hquiet.reads rfl⟩

/-- The reader is over, and another one is there with what the `Poto::Map` starts. -/
theorem Keeps.map {id : UInt32} {socket : Socket} (h : Keeps w c s)
    (hwork : s.pool.work = ⟨n, fut⟩ :: work)
    (hpoll : fut.poll w s.control = (fut', control', .ready (.ok (.map id socket)))) :
    Keeps w c ⟨((s.pool.complete n work).push (startMap w c.forward number id socket)).push
      .register, control'⟩ := by
  obtain ⟨hreg, read, hread, hmaps, -⟩ := Fut.poll_map hpoll
  have hstarts := starts_startMap w c.forward number id socket
  refine ⟨((h.conserved.complete hwork ⟨_, _, _, _, hpoll⟩).push _).push _, h.found,
    h.started.map hstarts ⟨read, hread, hmaps⟩, ?_⟩
  have hcount := Pool.countP_complete Fut.isRegister hwork
  rw [hreg, h.readers] at hcount
  rw [Pool.countP_push, Pool.countP_push, hstarts.isRegister]
  exact hcount

theorem left_map {id : UInt32} {socket : Socket} {fut₁ : Fut B}
    (hwork : s.pool.work = ⟨n, fut⟩ :: work)
    (hpoll : fut.poll w s.control = (fut', control', .ready (.ok (.map id socket)))) :
    Generating.left ⟨((s.pool.complete n work).push fut₁).push .register, control'⟩ < s.left := by
  obtain ⟨-, read, hread, -, hne⟩ := Fut.poll_map hpoll
  have := List.length_pos_iff.2 hne
  simp only [Generating.left, hread, hwork, Pool.push, Pool.complete, List.length_append,
    List.length_cons]
  omega

end

theorem Keeps.turn (h : Keeps w c s) :
    (∃ s', s.turn w c.forward = .again s' ∧ Keeps w c s' ∧ s'.left < s.left) ∨
      (∃ s', s.turn w c.forward = .pending s' ∧ Waits w c s') ∨
      ∃ s' r, s.turn w c.forward = .ready s' r ∧ ∀ o, r = .ok o → Done w c s' := by
  unfold Generating.turn
  cases hwork : s.pool.work with
  | nil => exact .inr (.inl ⟨s, rfl, h.drained hwork⟩)
  | cons t work =>
    obtain ⟨n, fut⟩ := t
    simp only
    split
    · next fut' control heq => exact .inl ⟨_, rfl, h.keep hwork heq⟩
    · exact .inr (.inr ⟨_, _, rfl, nofun⟩)
    · next control socket heq =>
      exact .inl ⟨_, rfl,
        h.complete hwork heq (fun _ _ hmap => nomatch hmap) fun _ herror => nomatch herror⟩
    · next control id socket heq =>
      exact .inl ⟨_, rfl, h.map hwork heq, left_map hwork heq⟩
    · next control fut heq =>
      have hkeeps :=
        h.complete hwork heq (fun _ _ hmap => nomatch hmap) fun _ herror => nomatch herror
      exact .inr (.inr ⟨_, _, rfl, fun _ _ => hkeeps.1.restore⟩)
    · next control e heq =>
      exact .inl ⟨_, rfl,
        h.complete hwork heq (fun _ _ hmap => nomatch hmap) fun _ herror => nomatch herror⟩

end

/-- A call of `poll_generate` is over, and one that does not fail has kept the futures that are not
over and started one forward or one reply for every `Poto::Map`. One that is pending has polled all
that it stores. -/
theorem pollGenerate_keeps (w : World B) (c : PenetrateClient B) :
    (∃ s, c.pollGenerate w = .pending s ∧ Waits w c s) ∨
      ∃ s r, c.pollGenerate w = .ready s r ∧ ∀ o, r = .ok o → Done w c s :=
  Turn.poll_post (Generating.turn w c.forward) Generating.left (fun _ h => h.turn)
    (keeps_start w c) (Nat.lt_succ_self _)

/-- More turns change nothing. -/
theorem pollGenerate_eq (w : World B) (c : PenetrateClient B) (hn : c.start.left < n) :
    Turn.poll (Generating.turn w c.forward) n c.start = c.pollGenerate w := by
  refine Turn.poll_mono (fun s hs => ?_) hn
  rcases pollGenerate_keeps w c with ⟨s', hpending, -⟩ | ⟨s', r, hready, -⟩
  · cases hs.symm.trans hpending
  · cases hs.symm.trans hready

/-! ## Calls one after the other -/

/-- What a call leaves. -/
def Generating.client (s : Generating B) (c : PenetrateClient B) : PenetrateClient B :=
  { c with futures := s.pool.futures, control := s.control }

/-- The clients that calls lead to which do not fail. -/
inductive Reachable : PenetrateClient B → Prop where
  | new (forward : Address × Socket) (heartbeat : Script Error) (control : Control) :
    Reachable (new forward heartbeat control)
  | pending : Reachable c → c.pollGenerate w = .pending s → Reachable (s.client c)
  | ready : Reachable c → c.pollGenerate w = .ready s (.ok o) → Reachable (s.client c)

/-- There is always one future that reads the control stream. -/
theorem Reachable.one_reader {c : PenetrateClient B} (h : Reachable c) :
    c.futures.countP Fut.isRegister = 1 := by
  induction h with
  | new => rfl
  | @pending c w s _ hpoll ih =>
    rcases pollGenerate_keeps w c with ⟨s', hpending, hwaits⟩ | ⟨s', r, hready, -⟩
    · cases hpoll.symm.trans hpending
      exact hwaits.readers.trans ih
    · cases hpoll.symm.trans hready
  | @ready c w s o _ hpoll ih =>
    rcases pollGenerate_keeps w c with ⟨s', hpending, -⟩ | ⟨s', r, hready, hdone⟩
    · cases hpoll.symm.trans hpending
    · cases hpoll.symm.trans hready
      exact (hdone o rfl).readers.trans ih

end PenetrateClient

/-- Neither scheduler loses a future or has one twice, in no call that does not fail: the server
makes each connection that was accepted into one future, and the client starts one forward or one
reply for each `Poto::Map`. A call that is pending has polled all that it stores, and the server's
accepter was pending at last. The client's control stream has one reader, and no other future reads
it. -/
theorem schedulers_keep_futures :
    (∀ (S : Type u) (B : Type v) (w : Penetrate.World S B) (p : Penetrate.Futures S B),
      (∀ n, p.start.left < n →
        Turn.poll (Penetrate.Accepting.turn w) n p.start = p.pollAccept w) ∧
      ((∃ s, p.pollAccept w = .pending s ∧ Penetrate.Accepting.Waits p s) ∨
        ∃ s r, p.pollAccept w = .ready s r ∧
          ∀ o, r = .ok o → Penetrate.Accepting.Done p s)) ∧
    (∀ (B : Type u) (w : PenetrateClient.World B) (c : PenetrateClient B),
      (∀ n, c.start.left < n →
        Turn.poll (PenetrateClient.Generating.turn w c.forward) n c.start = c.pollGenerate w) ∧
      ((∃ s, c.pollGenerate w = .pending s ∧ PenetrateClient.Waits w c s) ∨
        ∃ s r, c.pollGenerate w = .ready s r ∧ ∀ o, r = .ok o → PenetrateClient.Done w c s)) ∧
    (∀ (B : Type u) (c : PenetrateClient B), PenetrateClient.Reachable c →
      c.futures.countP PenetrateClient.Fut.isRegister = 1) ∧
    ∀ (B : Type u) (w : PenetrateClient.World B) (control : PenetrateClient.Control)
      (fut : PenetrateClient.Fut B),
      fut.isRegister = false → (fut.poll w control).2.1 = control :=
  ⟨fun _ _ w p => ⟨fun _ => Penetrate.pollAccept_eq w p, Penetrate.pollAccept_keeps w p⟩,
    fun _ w c => ⟨fun _ => PenetrateClient.pollGenerate_eq w c,
      PenetrateClient.pollGenerate_keeps w c⟩,
    fun _ _ h => h.one_reader, fun _ w control _ h => PenetrateClient.Fut.control_poll w control h⟩

/-- A server with a connection to accept. -/
def Penetrate.oneVisit : Penetrate.Futures Unit Unit := ⟨[], ⟨[.ready (.ok ())], []⟩⟩

def Penetrate.idleWorld : Penetrate.World Unit Unit := ⟨fun _ _ => [], fun _ _ => []⟩

/-- A client with a message to read, which is a `Poto::Map`. -/
def PenetrateClient.oneMap : PenetrateClient Unit :=
  .new (.one (.tcp (.domain "fuso" 80)), .tcp (.domain "local" 80)) []
    [.ready (.ok (makePacket [7])), .pending]

def PenetrateClient.mapWorld : PenetrateClient.World Unit where
  deserialize _ := .ok (.map 7 (.tcp (.domain "target" 80)))
  choose _ sockets := sockets.head?
  forward _ := []
  reply _ := []

/-- The connection has a handler, and the client a forward and again a reader. -/
theorem schedulers_keep_futures_new :
    (∃ s, Penetrate.oneVisit.pollAccept Penetrate.idleWorld = .pending s ∧
      Penetrate.Accepting.Waits Penetrate.oneVisit s ∧ s.answers = [.ready (.visit ()), .pending] ∧
      Penetrate.handled s.pool.futures = [.visit ()]) ∧
    ∃ s, PenetrateClient.oneMap.pollGenerate PenetrateClient.mapWorld = .pending s ∧
      PenetrateClient.Waits PenetrateClient.mapWorld PenetrateClient.oneMap s ∧
      s.pool.futures.length = 3 ∧
      (s.client PenetrateClient.oneMap).futures.countP PenetrateClient.Fut.isRegister = 1 := by
  obtain ⟨haccept, hgenerate, hreaders, -⟩ := schedulers_keep_futures.{0, 0}
  have hserver : ∃ s, Penetrate.oneVisit.pollAccept Penetrate.idleWorld = .pending s ∧
      s.answers = [.ready (.visit ()), .pending] ∧
      Penetrate.handled s.pool.futures = [.visit ()] := ⟨_, rfl, rfl, rfl⟩
  have hclient : ∃ s, PenetrateClient.oneMap.pollGenerate PenetrateClient.mapWorld = .pending s ∧
      s.pool.futures.length = 3 := ⟨_, rfl, rfl⟩
  obtain ⟨s, hs, hanswers, hhandled⟩ := hserver
  obtain ⟨s', hs', hfutures⟩ := hclient
  refine ⟨⟨s, hs, ?_, hanswers, hhandled⟩, s', hs', ?_, hfutures, ?_⟩
  · rcases (haccept _ _ Penetrate.idleWorld Penetrate.oneVisit).2 with
      ⟨t, ht, hwaits⟩ | ⟨t, r, ht, -⟩
    · cases hs.symm.trans ht
      exact hwaits
    · cases hs.symm.trans ht
  · rcases (hgenerate _ PenetrateClient.mapWorld PenetrateClient.oneMap).2 with
      ⟨t, ht, hwaits⟩ | ⟨t, r, ht, -⟩
    · cases hs'.symm.trans ht
      exact hwaits
    · cases hs'.symm.trans ht
  · exact hreaders _ _ (.pending (.new _ _ _) hs')

end Fuso

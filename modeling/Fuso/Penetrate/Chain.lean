import Fuso.Penetrate.Setup
import Fuso.Theory.Run

/-!
# The mapping that is set up

Whatever stands between a client and its server, and whatever fails, what the client holds for the
mapping is what the chain has set up (`agreement`), the error it stops with is the one that the
server met (`failures_explained`), and the parties never wait for one another (`settles`).
-/

namespace Fuso.Setup

variable (p : Parties)

def Parties.setupMessage : Message := .bind (.setup p.channelSocket p.forward.1)

/-- What the client sends. -/
def Parties.script : List Message := [p.setupMessage, .config p.config]

/-! ## What a chain has set up -/

namespace Chain

/-- Where the first party listens for data connections. -/
def accepter : Chain → Option Accepter
  | .server s => s.accepters.map (·.1)
  | .bridge b _ _ => b.proxyAccepter

/-- Where the server listens for visitors. -/
def visitAccepter : Chain → Option Accepter
  | .server s => s.accepters.map (·.2)
  | .bridge _ _ rest => rest.visitAccepter

def serverConfig : Chain → Server.Config
  | .server s => s.config
  | .bridge _ _ rest => rest.serverConfig

/-- The server could not bind its accepters, for this reason. -/
def Refused (err : String) : Chain → Prop
  | .server s => s.stage = .failed (.bind err)
  | .bridge _ _ rest => rest.Refused err

/-- Every bridge relays data connections to where the party behind it listens for them. -/
def Linked : Chain → Prop
  | .server _ => True
  | .bridge b _ rest =>
    (∃ addr, rest.accepter = some ⟨p.channelSocket, addr⟩ ∧
      b.clientAddr = some (addr.defaultSocket b.upstream.target)) ∧ rest.Linked

/-- The chain listens where the client asked it to, at these addresses. -/
structure Bound (chain : Chain) (client visit : Address) : Prop where
  accepter : chain.accepter = some ⟨p.channelSocket, client⟩
  visit : chain.visitAccepter = some ⟨p.forward.1, visit⟩
  linked : chain.Linked p

end Chain

/-! ## What has failed -/

def Client.Stage.failure : Client.Stage → Option Failure
  | .failed f => some f
  | _ => none

def Server.failure (s : Server) : Option Failure :=
  match s.stage with
  | .failed f => some f
  | _ => none

def Bridge.failure (b : Bridge) : Option Failure :=
  match b.stage with
  | .failed f => some f
  | _ => none

def Chain.failures : Chain → List Failure
  | .server s => s.failure.toList
  | .bridge b _ rest => b.failure.toList ++ rest.failures

def System.failures (s : System) : List Failure := s.client.failure.toList ++ s.chain.failures

/-- What was sent up to the client says what became of the chain. -/
inductive Answers (chain : Chain) : List Message → Prop
  | nothing : Answers chain []
  | failed (h : chain.Refused err) : Answers chain [.bind (.failed err)]
  | success (h : chain.Bound p client visit) : Answers chain [.bind (.success client visit)]
  | yes (h : chain.Bound p client visit)
      (hconfig : chain.serverConfig = p.serverConfig.update p.config) :
      Answers chain [.bind (.success client visit), yes]

/-- A party has stopped for a reason that is not the negotiation's, or because the server could not
bind its accepters. -/
def Failure.Explained (chain : Chain) : Failure → Prop
  | .io _ => True
  | .bind err | .message err => chain.Refused err
  | .unexpected _ | .deserialize => False

/-! ## The states that are reached -/

/-- The accepters of a server at these addresses. -/
def Parties.accepters (client visit : Address) : Option (Accepter × Accepter) :=
  some (⟨p.channelSocket, client⟩, ⟨p.forward.1, visit⟩)

/-- A server, the number of messages it has received, and those it has sent. -/
inductive Server.Reached : Server → Nat → List Message → Prop
  | setup : Reached ⟨.setup, p.serverConfig, none⟩ 0 []
  | bind : Reached ⟨.bind p.channelSocket p.forward.1, p.serverConfig, none⟩ 1 []
  | refuse : Reached ⟨.refuse err, p.serverConfig, none⟩ 1 []
  | unsent : Reached ⟨.unsent err, p.serverConfig, none⟩ 1 []
  | success : Reached ⟨.success client visit, p.serverConfig, p.accepters client visit⟩ 1 []
  | config : Reached ⟨.config, p.serverConfig, p.accepters client visit⟩ 1
      [.bind (.success client visit)]
  | answer : Reached ⟨.answer p.config, p.serverConfig, p.accepters client visit⟩ 2
      [.bind (.success client visit)]
  | start : Reached ⟨.start, p.serverConfig.update p.config, p.accepters client visit⟩ 2
      [.bind (.success client visit), yes]
  | done : Reached ⟨.done, p.serverConfig.update p.config, p.accepters client visit⟩ 2
      [.bind (.success client visit), yes]
  | refused : Reached ⟨.failed (.bind err), p.serverConfig, none⟩ 1 [.bind (.failed err)]
  | silent : Reached ⟨.failed (.bind err), p.serverConfig, none⟩ 1 []
  | failed (h : Reached s n up) (hs : ∀ f, s.stage ≠ .failed f) :
      Reached { s with stage := .failed (.io e) } n up

/-- A bridge between its two connections. -/
inductive Bridge.Reached : Bridge → Link → Link → Prop
  | setup : Reached ⟨.setup, socket, none, none⟩ ⟨down, 0, [], upRead⟩ ⟨[], downRead, ups, 0⟩
  | connect : Reached ⟨.connect p.channelSocket p.forward.1, socket, none, none⟩
      ⟨p.setupMessage :: down, 1, [], upRead⟩ ⟨[], downRead, ups, 0⟩
  | send : Reached ⟨.send p.channelSocket p.forward.1, socket, none, none⟩
      ⟨p.setupMessage :: down, 1, [], upRead⟩ ⟨[], downRead, ups, 0⟩
  | reply : Reached ⟨.reply p.channelSocket, socket, none, none⟩
      ⟨p.setupMessage :: down, 1, [], upRead⟩ ⟨[p.setupMessage], downRead, ups, 0⟩
  | bind : Reached ⟨.bind p.channelSocket client visit, socket, none, none⟩
      ⟨p.setupMessage :: down, 1, [], upRead⟩
      ⟨[p.setupMessage], downRead, .bind (.success client visit) :: ups, 1⟩
  | success : Reached ⟨.success proxy client visit, socket, some ⟨p.channelSocket, proxy⟩, none⟩
      ⟨p.setupMessage :: down, 1, [], upRead⟩
      ⟨[p.setupMessage], downRead, .bind (.success client visit) :: ups, 1⟩
  | forward {socket : Socket} {proxy client visit : Address} {down ahead ups behind : List Message}
      {downRead upRead : Nat} : Reached ⟨.forward, socket, some ⟨p.channelSocket, proxy⟩,
        some (client.defaultSocket socket.target)⟩
      ⟨p.setupMessage :: (down ++ ahead), down.length + 1, .bind (.success proxy visit) :: ups,
        upRead⟩
      ⟨p.setupMessage :: down, downRead, .bind (.success client visit) :: (ups ++ behind),
        ups.length + 1⟩
  | relay : Reached ⟨.relay (.bind (.failed err)), socket, none, none⟩
      ⟨p.setupMessage :: down, 1, [], upRead⟩
      ⟨[p.setupMessage], downRead, .bind (.failed err) :: ups, 1⟩
  | ended : Reached ⟨.ended, socket, none, none⟩
      ⟨p.setupMessage :: down, 1, [.bind (.failed err)], upRead⟩
      ⟨[p.setupMessage], downRead, .bind (.failed err) :: ups, 1⟩
  | failed (h : Reached b l next) : Reached { b with stage := .failed (.io e) } l next

/-- The parties of a chain, behind the connection to its first one. -/
def Chain.Reached : Chain → Link → Prop
  | .server s, l => s.Reached p l.downRead l.up ∧ l.downRead ≤ l.down.length
  | .bridge b next rest, l => b.Reached p l next ∧ rest.Reached next

/-- A client and its connection. -/
inductive Client.Reached : Client.Stage → Link → Prop
  | setup : Reached .setup ⟨[], downRead, up, 0⟩
  | reply : Reached .reply ⟨[p.setupMessage], downRead, up, 0⟩
  | config : Reached (.config server visit)
      ⟨[p.setupMessage], downRead, .bind (.success server visit) :: up, 1⟩
  | configured : Reached (.configured server visit)
      ⟨p.script, downRead, .bind (.success server visit) :: up, 1⟩
  | done : Reached (.done (server.defaultSocket p.serverAddress.target)
        (visit.defaultSocket p.serverAddress.target))
      ⟨p.script, downRead, [.bind (.success server visit), yes], 2⟩
  | refused : Reached (.failed (.message err))
      ⟨[p.setupMessage], downRead, .bind (.failed err) :: up, 1⟩
  | failed (h : Reached c l) : Reached (.failed (.io e)) l

structure System.Inv (s : System) : Prop where
  client : Client.Reached p s.client s.link
  chain : s.chain.Reached p s.link

variable {p}

/-! ## Connections -/

/-- What the party at the lower end does to a connection. -/
structure Link.Served (l l' : Link) : Prop where
  down : l'.down = l.down
  upRead : l'.upRead = l.upRead
  up : l.up <+: l'.up

/-- What the party at the upper end does to a connection. -/
structure Link.Used (l l' : Link) : Prop where
  up : l'.up = l.up
  downRead : l'.downRead = l.downRead
  down : l.down <+: l'.down

namespace Link

theorem Served.refl (l : Link) : l.Served l := ⟨rfl, rfl, List.prefix_rfl⟩

theorem Used.refl (l : Link) : l.Used l := ⟨rfl, rfl, List.prefix_rfl⟩

theorem served_sendUp (l : Link) (m : Message) : l.Served (l.sendUp m) :=
  ⟨rfl, rfl, List.prefix_append _ _⟩

theorem used_sendDown (l : Link) (m : Message) : l.Used (l.sendDown m) :=
  ⟨rfl, rfl, List.prefix_append _ _⟩

theorem recvDown_eq_some {l l' : Link} : l.recvDown = some (m, l') ↔
    l.down[l.downRead]? = some m ∧ l' = { l with downRead := l.downRead + 1 } := by
  simp [recvDown, eq_comm]

theorem recvUp_eq_some {l l' : Link} : l.recvUp = some (m, l') ↔
    l.up[l.upRead]? = some m ∧ l' = { l with upRead := l.upRead + 1 } := by
  simp [recvUp, eq_comm]

/-- What comes down is the next message of the script. -/
theorem recvDown_script {l : Link} (hdown : l.down <+: p.script) : l.recvDown = none ∨
    ∃ m, p.script[l.downRead]? = some m ∧
      l.recvDown = some (m, { l with downRead := l.downRead + 1 }) := by
  cases hrecv : l.recvDown with
  | none => exact .inl rfl
  | some r =>
    obtain ⟨m, l'⟩ := r
    obtain ⟨hm, rfl⟩ := recvDown_eq_some.1 hrecv
    obtain ⟨hlt, hget⟩ := List.getElem?_eq_some_iff.1 hm
    have hscript := List.prefix_iff_getElem?.1 hdown l.downRead hlt
    rw [hget] at hscript
    exact .inr ⟨m, hscript, rfl⟩

theorem recvDown_first {l : Link} (hdown : l.down <+: p.script) (h : l.downRead = 0) :
    l.recvDown = none ∨ l.recvDown = some (p.setupMessage, { l with downRead := 1 }) := by
  rcases recvDown_script hdown with hrecv | ⟨m, hm, hrecv⟩
  · exact .inl hrecv
  · rw [h] at hm hrecv
    obtain rfl : p.setupMessage = m := Option.some.inj hm
    exact .inr hrecv

theorem recvDown_second {l : Link} (hdown : l.down <+: p.script) (h : l.downRead = 1) :
    l.recvDown = none ∨ l.recvDown = some (.config p.config, { l with downRead := 2 }) := by
  rcases recvDown_script hdown with hrecv | ⟨m, hm, hrecv⟩
  · exact .inl hrecv
  · rw [h] at hm hrecv
    obtain rfl : .config p.config = m := Option.some.inj hm
    exact .inr hrecv

end Link

/-! ## The server -/

namespace Server

theorem turn_served (p : Parties) (s : Server) (l : Link) : l.Served (s.turn p l).2 := by
  have hrecv : ∀ {m l'}, l.recvDown = some (m, l') → l.Served l' := by
    intro m l' h
    obtain ⟨-, rfl⟩ := Link.recvDown_eq_some.1 h
    exact ⟨rfl, rfl, List.prefix_rfl⟩
  unfold turn
  split
  case h_1 => split <;> first | exact .refl l | exact hrecv ‹_›
  case h_4 => split <;> first | exact .refl l | exact hrecv ‹_›
  all_goals first | exact .refl l | exact l.served_sendUp _

theorem act_served (p : Parties) (s : Server) (l : Link) (a : Act) : l.Served (s.act p l a).2 := by
  cases a with
  | turn => exact s.turn_served p l
  | fail e =>
    unfold act
    simp only
    split <;> exact .refl l
  | up | bound | listen => exact .refl l

theorem act_downRead (p : Parties) (s : Server) (l : Link) (a : Act)
    (h : l.downRead ≤ l.down.length) :
    (s.act p l a).2.downRead ≤ (s.act p l a).2.down.length := by
  have hrecv : ∀ {m l'}, l.recvDown = some (m, l') → l'.downRead ≤ l'.down.length := by
    intro m l' h
    obtain ⟨hm, rfl⟩ := Link.recvDown_eq_some.1 h
    exact (List.getElem?_eq_some_iff.1 hm).1
  cases a with
  | turn =>
    unfold act turn
    simp only
    split
    case h_1 | h_4 => split <;> first | exact h | exact hrecv ‹_›
    all_goals exact h
  | fail e =>
    unfold act
    simp only
    split <;> exact h
  | up | bound | listen => exact h

namespace Reached

theorem turn {s : Server} {l : Link} (h : s.Reached p l.downRead l.up)
    (hdown : l.down <+: p.script) :
    (s.turn p l).1.Reached p (s.turn p l).2.downRead (s.turn p l).2.up := by
  generalize hn : l.downRead = n at h
  generalize hup : l.up = up at h
  cases h with
  | setup =>
    rcases Link.recvDown_first hdown hn with hrecv | hrecv
    · simp only [Server.turn, hrecv, hn, hup]
      exact .setup
    · simp only [Server.turn, hrecv, hup, Parties.setupMessage]
      exact .bind
  | config =>
    rcases Link.recvDown_second hdown hn with hrecv | hrecv
    · simp only [Server.turn, hrecv, hn, hup]
      exact .config
    · simp only [Server.turn, hrecv, hup]
      exact .answer
  | refuse =>
    simp only [Server.turn, Link.sendUp, hn, hup]
    exact .refused
  | unsent =>
    simp only [Server.turn, hn, hup]
    exact .silent
  | success =>
    simp only [Server.turn, Link.sendUp, hn, hup]
    exact .config
  | answer =>
    simp only [Server.turn, Link.sendUp, hn, hup]
    exact .start
  | start =>
    simp only [Server.turn, hn, hup]
    exact .done
  | bind =>
    simp only [Server.turn, hn, hup]
    exact .bind
  | done =>
    simp only [Server.turn, hn, hup]
    exact .done
  | refused =>
    simp only [Server.turn, hn, hup]
    exact .refused
  | silent =>
    simp only [Server.turn, hn, hup]
    exact .silent
  | failed h hs =>
    simp only [Server.turn, hn, hup]
    exact .failed h hs

theorem bound {s : Server} (h : s.Reached p n up) (r : Except String (Address × Address)) :
    (s.bound r).Reached p n up := by
  cases h with
  | bind =>
    cases r with
    | ok addrs => exact .success
    | error err => exact .refuse
  | setup => exact .setup
  | refuse => exact .refuse
  | unsent => exact .unsent
  | success => exact .success
  | config => exact .config
  | answer => exact .answer
  | start => exact .start
  | done => exact .done
  | refused => exact .refused
  | silent => exact .silent
  | failed h hs => exact .failed h hs

theorem fail {s : Server} {l : Link} (h : s.Reached p l.downRead l.up) (e : Error) :
    (s.act p l (.fail e)).1.Reached p (s.act p l (.fail e)).2.downRead
      (s.act p l (.fail e)).2.up := by
  generalize hn : l.downRead = n at h
  generalize hup : l.up = up at h
  have hio := fun hs => Reached.failed (e := e) h hs
  cases h with
  | refuse =>
    simp only [Server.act, hn, hup]
    exact .unsent
  | done =>
    simp only [Server.act, hn, hup]
    exact .done
  | refused =>
    simp only [Server.act, hn, hup]
    exact .refused
  | silent =>
    simp only [Server.act, hn, hup]
    exact .silent
  | failed h hs =>
    simp only [Server.act, hn, hup]
    exact .failed h hs
  | _ =>
    simp only [Server.act, hn, hup]
    exact hio fun f hf => by cases hf

theorem act {s : Server} {l : Link} (h : s.Reached p l.downRead l.up)
    (hdown : l.down <+: p.script) (a : Act) :
    (s.act p l a).1.Reached p (s.act p l a).2.downRead (s.act p l a).2.up := by
  cases a with
  | turn => exact h.turn hdown
  | bound r => exact h.bound r
  | fail e => exact h.fail e
  | up | listen => exact h

/-- What a server has sent says what has become of it. -/
theorem answers {s : Server} (h : s.Reached p n up) : Answers p (.server s) up := by
  induction h with
  | setup | bind | refuse | unsent | success | silent => exact .nothing
  | config | answer => exact .success ⟨rfl, rfl, trivial⟩
  | start | done => exact .yes ⟨rfl, rfl, trivial⟩ rfl
  | refused => exact .failed rfl
  | failed _ hs ih =>
    cases ih with
    | nothing => exact .nothing
    | failed h => exact absurd h (hs _)
    | success h => exact .success ⟨h.accepter, h.visit, trivial⟩
    | yes h hconfig => exact .yes ⟨h.accepter, h.visit, trivial⟩ hconfig

theorem explained {s : Server} (h : s.Reached p n up) (hf : s.failure = some f) :
    f.Explained (.server s) := by
  cases h with
  | refused | silent =>
    cases hf
    exact rfl
  | failed =>
    cases hf
    trivial
  | _ => cases hf

end Reached
end Server

/-! ## A bridge -/

theorem Answers.stage {stage : Bridge.Stage} (h : Answers p (.bridge b next rest) up) :
    Answers p (.bridge { b with stage := stage } next' rest) up := by
  cases h with
  | nothing => exact .nothing
  | failed h => exact .failed h
  | success h => exact .success ⟨h.accepter, h.visit, h.linked⟩
  | yes h hconfig => exact .yes ⟨h.accepter, h.visit, h.linked⟩ hconfig

namespace Bridge

theorem act_served (b : Bridge) (l next : Link) (a : Act) : l.Served (b.act l next a).2.1 := by
  have hrecv : ∀ {m l'}, l.recvDown = some (m, l') → l.Served l' := by
    intro m l' h
    obtain ⟨-, rfl⟩ := Link.recvDown_eq_some.1 h
    exact ⟨rfl, rfl, List.prefix_rfl⟩
  cases a with
  | turn =>
    unfold act turn
    simp only
    split
    case h_1 | h_7 => split <;> first | exact .refl l | exact hrecv ‹_›
    case h_4 => split <;> exact .refl l
    all_goals first | exact .refl l | exact l.served_sendUp _
  | up =>
    unfold act up
    simp only
    split
    · split
      · exact .refl l
      · exact l.served_sendUp _
    · exact .refl l
  | fail e =>
    unfold act
    simp only
    split <;> exact .refl l
  | bound | listen => exact .refl l

theorem act_used (b : Bridge) (l next : Link) (a : Act) : next.Used (b.act l next a).2.2 := by
  have hrecv : ∀ {m next'}, next.recvUp = some (m, next') → next.Used next' := by
    intro m next' h
    obtain ⟨-, rfl⟩ := Link.recvUp_eq_some.1 h
    exact ⟨rfl, rfl, List.prefix_rfl⟩
  cases a with
  | turn =>
    unfold act turn
    simp only
    split
    case h_1 => split <;> exact .refl next
    case h_4 => split <;> first | exact .refl next | exact hrecv ‹_›
    case h_7 => split <;> first | exact .refl next | exact next.used_sendDown _
    all_goals first | exact .refl next | exact next.used_sendDown _
  | up =>
    unfold act up
    simp only
    split
    · split
      · exact .refl next
      · exact hrecv ‹_›
    · exact .refl next
  | fail e =>
    unfold act
    simp only
    split <;> exact .refl next
  | bound | listen => exact .refl next

namespace Reached

variable {b : Bridge} {l next : Link}

theorem used (h : b.Reached p l next) (hl : l.Used l') : b.Reached p l' next := by
  induction h generalizing l' with
  | failed _ ih => exact .failed (ih hl)
  | forward =>
    obtain ⟨hup, hread, more, hdown⟩ := hl
    obtain ⟨down, downRead, up, upRead⟩ := l'
    simp only at hup hread hdown
    subst hup hread hdown
    rw [List.cons_append, List.append_assoc]
    exact .forward
  | _ =>
    obtain ⟨hup, hread, more, hdown⟩ := hl
    obtain ⟨down, downRead, up, upRead⟩ := l'
    simp only at hup hread hdown
    subst hup hread hdown
    constructor

theorem served (h : b.Reached p l next) (hnext : next.Served next') : b.Reached p l next' := by
  induction h generalizing next' with
  | failed _ ih => exact .failed (ih hnext)
  | forward =>
    obtain ⟨hdown, hread, more, hup⟩ := hnext
    obtain ⟨down, downRead, up, upRead⟩ := next'
    simp only at hup hread hdown
    subst hup hread hdown
    rw [List.cons_append, List.append_assoc]
    exact .forward
  | setup | connect | send | reply =>
    obtain ⟨hdown, hread, -⟩ := hnext
    obtain ⟨down, downRead, up, upRead⟩ := next'
    simp only at hdown hread
    subst hdown hread
    constructor
  | bind | success | relay | ended =>
    obtain ⟨hdown, hread, more, hup⟩ := hnext
    obtain ⟨down, downRead, up, upRead⟩ := next'
    simp only at hup hread hdown
    subst hup hread hdown
    constructor

/-- A bridge sends what the client has sent. -/
theorem down (h : b.Reached p l next) (hdown : l.down <+: p.script) : next.down <+: p.script := by
  induction h with
  | setup | connect | send => exact List.nil_prefix
  | reply | bind | success | relay | ended => exact List.prefix_append [p.setupMessage] _
  | forward => exact (List.prefix_append _ _).trans hdown
  | failed _ ih => exact ih hdown

/-- What the parties behind a bridge have answered it passes on. -/
theorem answers (h : b.Reached p l next) (hrest : Answers p rest next.up) :
    Answers p (.bridge b next rest) l.up := by
  induction h with
  | setup | connect | send | reply | bind | success | relay => exact .nothing
  | ended =>
    cases hrest with
    | failed h => exact .failed h
  | @forward _ _ _ _ _ _ ups behind =>
    simp only at hrest ⊢
    generalize hrow : ups ++ behind = row at hrest
    cases hrest with
    | success h =>
      obtain ⟨rfl, rfl⟩ := List.append_eq_nil_iff.1 hrow
      exact .success ⟨rfl, h.visit, ⟨_, h.accepter, rfl⟩, h.linked⟩
    | yes h hconfig =>
      rcases List.append_eq_cons_iff.1 hrow with ⟨rfl, rfl⟩ | ⟨ups, rfl, hups⟩
      · exact .success ⟨rfl, h.visit, ⟨_, h.accepter, rfl⟩, h.linked⟩
      · obtain ⟨rfl, rfl⟩ := List.append_eq_nil_iff.1 hups.symm
        exact .yes ⟨rfl, h.visit, ⟨_, h.accepter, rfl⟩, h.linked⟩ hconfig
  | failed _ ih => exact (ih hrest).stage

theorem turn (h : b.Reached p l next) (hdown : l.down <+: p.script)
    (hrest : Answers p rest next.up) :
    (b.turn l next).1.Reached p (b.turn l next).2.1 (b.turn l next).2.2 := by
  cases h with
  | @setup _ down =>
    cases down with
    | nil => exact .setup
    | cons m down =>
      obtain ⟨rfl, -⟩ := List.cons_prefix_cons.1 hdown
      exact .connect
  | connect => exact .send
  | send => exact .reply
  | @reply _ _ _ _ ups =>
    cases hrest with
    | nothing => exact .reply
    | failed h => exact .relay
    | success h => exact .bind
    | yes h => exact .bind
  | bind => exact .bind
  | success => exact @forward p _ _ _ _ [] _ [] _ _ _
  | @forward socket proxy client visit down ahead ups behind downRead upRead =>
    have hget : (p.setupMessage :: (down ++ ahead))[down.length + 1]? = ahead[0]? := by
      rw [List.getElem?_cons_succ, List.getElem?_append_right (Nat.le_refl _), Nat.sub_self]
    cases ahead with
    | nil =>
      simp only [Bridge.turn, Link.recvDown, hget]
      exact .forward
    | cons m ahead =>
      simp only [Bridge.turn, Link.recvDown, hget]
      have hnext := @forward p socket proxy client visit (down ++ [m]) ahead ups behind downRead
        upRead
      rw [List.append_assoc, List.length_append] at hnext
      exact hnext
  | relay => exact .ended
  | ended => exact .ended
  | failed h => exact .failed h

theorem up (h : b.Reached p l next) : b.Reached p (b.up l next).1 (b.up l next).2 := by
  cases h with
  | @forward socket proxy client visit down ahead ups behind downRead upRead =>
    have hget : (Message.bind (.success client visit) :: (ups ++ behind))[ups.length + 1]? =
        behind[0]? := by
      rw [List.getElem?_cons_succ, List.getElem?_append_right (Nat.le_refl _), Nat.sub_self]
    cases behind with
    | nil =>
      simp only [Bridge.up, Link.recvUp, hget]
      exact .forward
    | cons m behind =>
      simp only [Bridge.up, Link.recvUp, hget]
      have hnext := @forward p socket proxy client visit down ahead (ups ++ [m]) behind downRead
        upRead
      rw [List.append_assoc, List.length_append] at hnext
      exact hnext
  | setup => exact .setup
  | connect => exact .connect
  | send => exact .send
  | reply => exact .reply
  | bind => exact .bind
  | success => exact .success
  | relay => exact .relay
  | ended => exact .ended
  | failed h => exact .failed h

theorem listen (h : b.Reached p l next) (proxy : Address) : (b.listen proxy).Reached p l next := by
  cases h with
  | bind => exact .success
  | setup => exact .setup
  | connect => exact .connect
  | send => exact .send
  | reply => exact .reply
  | success => exact .success
  | forward => exact .forward
  | relay => exact .relay
  | ended => exact .ended
  | failed h => exact .failed h

theorem act (h : b.Reached p l next) (hdown : l.down <+: p.script)
    (hrest : Answers p rest next.up) (a : Act) :
    (b.act l next a).1.Reached p (b.act l next a).2.1 (b.act l next a).2.2 := by
  cases a with
  | turn => exact h.turn hdown hrest
  | up => exact h.up
  | listen proxy => exact h.listen proxy
  | bound r => exact h
  | fail e =>
    unfold Bridge.act
    simp only
    split
    · exact h
    · exact h
    · exact .failed h

theorem failure_eq (h : b.Reached p l next) (hf : b.failure = some f) : ∃ e, f = .io e := by
  cases h with
  | @failed _ _ _ e =>
    cases hf
    exact ⟨e, rfl⟩
  | _ => cases hf

end Reached
end Bridge

/-! ## The chain -/

namespace Chain

theorem act_served (p : Parties) (chain : Chain) (n : Nat) (a : Act) (l : Link) :
    l.Served (chain.act p n a l).2 := by
  cases chain with
  | server s =>
    cases n with
    | zero => exact s.act_served p l a
    | succ n => exact .refl l
  | bridge b next rest =>
    cases n with
    | zero => exact b.act_served l next a
    | succ n => exact .refl l

namespace Reached

variable {chain : Chain} {l : Link}

theorem used (h : chain.Reached p l) (hl : l.Used l') : chain.Reached p l' := by
  cases chain with
  | server s =>
    obtain ⟨hs, hle⟩ := h
    refine ⟨?_, ?_⟩
    · rw [hl.downRead, hl.up]
      exact hs
    · rw [hl.downRead]
      exact hle.trans hl.down.length_le
  | bridge b next rest => exact ⟨h.1.used hl, h.2⟩

theorem answers (h : chain.Reached p l) : Answers p chain l.up := by
  induction chain generalizing l with
  | server s => exact h.1.answers
  | bridge b next rest ih => exact h.1.answers (ih h.2)

theorem explained (h : chain.Reached p l) : ∀ f ∈ chain.failures, f.Explained chain := by
  induction chain generalizing l with
  | server s =>
    intro f hf
    exact h.1.explained (Option.mem_toList.1 hf)
  | bridge b next rest ih =>
    intro f hf
    rcases List.mem_append.1 hf with hf | hf
    · obtain ⟨e, rfl⟩ := h.1.failure_eq (Option.mem_toList.1 hf)
      trivial
    · cases f with
      | io => trivial
      | bind | message | unexpected | deserialize => exact ih h.2 _ hf

theorem act (h : chain.Reached p l) (hdown : l.down <+: p.script) (n : Nat) (a : Act) :
    (chain.act p n a l).1.Reached p (chain.act p n a l).2 := by
  induction chain generalizing n l with
  | server s =>
    cases n with
    | zero => exact ⟨h.1.act hdown a, s.act_downRead p l a h.2⟩
    | succ n => exact h
  | bridge b next rest ih =>
    obtain ⟨hb, hrest⟩ := h
    cases n with
    | zero => exact ⟨hb.act hdown hrest.answers a, hrest.used (b.act_used l next a)⟩
    | succ n =>
      exact ⟨hb.served (rest.act_served p n a next), ih hrest (hb.down hdown) n⟩

end Reached
end Chain

/-! ## The client -/

namespace Client.Reached

theorem down (h : Client.Reached p c l) : l.down <+: p.script := by
  induction h with
  | setup => exact List.nil_prefix
  | reply | config | refused => exact List.prefix_append [p.setupMessage] _
  | configured | done => exact List.prefix_rfl
  | failed _ ih => exact ih

theorem served (h : Client.Reached p c l) (hl : l.Served l') (hanswers : Answers p chain l'.up) :
    Client.Reached p c l' := by
  induction h generalizing l' with
  | failed _ ih => exact .failed (ih hl hanswers)
  | setup | reply =>
    obtain ⟨hdown, hread, -⟩ := hl
    obtain ⟨down, downRead, up, upRead⟩ := l'
    simp only at hdown hread
    subst hdown hread
    constructor
  | config | configured | refused =>
    obtain ⟨hdown, hread, more, hup⟩ := hl
    obtain ⟨down, downRead, up, upRead⟩ := l'
    simp only at hdown hread hup
    subst hdown hread hup
    constructor
  | done =>
    obtain ⟨hdown, hread, more, hup⟩ := hl
    obtain ⟨down, downRead, up, upRead⟩ := l'
    simp only at hdown hread hup
    subst hdown hread hup
    cases hanswers with
    | yes => exact .done

theorem turn (h : Client.Reached p c l) (hanswers : Answers p chain l.up) :
    Client.Reached p (c.turn p l).1 (c.turn p l).2 := by
  cases h with
  | setup => exact .reply
  | @reply _ ups =>
    cases hanswers with
    | nothing => exact .reply
    | failed => exact .refused
    | success => exact .config
    | yes => exact .config
  | config => exact .configured
  | configured =>
    cases hanswers with
    | success => exact .configured
    | yes => exact .done
  | done => exact .done
  | refused => exact .refused
  | failed h => exact .failed h

theorem explained (h : Client.Reached p c l) (hanswers : Answers p chain l.up)
    (hf : c.failure = some f) : f.Explained chain := by
  cases h with
  | refused =>
    cases hf
    cases hanswers with
    | failed h => exact h
  | failed =>
    cases hf
    trivial
  | _ => cases hf

end Client.Reached

theorem Client.Stage.turn_used (p : Parties) (c : Client.Stage) (l : Link) :
    l.Used (c.turn p l).2 := by
  have hrecv : ∀ {m l'}, l.recvUp = some (m, l') → l.Used l' := by
    intro m l' h
    obtain ⟨-, rfl⟩ := Link.recvUp_eq_some.1 h
    exact ⟨rfl, rfl, List.prefix_rfl⟩
  unfold turn
  split
  case h_2 => split <;> first | exact .refl l | exact hrecv ‹_›
  case h_4 =>
    split
    · exact .refl l
    · split <;> exact hrecv ‹_›
    · exact hrecv ‹_›
  all_goals first | exact .refl l | exact l.used_sendDown _

/-! ## The whole -/

namespace System

variable {s : System} {events : List Event}

theorem start_inv (p : Parties) : (start p).Inv p := by
  refine ⟨.setup, ?_⟩
  suffices ∀ bridges, (Chain.start bridges p.serverConfig).Reached p .new from this _
  intro bridges
  induction bridges with
  | nil => exact ⟨.setup, Nat.le_refl 0⟩
  | cons upstream bridges ih => exact ⟨.setup, ih⟩

theorem Inv.step (h : s.Inv p) (e : Event) : (s.step p e).Inv p := by
  obtain ⟨hclient, hchain⟩ := h
  cases e with
  | client => exact ⟨hclient.turn hchain.answers, hchain.used (s.client.turn_used p s.link)⟩
  | clientFails e =>
    unfold System.step
    simp only
    split
    · exact ⟨hclient, hchain⟩
    · exact ⟨hclient, hchain⟩
    · exact ⟨.failed hclient, hchain⟩
  | party n a =>
    have hnext := hchain.act hclient.down n a
    exact ⟨hclient.served (s.chain.act_served p n a s.link) hnext.answers, hnext⟩

theorem inv_after (p : Parties) (events : List Event) : (after (step p) (start p) events).Inv p :=
  after_invariant (fun _ e h => h.step e) (start_inv p)

/-- A client that is done has a server that listens where the client asked it to, behind bridges
that lead there, and that runs with the client's configuration. What the client holds are these
addresses. -/
theorem agreement {server visit : Address}
    (h : (after (step p) (start p) events).client = .done server visit) :
    ∃ client visitor, (after (step p) (start p) events).chain.Bound p client visitor ∧
      server = client.defaultSocket p.serverAddress.target ∧
      visit = visitor.defaultSocket p.serverAddress.target ∧
      (after (step p) (start p) events).chain.serverConfig =
        p.serverConfig.update p.config := by
  obtain ⟨hclient, hchain⟩ := inv_after p events
  generalize after (step p) (start p) events = s at h hclient hchain ⊢
  obtain ⟨c, l, chain⟩ := s
  simp only at h hclient hchain ⊢
  subst h
  cases hclient with
  | done =>
    cases hchain.answers with
    | yes hbound hconfig => exact ⟨_, _, hbound, rfl, rfl, hconfig⟩

/-- A client behind one bridge. -/
def sample : Parties where
  config :=
    ⟨"client", 10000, 60000, true, true, none, none, 0, false, "1.0.2", .linux .x86_64⟩
  forward := (.tcp (.ofPort 8080), .tcp (.ofPort 80))
  serverAddress := .tcp (.domain "bridge" 6722)
  bridges := [.tcp (.domain "server" 6722)]
  serverConfig :=
    ⟨"", false, 0, 0, none, none, false, false, false, none, none, .linux .x86_64, false⟩
  decodeError := fun _ => ""

def sampleRun : List Event :=
  [.client, .party 0 .turn, .party 0 .turn, .party 0 .turn, .party 1 .turn,
    .party 1 (.bound (.ok (.one (.tcp (.ofPort 40000)), .one (.tcp (.ofPort 8080))))),
    .party 1 .turn, .party 0 .turn, .party 0 (.listen (.one (.tcp (.ofPort 50000)))),
    .party 0 .turn, .client, .client, .party 0 .turn, .party 1 .turn, .party 1 .turn,
    .party 0 .up, .client]

theorem agreement_sample :
    ∃ client visitor, (after (step sample) (start sample) sampleRun).chain.Bound sample client
        visitor ∧
      .one (.tcp (.domain "bridge" 50000)) = client.defaultSocket (.domain "bridge" 6722) ∧
      .one (.tcp (.domain "bridge" 8080)) = visitor.defaultSocket (.domain "bridge" 6722) ∧
      (after (step sample) (start sample) sampleRun).chain.serverConfig =
        sample.serverConfig.update sample.config :=
  agreement rfl

/-- Nobody ever meets a message that is not for it: a party stops because a stream or an address
failed, or it stops with the error that the server met when it bound its accepters, which comes
through all bridges as it is. -/
theorem failures_explained (p : Parties) (events : List Event) :
    ∀ f ∈ (after (step p) (start p) events).failures,
      f.Explained (after (step p) (start p) events).chain := by
  obtain ⟨hclient, hchain⟩ := inv_after p events
  intro f hf
  rcases List.mem_append.1 hf with hf | hf
  · exact hclient.explained hchain.answers (Option.mem_toList.1 hf)
  · exact hchain.explained f hf

/-- The server cannot bind its accepters, and the client hears why from the bridge. -/
def refusedRun : List Event :=
  [.client, .party 0 .turn, .party 0 .turn, .party 0 .turn, .party 1 .turn,
    .party 1 (.bound (.error "address in use")), .party 1 .turn, .party 0 .turn, .party 0 .turn,
    .client]

theorem failures_explained_refused :
    (after (step sample) (start sample) refusedRun).chain.Refused "address in use" :=
  failures_explained sample refusedRun (.message "address in use") (.head _)

end System
end Fuso.Setup

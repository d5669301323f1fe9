import Fuso.Penetrate.Generate

/-!
# How a client sets up its mapping

`PenetrateClientProvider::call` and `PenetrateProvider::call` are the two ends of the negotiation
over a new connection, and `run_bridge` is what stands between them when the client connects to a
bridge. A bridge takes its upstream for a server, so there may be any number of them in a row. Every
`await` of a party is an event, and may fail; the packets of a connection arrive in their order.
-/

namespace Fuso

/-! ## Addresses -/

inductive IpAddr where
  | v4 (ip : List.Vector UInt8 4)
  | v6 (ip : List.Vector UInt8 16)

def IpAddr.isUnspecified : IpAddr → Bool
  | .v4 ip => ip.toList.all (· == 0)
  | .v6 ip => ip.toList.all (· == 0)

def IpAddr.localhost : IpAddr := .v4 ⟨[127, 0, 0, 1], rfl⟩

def SocketAddr.new : IpAddr → UInt16 → SocketAddr
  | .v4 ip, port => .v4 ip port
  | .v6 ip, port => .v6 ip port

def SocketAddr.ip : SocketAddr → IpAddr
  | .v4 ip _ => .v4 ip
  | .v6 ip _ => .v6 ip

namespace Addr

/-- `From<u16>`. -/
def ofPort (port : UInt16) : Addr := .socket (.v4 ⟨[0, 0, 0, 0], rfl⟩ port)

def port : Addr → UInt16
  | .socket (.v4 _ port) => port
  | .socket (.v6 _ port) => port
  | .domain _ port => port

def isIpUnspecified : Addr → Bool
  | .socket addr => addr.ip.isUnspecified
  | .domain .. => false

def setIp (a : Addr) (ip : IpAddr) : Addr := .socket (.new ip a.port)

def fromSetHost (a : Addr) : Addr → Addr
  | .domain host _ => .domain host a.port
  | .socket addr => a.setIp addr.ip

end Addr

namespace Socket

def ifStreamMixed (s : Socket) (isMixed : Bool) : Socket := { s with isMixed }

def setIp (s : Socket) (ip : IpAddr) : Socket := { s with target := s.target.setIp ip }

def fromSetHost (s : Socket) (addr : Addr) : Socket := { s with target := s.target.fromSetHost addr }

end Socket

namespace Address

/-- A change of every socket. -/
def map (f : Socket → Socket) : Address → Address
  | .one socket => .one (f socket)
  | .many sockets => .many (sockets.map f)

def setIp (a : Address) (ip : IpAddr) : Address := a.map (·.setIp ip)

def fromSetHost (a : Address) (addr : Addr) : Address := a.map (·.fromSetHost addr)

/-- Of several sockets the first decides. -/
def isIpUnspecified : Address → Bool
  | .one socket => socket.target.isIpUnspecified
  | .many [] => false
  | .many (socket :: _) => socket.target.isIpUnspecified

/-- `default_socket!`, which `run_bridge` has too. -/
def defaultSocket (a : Address) (host : Addr) : Address :=
  let a := if a.isIpUnspecified then a.fromSetHost host else a
  if a.isIpUnspecified then a.setIp .localhost else a

end Address

namespace Setup

/-! ## Messages -/

inductive Arch where
  | x86 | x86_64 | mips | arm | aarch64
  deriving DecidableEq

inductive Platform where
  | linux (arch : Arch)
  | macos (arch : Arch)
  | windows (arch : Arch)
  | android (arch : Arch)
  deriving DecidableEq

/-- Durations are in milliseconds. -/
structure Client.Config where
  name : String
  maximumWait : Nat
  heartbeatDelay : Nat
  enableKcp : Bool
  enableSocks5 : Bool
  socksUsername : Option String
  socksPassword : Option String
  channelPort : UInt16
  enableSocks5Udp : Bool
  version : String
  platform : Platform

structure Server.Config where
  whoami : String
  isMixed : Bool
  maximumWait : Nat
  heartbeatDelay : Nat
  readTimeout : Option Nat
  writeTimeout : Option Nat
  fallbackStrictMode : Bool
  enableSocks : Bool
  enableSocksUdp : Bool
  socks5Password : Option String
  socks5Username : Option String
  platform : Platform
  realIp : Bool

def Server.Config.update (self : Server.Config) (config : Client.Config) : Server.Config :=
  { self with
    whoami := config.name
    enableSocks := config.enableSocks5 || config.enableSocks5Udp
    enableSocksUdp := config.enableSocks5Udp
    socks5Username := config.socksUsername
    socks5Password := config.socksPassword
    heartbeatDelay := config.heartbeatDelay
    maximumWait := config.maximumWait
    isMixed := config.enableKcp
    platform := config.platform }

inductive Bind where
  | setup (client visit : Socket)
  | success (client visit : Address)
  | failed (err : String)

/-- What a packet of the negotiation holds. -/
inductive Message where
  | bind (b : Bind)
  /-- A `Poto` that is no `Poto::Bind`, as it is displayed. -/
  | other (poto : String)
  | config (config : Client.Config)
  | text (s : String)

/-- The answer to a configuration that is accepted. -/
def yes : Message := .text "YES"

inductive Failure where
  | io (e : Error)
  | bind (err : String)
  | message (text : String)
  | unexpected (message : Message)
  | deserialize

/-- A connection: the messages that were sent on it, down to the server and up to the client, and
how many of them were received. -/
structure Link where
  down : List Message
  downRead : Nat
  up : List Message
  upRead : Nat

namespace Link

def new : Link := ⟨[], 0, [], 0⟩

def sendDown (l : Link) (m : Message) : Link := { l with down := l.down ++ [m] }

def sendUp (l : Link) (m : Message) : Link := { l with up := l.up ++ [m] }

def recvDown (l : Link) : Option (Message × Link) :=
  l.down[l.downRead]?.map (·, { l with downRead := l.downRead + 1 })

def recvUp (l : Link) : Option (Message × Link) :=
  l.up[l.upRead]?.map (·, { l with upRead := l.upRead + 1 })

end Link

/-! ## The parties -/

/-- What the parties are given. -/
structure Parties where
  config : Client.Config
  /-- Where visitors are to arrive, and where they are forwarded to. -/
  forward : Socket × Socket
  /-- `processor.default_socket()`. -/
  serverAddress : Socket
  /-- The upstreams of the bridges, from the client on. -/
  bridges : List Socket
  serverConfig : Server.Config
  /-- The text of the error when a packet is no configuration. -/
  decodeError : Message → String

variable (p : Parties)

/-- The socket for data connections that the client asks for. -/
def Parties.channelSocket : Socket :=
  (Socket.tcp (.ofPort p.config.channelPort)).ifStreamMixed
    (p.config.enableKcp || p.config.enableSocks5Udp)

inductive Client.Stage where
  | setup
  | reply
  | config (server visit : Address)
  | configured (server visit : Address)
  | done (server visit : Address)
  | failed (f : Failure)

/-- The client goes on. -/
def Client.Stage.turn (s : Client.Stage) (l : Link) : Client.Stage × Link :=
  match s with
  | .setup => (.reply, l.sendDown (.bind (.setup p.channelSocket p.forward.1)))
  | .reply =>
    match l.recvUp with
    | none => (.reply, l)
    | some (.bind (.success server visit), l) => (.config server visit, l)
    | some (.bind (.failed err), l) => (.failed (.message err), l)
    | some (.bind (.setup client visit), l) => (.failed (.unexpected (.bind (.setup client visit))), l)
    | some (.other poto, l) => (.failed (.unexpected (.other poto)), l)
    | some (.config _, l) | some (.text _, l) => (.failed .deserialize, l)
  | .config server visit => (.configured server visit, l.sendDown (.config p.config))
  | .configured server visit =>
    match l.recvUp with
    | none => (.configured server visit, l)
    | some (.text text, l) =>
      if text = "YES" then
        (.done (server.defaultSocket p.serverAddress.target)
          (visit.defaultSocket p.serverAddress.target), l)
      else (.failed (.message text), l)
    | some (_, l) => (.failed .deserialize, l)
  | .done .. | .failed _ => (s, l)

/-- An accepter that is bound to a socket. -/
structure Accepter where
  socket : Socket
  localAddr : Address

inductive Server.Stage where
  | setup
  | bind (client visit : Socket)
  | refuse (err : String)
  | unsent (err : String)
  | success (client visit : Address)
  | config
  | reject (err : String)
  | answer (config : Client.Config)
  | start
  | done
  | failed (f : Failure)

structure Server where
  stage : Server.Stage
  config : Server.Config
  /-- Those for data connections and for visitors. -/
  accepters : Option (Accepter × Accepter)

/-- The server goes on. -/
def Server.turn (s : Server) (l : Link) : Server × Link :=
  match s.stage with
  | .setup =>
    match l.recvDown with
    | none => (s, l)
    | some (.bind (.setup client visit), l) => ({ s with stage := .bind client visit }, l)
    | some (.bind b, l) => ({ s with stage := .failed (.unexpected (.bind b)) }, l)
    | some (.other poto, l) => ({ s with stage := .failed (.unexpected (.other poto)) }, l)
    | some (.config _, l) | some (.text _, l) => ({ s with stage := .failed .deserialize }, l)
  | .refuse err => ({ s with stage := .failed (.bind err) }, l.sendUp (.bind (.failed err)))
  | .success client visit =>
    ({ s with stage := .config }, l.sendUp (.bind (.success client visit)))
  | .config =>
    match l.recvDown with
    | none => (s, l)
    | some (.config config, l) => ({ s with stage := .answer config }, l)
    | some (m, l) => ({ s with stage := .reject (p.decodeError m) }, l)
  | .reject err => ({ s with stage := .failed .deserialize }, l.sendUp (.text err))
  | .answer config =>
    ({ s with stage := .start, config := s.config.update config }, l.sendUp yes)
  | .start => ({ s with stage := .done }, l)
  | .unsent err => ({ s with stage := .failed (.bind err) }, l)
  | .bind .. | .done | .failed _ => (s, l)

/-- The two accepters are bound, or one of them is not. -/
def Server.bound (s : Server) (r : Except String (Address × Address)) : Server :=
  match s.stage, r with
  | .bind client visit, .ok (clientAddr, visitAddr) => { s with
    stage := .success clientAddr visitAddr
    accepters := some (⟨client, clientAddr⟩, ⟨visit, visitAddr⟩) }
  | .bind .., .error err => { s with stage := .refuse err }
  | _, _ => s

inductive Bridge.Stage where
  | setup
  | connect (client visit : Socket)
  | send (client visit : Socket)
  | reply (client : Socket)
  | bind (client : Socket) (accepter visit : Address)
  | success (proxy accepter visit : Address)
  | relay (m : Message)
  | forward
  | ended
  | failed (f : Failure)

structure Bridge where
  stage : Bridge.Stage
  upstream : Socket
  proxyAccepter : Option Accepter
  /-- Where a data connection is relayed to. -/
  clientAddr : Option Address

/-- The bridge goes on; once it relays, by a message down to the server. -/
def Bridge.turn (b : Bridge) (l next : Link) : Bridge × Link × Link :=
  match b.stage with
  | .setup =>
    match l.recvDown with
    | none => (b, l, next)
    | some (.bind (.setup client visit), l) => ({ b with stage := .connect client visit }, l, next)
    | some (.bind m, l) => ({ b with stage := .relay (.bind m) }, l, next)
    | some (.other poto, l) => ({ b with stage := .relay (.other poto) }, l, next)
    | some (.config _, l) | some (.text _, l) =>
      ({ b with stage := .failed .deserialize }, l, next)
  | .connect client visit => ({ b with stage := .send client visit }, l, next)
  | .send client visit =>
    ({ b with stage := .reply client }, l, next.sendDown (.bind (.setup client visit)))
  | .reply client =>
    match next.recvUp with
    | none => (b, l, next)
    | some (.bind (.success accepter visit), next) =>
      ({ b with stage := .bind client accepter visit }, l, next)
    | some (.bind m, next) => ({ b with stage := .relay (.bind m) }, l, next)
    | some (.other poto, next) => ({ b with stage := .relay (.other poto) }, l, next)
    | some (.config _, next) | some (.text _, next) =>
      ({ b with stage := .failed .deserialize }, l, next)
  | .success proxy accepter visit =>
    ({ b with
      stage := .forward
      clientAddr := some (accepter.defaultSocket b.upstream.target) },
      l.sendUp (.bind (.success proxy visit)), next)
  | .relay m => ({ b with stage := .ended }, l.sendUp m, next)
  | .forward =>
    match l.recvDown with
    | none => (b, l, next)
    | some (m, l) => (b, l, next.sendDown m)
  | .bind .. | .ended | .failed _ => (b, l, next)

/-- The accepter for data connections is bound. -/
def Bridge.listen (b : Bridge) (proxy : Address) : Bridge :=
  match b.stage with
  | .bind client accepter visit => { b with
    stage := .success proxy accepter visit
    proxyAccepter := some ⟨client, proxy⟩ }
  | _ => b

/-- A message up to the client is relayed. -/
def Bridge.up (b : Bridge) (l next : Link) : Link × Link :=
  match b.stage with
  | .forward =>
    match next.recvUp with
    | none => (l, next)
    | some (m, next) => (l.sendUp m, next)
  | _ => (l, next)

/-! ## The chain -/

/-- What a party meets. -/
inductive Act where
  | turn
  | up
  | bound (r : Except String (Address × Address))
  | listen (proxy : Address)
  | fail (e : Error)

def Server.act (s : Server) (l : Link) : Act → Server × Link
  | .turn => s.turn p l
  | .bound r => (s.bound r, l)
  | .fail e =>
    match s.stage with
    | .done | .failed _ => (s, l)
    -- the error of a refusal that is not sent is logged
    | .refuse err => ({ s with stage := .unsent err }, l)
    | .reject _ => ({ s with stage := .failed .deserialize }, l)
    | _ => ({ s with stage := .failed (.io e) }, l)
  | .up | .listen _ => (s, l)

def Bridge.act (b : Bridge) (l next : Link) : Act → Bridge × Link × Link
  | .turn => b.turn l next
  | .up => (b, b.up l next)
  | .listen proxy => (b.listen proxy, l, next)
  | .fail e =>
    match b.stage with
    | .ended | .failed _ => (b, l, next)
    | _ => ({ b with stage := .failed (.io e) }, l, next)
  | .bound _ => (b, l, next)

/-- The server, and the bridges in front of it with the connections in between. -/
inductive Chain where
  | server (s : Server)
  | bridge (b : Bridge) (next : Link) (rest : Chain)

namespace Chain

def start : List Socket → Server.Config → Chain
  | [], config => .server ⟨.setup, config, none⟩
  | upstream :: bridges, config =>
    .bridge ⟨.setup, upstream, none, none⟩ .new (start bridges config)

/-- An act of the party with the number `n`. -/
def act : Chain → Nat → Act → Link → Chain × Link
  | .server s, 0, a, l => ((.server (s.act p l a).1), (s.act p l a).2)
  | .bridge b next rest, 0, a, l =>
    let (b, l, next) := b.act l next a
    (.bridge b next rest, l)
  | .bridge b next rest, n + 1, a, l =>
    let (rest, next) := rest.act n a next
    (.bridge b next rest, l)
  | .server s, _ + 1, _, l => (.server s, l)

end Chain

structure System where
  client : Client.Stage
  link : Link
  chain : Chain

namespace System

inductive Event where
  | client
  | clientFails (e : Error)
  | party (n : Nat) (a : Act)

def start : System := ⟨.setup, .new, .start p.bridges p.serverConfig⟩

def step (e : Event) (s : System) : System :=
  match e with
  | .client => { s with client := (s.client.turn p s.link).1, link := (s.client.turn p s.link).2 }
  | .clientFails e =>
    match s.client with
    | .done .. | .failed _ => s
    | _ => { s with client := .failed (.io e) }
  | .party n a =>
    let (chain, link) := s.chain.act p n a s.link
    { s with chain, link }

end System
end Setup
end Fuso

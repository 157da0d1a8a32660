import Mathlib.Logic.Function.Basic
import ProtoTools.Common.Basic

/-!
# The sockets of ZeroMQ

What the documentation says of the sockets. Messages are whole, their frames are sent and received
one by one.

* `RepSocket`: a REP socket receives all frames of a request, sends one reply, and so on in turn. An
  operation out of turn fails with `EFSM`. `RepRouter` adds whose request it is.
* `ReqSocket`: a REQ socket sends a request, receives all frames of its reply, and so on in turn.
* `SubSocket`: a SUB socket takes the messages whose first frame begins with one of its topics.
-/

namespace Protos

/-! ## REP, for one client -/

/-- What a wait for a request ends with. -/
inductive Event where
  /-- `rcvtimeo` has passed. -/
  | timeout
  /-- A request, with its first frame and the others. -/
  | request (first : Bytes) (rest : List Bytes)
  deriving DecidableEq, Repr

inductive RepSocket where
  /-- No request is being handled. -/
  | idle
  /-- Frames of the current request are still to be received. -/
  | receiving (next : Bytes) (rest : List Bytes)
  /-- All frames are received, the reply is due. -/
  | replying
  deriving DecidableEq, Repr

namespace RepSocket

/-- The state with these frames still to come. -/
def afterFrame : List Bytes → RepSocket
  | [] => .replying
  | next :: rest => .receiving next rest

/-- `recv`: the frame, or nothing on a timeout. `ev` is what comes when no request is being
handled. -/
def recv (s : RepSocket) (ev : Event) : Except Fault (Option Bytes × RepSocket) :=
  match s with
  | .idle =>
    match ev with
    | .timeout => .ok (none, .idle)
    | .request first rest => .ok (some first, afterFrame rest)
  | .receiving next rest => .ok (some next, afterFrame rest)
  | .replying => .error .efsm

/-- `send` of the reply. -/
def send (s : RepSocket) : Except Fault RepSocket :=
  match s with
  | .replying => .ok .idle
  | _ => .error .efsm

end RepSocket

/-! ## Messages -/

structure Message where
  first : Bytes
  rest : List Bytes := []
  deriving DecidableEq, Repr

/-- `zmq::send_flags`. -/
inductive SendFlags where
  | none
  | sndmore
  deriving DecidableEq, Repr

/-- The message of the frames that are pending, and the last one. -/
def Message.ofFrames : List Bytes → Bytes → Message
  | [], last => { first := last }
  | first :: more, last => { first, rest := more ++ [last] }

/-- `send` of a frame, after those that are pending. Without `sndmore` the whole message goes
out. -/
def sendFrame (pending : List Bytes) (frame : Bytes) : SendFlags → Option Message × List Bytes
  | .sndmore => (none, pending ++ [frame])
  | .none => (some (.ofFrames pending frame), [])

/-! ## SUB -/

/-- A SUB socket that is connected to the publishers `ι`. -/
structure SubSocket (ι : Type*) where
  topics : List Bytes := []
  /-- The messages of each publisher that wait to be received. -/
  queues : ι → List Message := fun _ => []
  /-- The frames still to be received of the current message. -/
  current : List Bytes := []

namespace SubSocket

variable {ι : Type*} [DecidableEq ι]

/-- `set(sockopt::subscribe, topic)`. -/
def subscribe (s : SubSocket ι) (topic : Bytes) : SubSocket ι :=
  { s with topics := s.topics ++ [topic] }

/-- A message of the publisher `i` is sent. -/
def deliver (s : SubSocket ι) (i : ι) (m : Message) : SubSocket ι :=
  if s.topics.any (·.isPrefixOf m.first) then
    { s with queues := Function.update s.queues i (s.queues i ++ [m]) }
  else s

/-- `recv`: the frame, or nothing as long as no message is there. `i` is the publisher whose message
is taken when there is no current one. -/
def recv (s : SubSocket ι) (i : ι) : Option Bytes × SubSocket ι :=
  match s.current with
  | frame :: rest => (some frame, { s with current := rest })
  | [] =>
    match s.queues i with
    | [] => (none, s)
    | m :: ms =>
      (some m.first, { s with queues := Function.update s.queues i ms, current := m.rest })

end SubSocket

/-! ## REQ -/

inductive ReqSocket where
  /-- A request can be sent, after the frames of it that are pending. -/
  | ready (pending : List Bytes)
  /-- A request is sent, and its reply has not been received. -/
  | awaiting
  /-- Frames of the reply are still to be received. -/
  | receiving (next : Bytes) (rest : List Bytes)
  deriving DecidableEq, Repr

namespace ReqSocket

/-- The state with these frames still to come. -/
def afterFrame : List Bytes → ReqSocket
  | [] => .ready []
  | next :: rest => .receiving next rest

/-- `send` of a frame. -/
def send (s : ReqSocket) (frame : Bytes) (flags : SendFlags) :
    Except Fault (Option Message × ReqSocket) :=
  match s with
  | .ready pending =>
    match sendFrame pending frame flags with
    | (none, pending) => .ok (none, .ready pending)
    | (some m, _) => .ok (some m, .awaiting)
  | _ => .error .efsm

/-- `recv`: the frame, or nothing. `arrived` is the reply, when it has come. -/
def recv (s : ReqSocket) (arrived : Option Message) : Except Fault (Option Bytes × ReqSocket) :=
  match s with
  | .ready _ => .error .efsm
  | .awaiting =>
    match arrived with
    | none => .ok (none, .awaiting)
    | some m => .ok (some m.first, afterFrame m.rest)
  | .receiving next rest => .ok (some next, afterFrame rest)

end ReqSocket

/-! ## REP, for many clients -/

/-- A REP socket that knows whose request it is answering. -/
structure RepRouter (ι : Type*) where
  socket : RepSocket := .idle
  peer : Option ι := none
  /-- The frames of the reply that are pending. -/
  pending : List Bytes := []

namespace RepRouter

variable {ι : Type*}

/-- What the wait for a request ends with. -/
def eventOf : Option (ι × Message) → Event
  | none => .timeout
  | some (_, m) => .request m.first m.rest

/-- `recv`: the frame, or nothing. `arrived` is the request that is taken when none is being
handled. -/
def recv (s : RepRouter ι) (arrived : Option (ι × Message)) :
    Except Fault (Option Bytes × RepRouter ι) :=
  match s.socket.recv (eventOf arrived) with
  | .error e => .error e
  | .ok (frame, socket) =>
    .ok (frame, { s with
      socket
      peer := if s.socket = .idle then arrived.map (·.1) else s.peer })

/-- `send` of a frame of the reply, which goes to the peer. -/
def send (s : RepRouter ι) (frame : Bytes) (flags : SendFlags) :
    Except Fault (Option (ι × Message) × RepRouter ι) :=
  match s.socket.send with
  | .error e => .error e
  | .ok socket =>
    match sendFrame s.pending frame flags with
    | (none, pending) => .ok (none, { s with pending })
    | (some m, _) => .ok (s.peer.map (·, m), { socket })

end RepRouter

end Protos

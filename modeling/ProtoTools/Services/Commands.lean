import ProtoTools.Lib.Machine
import ProtoTools.Services.Messages
import ProtoTools.Services.Zmq

/-!
# Commands (`ProtocolClient.cpp`, `ProtocolCommandServer.cpp`, `ProtocolServer.cpp`)

* `ProtocolClient.sendRequest`, `ProtocolClient.receiveReply`: the two halves of `sendCommand`.
  `ProtocolCommandServer.receive`, `ProtocolCommandServer.acknowledge`: the calls of the server.
* `Exchange.step`: one step of any party, where the server runs the loop of `startCommandHandler`.
* `Lockstep`: what the exchange is for. Each client is in one phase of its call, and the server
  serves at most one client. `concretize_step`: the exchange is the lockstep, with all frames of a
  message sent and received by one call.
* `ExactlyOnce`: every call of a client that is in no other one sends its command, and each command
  that is sent is handled once, in a serial order, and its reply is returned to its client.
  `commands_exactly_once` has it for every run.
-/

namespace Protos

open Machine

variable {ι σ : Type*}

/-! ## The calls -/

/-- The `send`s of `sendCommand`: the messages that go out. -/
def ProtocolClient.sendRequest (cmdSocket : ReqSocket) (cmd : Command) :
    Except Fault (List Message × ReqSocket) := do
  let (verb, cmdSocket) ← cmdSocket.send cmd.commandVerb .sndmore
  let (receiver, cmdSocket) ← cmdSocket.send cmd.commandReceiver .sndmore
  let (data, cmdSocket) ← cmdSocket.send cmd.commandData .none
  return (verb.toList ++ receiver.toList ++ data.toList, cmdSocket)

/-- The `recv`s of `sendCommand`: the reply, or nothing as long as the call waits for it. -/
def ProtocolClient.receiveReply (cmdSocket : ReqSocket) (arrived : Option Message) :
    Except Fault (Option CommandReply × ReqSocket) := do
  match ← cmdSocket.recv arrived with
  | (none, cmdSocket) => return (none, cmdSocket)
  | (some replyVerb, cmdSocket) =>
    let (replyData, cmdSocket) ← cmdSocket.recv none
    return (some { replyVerb, replyData := replyData.getD [] }, cmdSocket)

/-- `receive`: the command, or nothing as long as the call waits for a request. -/
def ProtocolCommandServer.receive (cmdSocket : RepRouter ι) (arrived : Option (ι × Message)) :
    Except Fault (Option Command × RepRouter ι) := do
  match ← cmdSocket.recv arrived with
  | (none, cmdSocket) => return (none, cmdSocket)
  | (some commandVerb, cmdSocket) =>
    let (receiver, cmdSocket) ← cmdSocket.recv none
    let (data, cmdSocket) ← cmdSocket.recv none
    return (some { commandVerb, commandReceiver := receiver.getD [], commandData := data.getD [] },
      cmdSocket)

/-- `acknowledge`: the messages that go out, with the clients that they go to. -/
def ProtocolCommandServer.acknowledge (cmdSocket : RepRouter ι) (reply : CommandReply) :
    Except Fault (List (ι × Message) × RepRouter ι) := do
  let (verb, cmdSocket) ← cmdSocket.send reply.replyVerb .sndmore
  let (data, cmdSocket) ← cmdSocket.send reply.replyData .none
  return (verb.toList ++ data.toList, cmdSocket)

/-! ## The parties -/

/-- The clients, the server in its loop, and the messages on their way. -/
structure Exchange (ι σ : Type*) where
  clients : ι → ReqSocket := fun _ => .ready []
  /-- The clients that are in a call of `sendCommand`. -/
  calling : ι → Bool := fun _ => false
  requests : ι → List Message := fun _ => []
  replies : ι → List Message := fun _ => []
  server : RepRouter ι := {}
  /-- The command that the loop has received and not answered. -/
  command : Option Command := none
  handlerState : σ

/-- A step of one party. -/
inductive Activity (ι : Type*) where
  /-- The client calls `sendCommand`. -/
  | call (i : ι) (cmd : Command)
  /-- `receive` takes a request of the client. -/
  | receive (i : ι)
  /-- The loop calls the handler and `acknowledge`. -/
  | acknowledge
  /-- The client's call goes on when its reply is there. -/
  | reply (i : ι)

/-- What a step brings about. -/
inductive Happening (ι : Type*) where
  | nothing
  | called (i : ι) (cmd : Command)
  /-- The handler has given the reply, and it goes to the peer. -/
  | handled (peer : Option ι) (cmd : Command) (reply : CommandReply)
  | returned (i : ι) (reply : CommandReply)
  | thrown (e : Fault)

section Step

variable [DecidableEq ι] (handler : σ → Command → CommandReply × σ)

/-- One step. A client in a call makes no other one, and the loop receives a command when it has
answered the one before. -/
def Exchange.step (s : Exchange ι σ) : Activity ι → Happening ι × Exchange ι σ
  | .call i cmd =>
    if s.calling i then (.nothing, s)
    else
      match ProtocolClient.sendRequest (s.clients i) cmd with
      | .error e => (.thrown e, s)
      | .ok (messages, socket) => (.called i cmd, { s with
          clients := Function.update s.clients i socket
          calling := Function.update s.calling i true
          requests := Function.update s.requests i (s.requests i ++ messages) })
  | .receive i =>
    if s.command.isSome then (.nothing, s)
    else
      match ProtocolCommandServer.receive s.server ((s.requests i).head?.map (i, ·)) with
      | .error e => (.thrown e, s)
      | .ok (command, server) => (.nothing, { s with
          server
          command
          requests := Function.update s.requests i (s.requests i).tail })
  | .acknowledge =>
    match s.command with
    | none => (.nothing, s)
    | some cmd =>
      let (reply, handlerState) := handler s.handlerState cmd
      match ProtocolCommandServer.acknowledge s.server reply with
      | .error e => (.thrown e, { s with handlerState })
      | .ok (messages, server) => (.handled s.server.peer cmd reply, { s with
          server
          command := none
          handlerState
          replies := messages.foldl
            (fun replies m => Function.update replies m.1 (replies m.1 ++ [m.2])) s.replies })
  | .reply i =>
    if s.calling i then
      match ProtocolClient.receiveReply (s.clients i) (s.replies i).head? with
      | .error e => (.thrown e, s)
      | .ok (none, socket) => (.nothing, { s with clients := Function.update s.clients i socket })
      | .ok (some reply, socket) => (.returned i reply, { s with
          clients := Function.update s.clients i socket
          calling := Function.update s.calling i false
          replies := Function.update s.replies i (s.replies i).tail })
    else (.nothing, s)

/-! ## The lockstep -/

/-- Where a client is in its call. -/
inductive Phase where
  | idle
  | requested (cmd : Command)
  /-- The server has its command. -/
  | served
  | replied (reply : CommandReply)

/-- The clients' phases, and the client that the server serves with its command. -/
structure Lockstep (ι σ : Type*) where
  phase : ι → Phase := fun _ => .idle
  serving : Option (ι × Command) := none
  handlerState : σ

def Lockstep.step (a : Lockstep ι σ) : Activity ι → Happening ι × Lockstep ι σ
  | .call i cmd =>
    match a.phase i with
    | .idle => (.called i cmd, { a with phase := Function.update a.phase i (.requested cmd) })
    | _ => (.nothing, a)
  | .receive i =>
    match a.serving, a.phase i with
    | none, .requested cmd => (.nothing, { a with
        phase := Function.update a.phase i .served
        serving := some (i, cmd) })
    | _, _ => (.nothing, a)
  | .acknowledge =>
    match a.serving with
    | none => (.nothing, a)
    | some (i, cmd) =>
      let (reply, handlerState) := handler a.handlerState cmd
      (.handled (some i) cmd reply, {
        phase := Function.update a.phase i (.replied reply)
        serving := none
        handlerState })
  | .reply i =>
    match a.phase i with
    | .replied reply =>
      (.returned i reply, { a with phase := Function.update a.phase i .idle })
    | _ => (.nothing, a)

end Step

/-- The client that is served is the one in the server. -/
def Lockstep.Consistent (a : Lockstep ι σ) : Prop :=
  ∀ i, a.phase i = .served ↔ ∃ cmd, a.serving = some (i, cmd)

section Cases

variable [DecidableEq ι] {handler : σ → Command → CommandReply × σ} {a : Lockstep ι σ}

/-- What a step of the lockstep can be. -/
inductive Lockstep.Step (handler : σ → Command → CommandReply × σ) (a : Lockstep ι σ) :
    Happening ι × Lockstep ι σ → Prop
  | stay : Step handler a (.nothing, a)
  | call (i : ι) (cmd : Command) : a.phase i = .idle → Step handler a
      (.called i cmd, { a with phase := Function.update a.phase i (.requested cmd) })
  | receive (i : ι) (cmd : Command) : a.serving = none → a.phase i = .requested cmd →
      Step handler a (.nothing, { a with
        phase := Function.update a.phase i .served
        serving := some (i, cmd) })
  | acknowledge (i : ι) (cmd : Command) : a.serving = some (i, cmd) → a.phase i = .served →
      Step handler a (.handled (some i) cmd (handler a.handlerState cmd).1, {
        phase := Function.update a.phase i (.replied (handler a.handlerState cmd).1)
        serving := none
        handlerState := (handler a.handlerState cmd).2 })
  | reply (i : ι) (reply : CommandReply) : a.phase i = .replied reply → Step handler a
      (.returned i reply, { a with phase := Function.update a.phase i .idle })

variable (handler) in
theorem Lockstep.Consistent.cases (ha : a.Consistent) (ev : Activity ι) :
    Lockstep.Step handler a (a.step handler ev) := by
  obtain ⟨phase, serving, handlerState⟩ := a
  cases ev with
  | call i cmd =>
    cases hp : phase i with
    | idle =>
      simp only [Lockstep.step, hp]
      exact .call i cmd hp
    | _ =>
      simp only [Lockstep.step, hp]
      exact .stay
  | receive i =>
    cases serving with
    | some ic => exact .stay
    | none =>
      cases hp : phase i with
      | requested cmd =>
        simp only [Lockstep.step, hp]
        exact .receive i cmd rfl hp
      | _ =>
        simp only [Lockstep.step, hp]
        exact .stay
  | acknowledge =>
    cases serving with
    | none => exact .stay
    | some ic => exact .acknowledge ic.1 ic.2 rfl ((ha ic.1).mpr ⟨ic.2, rfl⟩)
  | reply i =>
    cases hp : phase i with
    | replied reply =>
      simp only [Lockstep.step, hp]
      exact .reply i reply hp
    | _ =>
      simp only [Lockstep.step, hp]
      exact .stay

variable (handler) in
/-- A step leaves the served client the one in the server. -/
theorem Lockstep.Consistent.step (ha : a.Consistent) (ev : Activity ι) :
    (a.step handler ev).2.Consistent := by
  have h := ha.cases handler ev
  generalize a.step handler ev = r at h
  intro k
  have hk := ha k
  cases h with
  | stay => exact hk
  | call i cmd hp =>
    by_cases hki : k = i
    · subst hki
      simpa [hp] using hk
    · simpa [hki] using hk
  | receive i cmd hs hp =>
    by_cases hki : k = i
    · subst hki
      simp
    · simpa [hki, hs, Ne.symm hki] using hk
  | acknowledge i cmd hs hp =>
    by_cases hki : k = i
    · subst hki
      simp
    · simpa [hki, hs, Ne.symm hki] using hk
  | reply i reply hp =>
    by_cases hki : k = i
    · subst hki
      simpa [hp] using hk
    · simpa [hki] using hk

end Cases

/-! ## The exchange is the lockstep -/

/-- The message of a request. -/
def requestMessage (cmd : Command) : Message where
  first := cmd.commandVerb
  rest := [cmd.commandReceiver, cmd.commandData]

/-- The message of a reply. -/
def replyMessage (reply : CommandReply) : Message where
  first := reply.replyVerb
  rest := [reply.replyData]

def Phase.socket : Phase → ReqSocket
  | .idle => .ready []
  | _ => .awaiting

def Phase.calling : Phase → Bool
  | .idle => false
  | _ => true

def Phase.requests : Phase → List Message
  | .requested cmd => [requestMessage cmd]
  | _ => []

def Phase.replies : Phase → List Message
  | .replied reply => [replyMessage reply]
  | _ => []

/-- The server's socket. -/
def servingSocket : Option (ι × Command) → RepRouter ι
  | none => {}
  | some (i, _) => { socket := .replying, peer := some i }

/-- The exchange in a state of the lockstep. -/
def Lockstep.concretize (a : Lockstep ι σ) : Exchange ι σ where
  clients i := (a.phase i).socket
  calling i := (a.phase i).calling
  requests i := (a.phase i).requests
  replies i := (a.phase i).replies
  server := servingSocket a.serving
  command := a.serving.map (·.2)
  handlerState := a.handlerState

section Calls

variable (cmd : Command) (reply : CommandReply) (i : ι)

theorem sendRequest_ready : ProtocolClient.sendRequest (.ready []) cmd =
    .ok ([requestMessage cmd], .awaiting) := rfl

theorem receiveReply_none : ProtocolClient.receiveReply .awaiting none =
    .ok (none, .awaiting) := rfl

theorem receiveReply_some : ProtocolClient.receiveReply .awaiting (some (replyMessage reply)) =
    .ok (some reply, .ready []) := rfl

theorem receive_none : ProtocolCommandServer.receive (servingSocket none : RepRouter ι) none =
    .ok (none, servingSocket none) := rfl

theorem receive_some : ProtocolCommandServer.receive (servingSocket none)
    (some (i, requestMessage cmd)) = .ok (some cmd, servingSocket (some (i, cmd))) := rfl

theorem acknowledge_serving :
    ProtocolCommandServer.acknowledge (servingSocket (some (i, cmd))) reply =
      .ok ([(i, replyMessage reply)], servingSocket none) := rfl

end Calls

section Refinement

variable [DecidableEq ι] {handler : σ → Command → CommandReply × σ} {a : Lockstep ι σ}

theorem concretize_update (phase : ι → Phase) (i : ι) (p : Phase) (serving : Option (ι × Command))
    (handlerState : σ) :
    Lockstep.concretize ⟨Function.update phase i p, serving, handlerState⟩ = {
      clients := Function.update (fun k => (phase k).socket) i p.socket
      calling := Function.update (fun k => (phase k).calling) i p.calling
      requests := Function.update (fun k => (phase k).requests) i p.requests
      replies := Function.update (fun k => (phase k).replies) i p.replies
      server := servingSocket serving
      command := serving.map (·.2)
      handlerState } := by
  have hcomp : ∀ {β : Type} (f : Phase → β), (fun k => f (Function.update phase i p k)) =
      Function.update (fun k => f (phase k)) i (f p) := fun f => Function.comp_update f phase i p
  simp only [Lockstep.concretize, hcomp]

/-- **One step of the exchange** is the step of the lockstep. -/
theorem concretize_step (ha : a.Consistent) (ev : Activity ι) :
    a.concretize.step handler ev = ((a.step handler ev).1, (a.step handler ev).2.concretize) := by
  obtain ⟨phase, serving, handlerState⟩ := a
  cases ev with
  | call i cmd =>
    cases hp : phase i with
    | idle =>
      simp only [Exchange.step, Lockstep.step, hp, concretize_update]
      simp [Lockstep.concretize, hp, Phase.calling, Phase.socket, Phase.requests, Phase.replies,
        sendRequest_ready]
    | _ => simp [Exchange.step, Lockstep.step, Lockstep.concretize, hp, Phase.calling]
  | receive i =>
    cases serving with
    | some ic =>
      simp [Exchange.step, Lockstep.step, Lockstep.concretize]
    | none =>
      cases hp : phase i with
      | requested cmd =>
        simp only [Exchange.step, Lockstep.step, hp, concretize_update]
        simp [Lockstep.concretize, hp, Phase.calling, Phase.socket, Phase.requests, Phase.replies,
          receive_some]
      | _ =>
        simp [Exchange.step, Lockstep.step, Lockstep.concretize, hp, Phase.requests, receive_none]
  | acknowledge =>
    cases serving with
    | none => simp [Exchange.step, Lockstep.step, Lockstep.concretize]
    | some ic =>
      obtain ⟨i, cmd⟩ := ic
      have hp : phase i = .served := (ha i).mpr ⟨cmd, rfl⟩
      have hpeer : (servingSocket (some (i, cmd))).peer = some i := rfl
      simp only [Exchange.step, Lockstep.step, concretize_update]
      simp [Lockstep.concretize, hp, hpeer, Phase.calling, Phase.socket, Phase.requests,
        Phase.replies, acknowledge_serving]
  | reply i =>
    cases hp : phase i with
    | replied reply =>
      simp only [Exchange.step, Lockstep.step, hp, concretize_update]
      simp [Lockstep.concretize, hp, Phase.calling, Phase.socket, Phase.requests, Phase.replies,
          receiveReply_some]
    | _ =>
      simp [Exchange.step, Lockstep.step, Lockstep.concretize, hp, Phase.calling, Phase.socket,
        Phase.replies, receiveReply_none]

variable (handler) in
/-- **The run of the exchange** is the one of the lockstep. -/
theorem run_concretize (ha : a.Consistent) (events : List (Activity ι)) :
    outputs (Exchange.step handler) a.concretize events =
        outputs (Lockstep.step handler) a events ∧
      after (Exchange.step handler) a.concretize events =
        (after (Lockstep.step handler) a events).concretize ∧
      (after (Lockstep.step handler) a events).Consistent := by
  induction events generalizing a with
  | nil => exact ⟨rfl, rfl, ha⟩
  | cons ev events ih =>
    obtain ⟨hout, hafter, hlast⟩ := ih (ha.step handler ev)
    rw [outputs_cons, outputs_cons, after_cons, after_cons, concretize_step ha]
    exact ⟨by rw [hout], hafter, hlast⟩

/-- What holds along a run of the exchange. -/
theorem along_concretize {G : Exchange ι σ → Activity ι → Prop} (ha : a.Consistent)
    {events : List (Activity ι)} :
    Along (Exchange.step handler) G a.concretize events ↔
      Along (Lockstep.step handler) (fun a ev => G a.concretize ev) a events := by
  induction events generalizing a with
  | nil => exact Iff.rfl
  | cons ev events ih =>
    rw [along_cons, along_cons, concretize_step ha, ih (ha.step handler ev)]

end Refinement

/-! ## Runs -/

/-- The commands that the client sends. -/
def commandsOf [DecidableEq ι] (i : ι) : Happening ι → List Command
  | .called k cmd => if k = i then [cmd] else []
  | _ => []

/-- The commands that are handled, with their replies. -/
def handledCommands : Happening ι → List (Command × CommandReply)
  | .handled _ cmd reply => [(cmd, reply)]
  | _ => []

/-- Those that are handled for the client. -/
def handledFor [DecidableEq ι] (i : ι) : Happening ι → List (Command × CommandReply)
  | .handled peer cmd reply => if peer = some i then [(cmd, reply)] else []
  | _ => []

/-- The replies that the calls of the client return. -/
def repliesTo [DecidableEq ι] (i : ι) : Happening ι → List CommandReply
  | .returned k reply => if k = i then [reply] else []
  | _ => []

section Runs

variable [DecidableEq ι] {handler : σ → Command → CommandReply × σ} {a : Lockstep ι σ}

/-- The commands of the client that are sent and not received. -/
def Phase.sent : Phase → List Command
  | .requested cmd => [cmd]
  | _ => []

/-- The commands of the client that are sent and not handled. -/
def Lockstep.unhandled (a : Lockstep ι σ) (i : ι) : List Command :=
  match a.serving with
  | none => (a.phase i).sent
  | some (k, cmd) => if k = i then [cmd] else (a.phase i).sent

/-- The replies for the client that are produced and not returned. -/
def Lockstep.unreturned (a : Lockstep ι σ) (i : ι) : List CommandReply :=
  match a.phase i with
  | .replied reply => [reply]
  | _ => []

omit [DecidableEq ι] in
/-- A client that the server does not serve. -/
theorem Lockstep.Consistent.serving_ne (ha : a.Consistent) {i : ι} {jc : ι × Command}
    (hs : a.serving = some jc) (hp : a.phase i ≠ .served) : jc.1 ≠ i := by
  rintro rfl
  exact hp ((ha jc.1).mpr ⟨jc.2, hs⟩)

theorem Lockstep.Step.unhandled (ha : a.Consistent) {r : Happening ι × Lockstep ι σ}
    (h : Lockstep.Step handler a r) (k : ι) :
    a.unhandled k ++ commandsOf k r.1 = (handledFor k r.1).map (·.1) ++ r.2.unhandled k := by
  cases h with
  | stay => simp [commandsOf, handledFor]
  | call i cmd hp =>
    by_cases hki : k = i
    · subst hki
      cases hs : a.serving with
      | none => simp [commandsOf, handledFor, Lockstep.unhandled, hs, hp, Phase.sent]
      | some jc =>
        have hne : jc.1 ≠ k := ha.serving_ne hs (by simp [hp])
        simp [commandsOf, handledFor, Lockstep.unhandled, hs, hp, hne, Phase.sent]
    · simp [commandsOf, handledFor, Lockstep.unhandled, hki, Ne.symm hki]
  | receive i cmd hs hp =>
    by_cases hki : k = i
    · subst hki
      simp [commandsOf, handledFor, Lockstep.unhandled, hs, hp, Phase.sent]
    · simp [commandsOf, handledFor, Lockstep.unhandled, hki, Ne.symm hki, hs]
  | acknowledge i cmd hs hp =>
    by_cases hki : k = i
    · subst hki
      simp [commandsOf, handledFor, Lockstep.unhandled, hs, Phase.sent]
    · simp [commandsOf, handledFor, Lockstep.unhandled, hki, Ne.symm hki, hs]
  | reply i reply hp =>
    by_cases hki : k = i
    · subst hki
      cases hs : a.serving <;>
        simp [commandsOf, handledFor, Lockstep.unhandled, hp, hs, Phase.sent]
    · simp [commandsOf, handledFor, Lockstep.unhandled, hki]

theorem Lockstep.Step.unreturned {r : Happening ι × Lockstep ι σ}
    (h : Lockstep.Step handler a r) (k : ι) :
    a.unreturned k ++ (handledFor k r.1).map (·.2) = repliesTo k r.1 ++ r.2.unreturned k := by
  cases h with
  | stay => simp [repliesTo, handledFor]
  | call i cmd hp =>
    by_cases hki : k = i
    · subst hki
      simp [repliesTo, handledFor, Lockstep.unreturned, hp]
    · simp [repliesTo, handledFor, Lockstep.unreturned, hki]
  | receive i cmd hs hp =>
    by_cases hki : k = i
    · subst hki
      simp [repliesTo, handledFor, Lockstep.unreturned, hp]
    · simp [repliesTo, handledFor, Lockstep.unreturned, hki]
  | acknowledge i cmd hs hp =>
    by_cases hki : k = i
    · subst hki
      simp [repliesTo, handledFor, Lockstep.unreturned, hp]
    · simp [repliesTo, handledFor, Lockstep.unreturned, hki, Ne.symm hki]
  | reply i reply hp =>
    by_cases hki : k = i
    · subst hki
      simp [repliesTo, handledFor, Lockstep.unreturned, hp]
    · simp [repliesTo, handledFor, Lockstep.unreturned, hki, Ne.symm hki]

/-- A client in a call has one command or one reply on its way. -/
theorem Lockstep.Consistent.length_open (ha : a.Consistent) (i : ι) :
    (a.unhandled i).length + (a.unreturned i).length =
      if (a.phase i).calling then 1 else 0 := by
  unfold Lockstep.unhandled Lockstep.unreturned
  cases hp : a.phase i with
  | served =>
    obtain ⟨cmd, hs⟩ := (ha i).mp hp
    simp [hs, Phase.calling]
  | _ =>
    cases hs : a.serving with
    | none => simp [Phase.sent, Phase.calling]
    | some jc =>
      have hne : jc.1 ≠ i := ha.serving_ne hs (by simp [hp])
      simp [hne, Phase.sent, Phase.calling]

/-- No exception, and each reply goes to a client. -/
def Happening.Regular : Happening ι → Prop
  | .thrown _ => False
  | .handled none _ _ => False
  | _ => True

theorem Lockstep.Step.regular {r : Happening ι × Lockstep ι σ}
    (h : Lockstep.Step handler a r) : r.1.Regular := by
  cases h <;> trivial

/-- The handler takes the commands one after the other. -/
theorem Lockstep.Step.serial {r : Happening ι × Lockstep ι σ} (h : Lockstep.Step handler a r) :
    (handledCommands r.1).map (·.2) =
        outputs handler a.handlerState ((handledCommands r.1).map (·.1)) ∧
      r.2.handlerState = after handler a.handlerState ((handledCommands r.1).map (·.1)) := by
  cases h <;> exact ⟨rfl, rfl⟩

theorem serial_run (ha : a.Consistent) (events : List (Activity ι)) :
    ((outputs (Lockstep.step handler) a events).flatMap handledCommands).map (·.2) =
        outputs handler a.handlerState
          (((outputs (Lockstep.step handler) a events).flatMap handledCommands).map (·.1)) ∧
      (after (Lockstep.step handler) a events).handlerState = after handler a.handlerState
        (((outputs (Lockstep.step handler) a events).flatMap handledCommands).map (·.1)) := by
  induction events generalizing a with
  | nil => exact ⟨rfl, rfl⟩
  | cons ev events ih =>
    obtain ⟨hout, hstate⟩ := (ha.cases handler ev).serial
    obtain ⟨houts, hstates⟩ := ih (ha.step handler ev)
    rw [outputs_cons, after_cons, List.flatMap_cons, List.map_append, List.map_append,
      outputs_append, after_append, ← hstate, ← hout, ← houts, hstates]
    exact ⟨rfl, rfl⟩

/-- A call of a client that is in no other one sends its command, and nothing else does. -/
theorem Lockstep.called_iff (a : Lockstep ι σ) (ev : Activity ι) (i : ι) (cmd : Command) :
    (a.step handler ev).1 = .called i cmd ↔ ev = .call i cmd ∧ (a.phase i).calling = false := by
  cases ev with
  | call k c =>
    by_cases hk : k = i ∧ c = cmd
    · obtain ⟨rfl, rfl⟩ := hk
      cases hp : a.phase k <;> simp [Lockstep.step, hp, Phase.calling]
    · refine iff_of_false (fun h => hk ?_) (fun h => hk (by simpa using h.1))
      cases hp : a.phase k with
      | idle => simpa [Lockstep.step, hp] using h
      | _ => simp [Lockstep.step, hp] at h
  | receive k =>
    refine iff_of_false (fun h => ?_) (by simp)
    cases hs : a.serving <;> cases hp : a.phase k <;> simp [Lockstep.step, hs, hp] at h
  | acknowledge =>
    refine iff_of_false (fun h => ?_) (by simp)
    cases hs : a.serving <;> simp [Lockstep.step, hs] at h
  | reply k =>
    refine iff_of_false (fun h => ?_) (by simp)
    cases hp : a.phase k <;> simp [Lockstep.step, hp] at h

/-- From every state these steps bring the call of a client to its end. -/
theorem Lockstep.Consistent.completes (ha : a.Consistent) (i : ι) :
    (after (Lockstep.step handler) a [.acknowledge, .receive i, .acknowledge, .reply i]).phase i =
      .idle := by
  have hserving : (a.step handler .acknowledge).2.serving = none := by
    unfold Lockstep.step
    cases hs : a.serving with
    | none => exact hs
    | some ic => rfl
  have hb := ha.step handler .acknowledge
  rw [after_cons]
  generalize (a.step handler .acknowledge).2 = b at hb hserving
  cases hp : b.phase i with
  | served =>
    obtain ⟨cmd, hs⟩ := (hb i).mp hp
    rw [hserving] at hs
    cases hs
  | _ => simp [Lockstep.step, hserving, hp]

end Runs

/-- Each command is handled once. `happened` is what the steps of a run bring about, and `last` the
state after them. -/
structure ExactlyOnce [DecidableEq ι] (handler : σ → Command → CommandReply × σ) (start : σ)
    (events : List (Activity ι)) (happened : List (Happening ι)) (last : Exchange ι σ) : Prop where
  /-- A call sends its command when the client is in no other one, and only then. -/
  issued : Along (Exchange.step handler)
    (fun s ev => ∀ i cmd, (s.step handler ev).1 = .called i cmd ↔
      ev = .call i cmd ∧ s.calling i = false) { handlerState := start } events
  /-- No call throws. -/
  regular : ∀ h ∈ happened, h.Regular
  /-- The commands that are handled for a client are those that it sent, and its calls return the
  replies to them, in this order; the call that it is in may miss its command or its reply. -/
  own : ∀ i, ∃ unhandled unreturned,
    happened.flatMap (commandsOf i) =
      (happened.flatMap (handledFor i)).map (·.1) ++ unhandled ∧
    (happened.flatMap (handledFor i)).map (·.2) =
      happened.flatMap (repliesTo i) ++ unreturned ∧
    unhandled.length + unreturned.length = if last.calling i then 1 else 0
  /-- The handler takes all commands one after the other, and nothing else. -/
  serial : (happened.flatMap handledCommands).map (·.2) =
      outputs handler start ((happened.flatMap handledCommands).map (·.1)) ∧
    last.handlerState = after handler start ((happened.flatMap handledCommands).map (·.1))
  /-- Every call can come to its end. -/
  completes : ∀ i, (after (Exchange.step handler) last
    [.acknowledge, .receive i, .acknowledge, .reply i]).calling i = false

/-- **Commands are handled exactly once**, and replies go to their own sender, in every order of the
steps. -/
theorem commands_exactly_once [DecidableEq ι] (handler : σ → Command → CommandReply × σ) (start : σ)
    (events : List (Activity ι)) :
    ExactlyOnce handler start events
      (outputs (Exchange.step handler) { handlerState := start } events)
      (after (Exchange.step handler) { handlerState := start } events) := by
  have hstart : ({ handlerState := start } : Lockstep ι σ).Consistent := by
    intro i
    simp
  obtain ⟨hout, hafter, hlast⟩ := run_concretize handler hstart events
  have hconcrete : ({ handlerState := start } : Lockstep ι σ).concretize =
      ({ handlerState := start } : Exchange ι σ) := rfl
  rw [hconcrete] at hout hafter
  rw [hout, hafter]
  have hrun : Along (Lockstep.step handler) (fun _ _ => True)
    ({ handlerState := start } : Lockstep ι σ) events := along_input.mpr fun _ _ => trivial
  refine ⟨?_, ?_, fun i => ⟨_, _, ?_, ?_, hlast.length_open i⟩, serial_run hstart events,
    fun i => ?_⟩
  · rw [← hconcrete, along_concretize hstart]
    refine (hrun.mono_inv (I := Lockstep.Consistent) (fun a ev ha _ => ?_) hstart).1
    refine ⟨fun i cmd => ?_, ha.step handler ev⟩
    rw [concretize_step ha]
    exact a.called_iff ev i cmd
  · have hreg : Along (Lockstep.step handler) (fun a ev => (a.step handler ev).1.Regular)
        { handlerState := start } events := (hrun.mono_inv (I := Lockstep.Consistent)
      (fun a ev ha _ => ⟨(ha.cases handler ev).regular, ha.step handler ev⟩) hstart).1
    exact along_output.mp hreg
  · have hflow := hrun.flow (I := Lockstep.Consistent) (·.unhandled i) (fun p => commandsOf i p.2)
      (fun p => (handledFor i p.2).map (·.1))
      (fun a ev ha _ => ⟨(ha.cases handler ev).unhandled ha i, ha.step handler ev⟩) hstart
    rw [flatMap_trace_output, flatMap_trace_output fun o => (handledFor i o).map (·.1)] at hflow
    rw [List.map_flatMap]
    exact hflow
  · have hflow := hrun.flow (I := Lockstep.Consistent) (·.unreturned i)
      (fun p => (handledFor i p.2).map (·.2)) (fun p => repliesTo i p.2)
      (fun a ev ha _ => ⟨(ha.cases handler ev).unreturned i, ha.step handler ev⟩) hstart
    rw [flatMap_trace_output, flatMap_trace_output fun o => (handledFor i o).map (·.2)] at hflow
    rw [List.map_flatMap]
    exact hflow
  · rw [(run_concretize handler hlast _).2.1]
    show Phase.calling _ = false
    rw [hlast.completes i]
    rfl

/-- A handler that answers with the data of the command and the number of commands before it. -/
def echoHandler (n : Nat) (cmd : Command) : CommandReply × Nat :=
  ({ replyVerb := lit "OK", replyData := UInt8.ofNat n :: cmd.commandData }, n + 1)

/-- A command with the data. -/
def ping (commandData : Bytes) : Command where
  commandVerb := lit "ping"
  commandReceiver := []
  commandData

/-- Two clients call, the second one is served first, and it calls again. -/
def twoClients : List (Activity Bool) :=
  [.call false (ping [7]), .call true (ping []), .receive true, .call true (ping [9]),
    .acknowledge, .receive false, .reply true, .call true (ping [8]), .acknowledge, .reply false]

theorem commands_exactly_once_two : ExactlyOnce echoHandler 0 twoClients
    [.called false (ping [7]), .called true (ping []), .nothing, .nothing,
      .handled (some true) (ping []) ⟨lit "OK", [0]⟩, .nothing, .returned true ⟨lit "OK", [0]⟩,
      .called true (ping [8]), .handled (some false) (ping [7]) ⟨lit "OK", [1, 7]⟩,
      .returned false ⟨lit "OK", [1, 7]⟩]
    (after (Exchange.step echoHandler) { handlerState := 0 } twoClients) :=
  commands_exactly_once echoHandler 0 twoClients

end Protos

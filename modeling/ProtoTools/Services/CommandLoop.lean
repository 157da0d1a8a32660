import ProtoTools.Services.Commands

/-!
# Messages of any shape in the command loop and in `sendCommand`

What `Commands.lean` leaves out: requests and replies with any number of frames, and a handler that
is empty or throws. An exception that leaves the loop ends the program.

* `CommandThread.step`: a pass of the loop in `startCommandHandler`. `pass_eq`: what it does, by the
  frames of the request.
* `served_until`: the requests are answered up to the first one that has not three frames or whose
  handler throws.
* `ProtocolClient.sendCommand`: the call with the reply that it gets. `heard_until`: the calls
  return up to a reply of more than two frames, and then none sends its command.
-/

namespace Protos

open Machine

variable {ι σ : Type*}

/-! ## The loop -/

/-- `CommandHandler`, with the state that it can change. It may be empty, and it may throw. -/
abbrev CommandHandler (σ : Type*) := Option (σ → Command → Except Fault CommandReply × σ)

def CommandHandler.call (handler : CommandHandler σ) (s : σ) (cmd : Command) :
    Except Fault CommandReply × σ :=
  match handler with
  | none => (.error .badFunctionCall, s)
  | some handler => handler s cmd

/-- What a pass of the loop did, and the exception that left it. -/
structure CommandPass (ι : Type*) where
  /-- The command that the handler was called with. -/
  called : Option Command := none
  replies : List (ι × Message) := []
  thrown : Option Fault := none

/-- The thread that runs the loop. -/
inductive CommandThread (ι σ : Type*) where
  | running (cmdSocket : RepRouter ι) (handlerState : σ)
  /-- An exception has left the loop. -/
  | ended

/-- A pass of the loop, on the request that `receive` waits for. -/
def CommandThread.step (handler : CommandHandler σ) :
    CommandThread ι σ → ι × Message → CommandPass ι × CommandThread ι σ
  | .ended, _ => ({}, .ended)
  | .running cmdSocket s, request =>
    match ProtocolCommandServer.receive cmdSocket (some request) with
    | .error e => ({ thrown := some e }, .ended)
    | .ok (none, cmdSocket) => ({}, .running cmdSocket s)
    | .ok (some cmd, cmdSocket) =>
      match handler.call s cmd with
      | (.error e, _) => ({ called := some cmd, thrown := some e }, .ended)
      | (.ok reply, s) =>
        match ProtocolCommandServer.acknowledge cmdSocket reply with
        | .error e => ({ called := some cmd, thrown := some e }, .ended)
        | .ok (replies, cmdSocket) => ({ called := some cmd, replies }, .running cmdSocket s)

/-- The command of the first three frames. -/
def commandOf (m : Message) : Command where
  commandVerb := m.first
  commandReceiver := m.rest.getD 0 []
  commandData := m.rest.getD 1 []

section Loop

variable {handler : CommandHandler σ} {s s' : σ} {i : ι} {m : Message}

theorem receive_short (h : m.rest.length < 2) :
    ProtocolCommandServer.receive (servingSocket none) (some (i, m)) = .error .efsm := by
  obtain ⟨first, rest⟩ := m
  match rest with
  | [] => rfl
  | [_] => rfl
  | _ :: _ :: _ => simp at h

theorem receive_long (h : 2 < m.rest.length) :
    ∃ next more, ProtocolCommandServer.receive (servingSocket none) (some (i, m)) =
      .ok (some (commandOf m), { socket := .receiving next more, peer := some i }) := by
  obtain ⟨first, rest⟩ := m
  match rest with
  | [] | [_] | [_, _] => simp at h
  | _ :: _ :: next :: more => exact ⟨next, more, rfl⟩

theorem commandOf_eq (h : m.rest.length = 2) : m = requestMessage (commandOf m) := by
  obtain ⟨first, rest⟩ := m
  match rest with
  | [] | [_] | _ :: _ :: _ :: _ => simp at h
  | [_, _] => rfl

/-- What a pass on a request does to a loop that waits for one. -/
inductive Pass (handler : CommandHandler σ) (s : σ) (i : ι) (m : Message) :
    CommandPass ι × CommandThread ι σ → Prop
  | short : m.rest.length < 2 → Pass handler s i m ({ thrown := some .efsm }, .ended)
  | throws (e : Fault) (s' : σ) : 2 ≤ m.rest.length →
      handler.call s (commandOf m) = (.error e, s') →
      Pass handler s i m ({ called := some (commandOf m), thrown := some e }, .ended)
  | long (reply : CommandReply) (s' : σ) : 2 < m.rest.length →
      handler.call s (commandOf m) = (.ok reply, s') →
      Pass handler s i m ({ called := some (commandOf m), thrown := some .efsm }, .ended)
  | answered (reply : CommandReply) (s' : σ) : m.rest.length = 2 →
      handler.call s (commandOf m) = (.ok reply, s') →
      Pass handler s i m ({ called := some (commandOf m), replies := [(i, replyMessage reply)] },
        .running (servingSocket none) s')

variable (handler s i m) in
/-- **A pass** of the loop. -/
theorem pass_cases : Pass handler s i m
    (CommandThread.step handler (.running (servingSocket none) s) (i, m)) := by
  rcases Nat.lt_trichotomy m.rest.length 2 with hshort | htwo | hlong
  · simp only [CommandThread.step, receive_short hshort]
    exact .short hshort
  · have hreceive : ProtocolCommandServer.receive (servingSocket none) (some (i, m)) =
        .ok (some (commandOf m), servingSocket (some (i, commandOf m))) := by
      rw [commandOf_eq htwo]
      exact receive_some _ i
    rcases hcall : handler.call s (commandOf m) with ⟨e | reply, s'⟩
    · simp only [CommandThread.step, hreceive, hcall]
      exact .throws e s' htwo.ge hcall
    · simp only [CommandThread.step, hreceive, hcall, acknowledge_serving]
      exact .answered reply s' htwo hcall
  · obtain ⟨next, more, hreceive⟩ := receive_long (i := i) hlong
    rcases hcall : handler.call s (commandOf m) with ⟨e | reply, s'⟩
    · simp only [CommandThread.step, hreceive, hcall]
      exact .throws e s' hlong.le hcall
    · have hacknowledge : ProtocolCommandServer.acknowledge
          { socket := .receiving next more, peer := some i } reply = .error .efsm := rfl
      simp only [CommandThread.step, hreceive, hcall, hacknowledge]
      exact .long reply s' hlong hcall

/-- How the loop ends on the requests that it has not answered: the commands that the handler is
still called with, and the exception. -/
inductive LoopEnd (handler : CommandHandler σ) (s : σ) : List (ι × Message) → List Command →
    List Fault → CommandThread ι σ → Prop
  /-- It waits for the next request. -/
  | waits : LoopEnd handler s [] [] [] (.running (servingSocket none) s)
  /-- A request of one frame or two: the second or third `recv` throws. -/
  | short (p : ι × Message) (unheard : List (ι × Message)) : p.2.rest.length < 2 →
      LoopEnd handler s (p :: unheard) [] [.efsm] .ended
  | throws (p : ι × Message) (unheard : List (ι × Message)) (e : Fault) (s' : σ) :
      2 ≤ p.2.rest.length → handler.call s (commandOf p.2) = (.error e, s') →
      LoopEnd handler s (p :: unheard) [commandOf p.2] [e] .ended
  /-- A request of four frames or more: the handler is called, and the `send` throws. -/
  | long (p : ι × Message) (unheard : List (ι × Message)) (reply : CommandReply) (s' : σ) :
      2 < p.2.rest.length → handler.call s (commandOf p.2) = (.ok reply, s') →
      LoopEnd handler s (p :: unheard) [commandOf p.2] [.efsm] .ended

/-- The requests are answered one after the other, each with the handler's reply to its command, to
the peer that it came from. -/
structure ServedUntil (handler : CommandHandler σ) (start : σ) (answered rest : List (ι × Message))
    (passes : List (CommandPass ι)) (last : CommandThread ι σ) : Prop where
  threeFrames : ∀ p ∈ answered, p.2.rest.length = 2
  replies : ∃ replies : List CommandReply,
    outputs handler.call start (answered.map fun p => commandOf p.2) = replies.map .ok ∧
    passes.flatMap (·.replies) =
      List.zipWith (fun p reply => (p.1, replyMessage reply)) answered replies
  ends : ∃ calls faults, LoopEnd handler
      (after handler.call start (answered.map fun p => commandOf p.2)) rest calls faults last ∧
    passes.filterMap (·.called) = (answered.map fun p => commandOf p.2) ++ calls ∧
    passes.filterMap (·.thrown) = faults

variable (handler) in
theorem outputs_ended (requests : List (ι × Message)) :
    outputs (CommandThread.step handler) .ended requests =
        List.replicate requests.length {} ∧
      after (CommandThread.step handler) .ended requests = .ended := by
  induction requests with
  | nil => exact ⟨rfl, rfl⟩
  | cons p requests ih => exact ⟨congrArg _ ih.1, ih.2⟩

/-- The loop ends in its first pass. -/
theorem servedUntil_ended {p : ι × Message} {unheard : List (ι × Message)} {pass : CommandPass ι}
    {calls : List Command} {faults : List Fault}
    (hpass : CommandThread.step handler (.running (servingSocket none) s) p = (pass, .ended))
    (hend : LoopEnd handler s (p :: unheard) calls faults .ended) (hreplies : pass.replies = [])
    (hcalls : pass.called.toList = calls) (hfaults : pass.thrown.toList = faults) :
    ServedUntil handler s [] (p :: unheard)
      (outputs (CommandThread.step handler) (.running (servingSocket none) s) (p :: unheard))
      (after (CommandThread.step handler) (.running (servingSocket none) s) (p :: unheard)) := by
  obtain ⟨houtputs, hafter⟩ := outputs_ended handler unheard
  rw [outputs_cons, after_cons, hpass, houtputs, hafter]
  refine ⟨fun p hp => absurd hp List.not_mem_nil, ⟨[], rfl, ?_⟩, calls, faults, hend, ?_, ?_⟩
  · simp [hreplies]
  · rw [← hcalls]
    cases h : pass.called <;> simp [h]
  · rw [← hfaults]
    cases h : pass.thrown <;> simp [h]

variable (handler) in
/-- **Commands are served until** a request has not three frames or its handler throws. The handler
takes the commands one after the other, and each reply goes to the peer of its request. -/
theorem served_until (start : σ) (requests : List (ι × Message)) :
    ∃ answered rest, requests = answered ++ rest ∧ ServedUntil handler start answered rest
      (outputs (CommandThread.step handler) (.running {} start) requests)
      (after (CommandThread.step handler) (.running {} start) requests) := by
  change ∃ answered rest, requests = answered ++ rest ∧ ServedUntil handler start answered rest
    (outputs (CommandThread.step handler) (.running (servingSocket none) start) requests)
    (after (CommandThread.step handler) (.running (servingSocket none) start) requests)
  induction requests generalizing start with
  | nil =>
    exact ⟨[], [], rfl, fun p hp => absurd hp List.not_mem_nil, ⟨[], rfl, rfl⟩, [], [], .waits,
      rfl, rfl⟩
  | cons p requests ih =>
    obtain ⟨i, m⟩ := p
    have hpass := pass_cases handler start i m
    generalize hr : CommandThread.step handler (.running (servingSocket none) start) (i, m) = r
      at hpass
    cases hpass with
    | short h =>
      exact ⟨[], _, rfl, servedUntil_ended hr (.short _ _ h) rfl rfl rfl⟩
    | throws e s' h hcall =>
      exact ⟨[], _, rfl, servedUntil_ended hr (.throws _ _ e s' h hcall) rfl rfl rfl⟩
    | long reply s' h hcall =>
      exact ⟨[], _, rfl, servedUntil_ended hr (.long _ _ reply s' h hcall) rfl rfl rfl⟩
    | answered reply s' h hcall =>
      obtain ⟨answered, rest, rfl, hframes, ⟨replies, hreturned, hreplied⟩, calls, faults, hend,
        hcalls, hfaults⟩ := ih s'
      refine ⟨(i, m) :: answered, rest, rfl, ?_, ⟨reply :: replies, ?_, ?_⟩, calls, faults, ?_, ?_,
        ?_⟩
      · exact List.forall_mem_cons.mpr ⟨h, hframes⟩
      · rw [List.map_cons, outputs_cons, hcall, hreturned]
        rfl
      · rw [outputs_cons, hr, List.flatMap_cons, hreplied]
        rfl
      · rw [List.map_cons, after_cons, after_cons, hcall, hr]
        exact hend
      · rw [outputs_cons, hr, List.map_cons, List.cons_append, ← hcalls]
        rfl
      · rw [outputs_cons, hr, ← hfaults]
        rfl

end Loop

/-! ## `sendCommand` -/

/-- `sendCommand`, with the reply that comes: the messages that go out, and the result. A call that
throws leaves the socket as its last step did. -/
def ProtocolClient.sendCommand (cmdSocket : ReqSocket) (call : Command × Message) :
    (List Message × Except Fault CommandReply) × ReqSocket :=
  match ProtocolClient.sendRequest cmdSocket call.1 with
  | .error e => (([], .error e), cmdSocket)
  | .ok (requests, cmdSocket) =>
    match cmdSocket.recv (some call.2) with
    | .error e => ((requests, .error e), cmdSocket)
    | .ok (replyVerb, cmdSocket) =>
      match cmdSocket.recv none with
      | .error e => ((requests, .error e), cmdSocket)
      | .ok (replyData, cmdSocket) =>
        ((requests, .ok { replyVerb := replyVerb.getD [], replyData := replyData.getD [] }),
          cmdSocket)

/-- The result of a call with the reply: its first two frames. -/
def replyOf (m : Message) : Except Fault CommandReply :=
  match m.rest with
  | [] => .error .efsm
  | replyData :: _ => .ok { replyVerb := m.first, replyData }

section Calls

variable {call : Command × Message}

/-- A call sends its command, and takes two frames of the reply. -/
theorem sendCommand_ready : ProtocolClient.sendCommand (.ready []) call =
    (([requestMessage call.1], replyOf call.2), ReqSocket.afterFrame call.2.rest.tail) := by
  obtain ⟨cmd, first, rest⟩ := call
  match rest with
  | [] => rfl
  | [_] => rfl
  | _ :: _ :: _ => rfl

/-- With frames of a reply left, a call throws before it sends its command. -/
theorem sendCommand_receiving (next : Bytes) (more : List Bytes) :
    ProtocolClient.sendCommand (.receiving next more) call =
      (([], .error .efsm), .receiving next more) := rfl

theorem outputs_receiving (next : Bytes) (more : List Bytes) (calls : List (Command × Message)) :
    outputs ProtocolClient.sendCommand (.receiving next more) calls =
      calls.map fun _ => ([], .error .efsm) := by
  induction calls with
  | nil => rfl
  | cons call calls ih => rw [outputs_cons, sendCommand_receiving, ih, List.map_cons]

/-- **Calls are heard until** a reply of more than two frames. A call returns the first two frames
of its reply, or throws when there is only one, and the next call goes on; after a longer reply no
call sends its command, and all throw. -/
theorem heard_until (calls : List (Command × Message)) :
    ∃ heard lost, calls = heard ++ lost ∧
      (∀ call ∈ heard.dropLast, call.2.rest.length ≤ 1) ∧
      (lost ≠ [] → ∃ call, heard.getLast? = some call ∧ 1 < call.2.rest.length) ∧
      outputs ProtocolClient.sendCommand (.ready []) calls =
        (heard.map fun call => ([requestMessage call.1], replyOf call.2)) ++
          lost.map fun _ => ([], .error .efsm) := by
  induction calls with
  | nil => exact ⟨[], [], rfl, by simp, by simp, rfl⟩
  | cons call calls ih =>
    rw [outputs_cons, sendCommand_ready]
    cases htail : call.2.rest.tail with
    | nil =>
      obtain ⟨heard, lost, rfl, hshort, hlong, houtputs⟩ := ih
      have hlength : call.2.rest.length ≤ 1 := by
        have := congrArg List.length htail
        rw [List.length_tail, List.length_nil] at this
        omega
      refine ⟨call :: heard, lost, rfl, ?_, fun hlost => ?_, ?_⟩
      · cases heard with
        | nil => simp
        | cons c heard => exact List.forall_mem_cons.mpr ⟨hlength, hshort⟩
      · obtain ⟨c, hc, hmore⟩ := hlong hlost
        refine ⟨c, ?_, hmore⟩
        rw [List.getLast?_cons, hc]
        rfl
      · exact congrArg (_ :: ·) houtputs
    | cons next more =>
      have hlength : 1 < call.2.rest.length := by
        have := congrArg List.length htail
        rw [List.length_tail, List.length_cons] at this
        omega
      refine ⟨[call], calls, rfl, by simp, fun _ => ⟨call, rfl, hlength⟩, ?_⟩
      exact congrArg (_ :: ·) (outputs_receiving next more calls)

end Calls

end Protos

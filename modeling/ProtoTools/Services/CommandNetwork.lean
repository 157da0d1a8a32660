import ProtoTools.Services.CommandLoop
import ProtoTools.Services.Requests

/-!
# The command server with any programs

A server in the loop of `startCommandHandler`, and any number of programs that send requests of any
shape to it, in any interleaving of their steps. A program receives replies as `sendCommand` does.

* `CommandNetwork.step`: one step of a program, or a pass of the loop. `sendRequest_eq_sendAll`: a
  call of `sendCommand` is one of them.
* `Attends`: the network is a service (`Lib/Service.lean`) whose server is the thread of the loop.
* `handlerState_run`: the handler has taken the commands of the passes, one after the other.
* `commands_linearizable`: a reply is the handler's to the command of the program's own request, in
  a pass between the call and its return.
-/

namespace Protos

open Machine

variable {κ σ : Type*}

/-! ## The network -/

structure CommandNetwork (κ σ : Type*) where
  programs : κ → ReqSocket := fun _ => .ready []
  requests : κ → List Message := fun _ => []
  replies : κ → List Message := fun _ => []
  thread : CommandThread κ σ

/-- A step of one party. -/
inductive CommandEvent (κ : Type*) where
  /-- The program sends a request. -/
  | call (k : κ) (m : Message)
  /-- A pass of the loop takes the request of the program. -/
  | take (k : κ)
  /-- The `recv`s of the program end with its reply. -/
  | reply (k : κ)

/-- What a step brings about. -/
inductive CommandHappening (κ : Type*) where
  | nothing
  | sent (k : κ)
  | passed (pass : CommandPass κ)
  | returned (k : κ) (reply : Option CommandReply)
  | thrown (e : Fault)

namespace CommandNetwork

/-- The server in its loop, with the state of its handler. -/
def start (s : σ) : CommandNetwork κ σ where
  thread := .running {} s

variable [DecidableEq κ]

def step (handler : CommandHandler σ) (n : CommandNetwork κ σ) :
    CommandEvent κ → CommandHappening κ × CommandNetwork κ σ
  | .call k m =>
    match (n.programs k).sendAll m.first m.rest with
    | .error e => (.thrown e, n)
    | .ok (request, socket) => (.sent k, { n with
        programs := Function.update n.programs k socket
        requests := Function.update n.requests k (n.requests k ++ request.toList) })
  | .take k =>
    match n.thread, n.requests k with
    | .running socket s, m :: ms =>
      let (pass, thread) := CommandThread.step handler (.running socket s) (k, m)
      (.passed pass, { n with
        thread
        requests := Function.update n.requests k ms
        replies := pass.replies.foldl
          (fun replies (i, m) => Function.update replies i (replies i ++ [m])) n.replies })
    | _, _ => (.nothing, n)
  | .reply k =>
    match n.replies k with
    | [] => (.nothing, n)
    | m :: ms =>
      match ProtocolClient.receiveReply (n.programs k) (some m) with
      | .error e => (.thrown e, n)
      | .ok (reply, socket) => (.returned k reply, { n with
          programs := Function.update n.programs k socket
          replies := Function.update n.replies k ms })

end CommandNetwork

/-- The `send`s of `sendCommand` are those of its request. -/
theorem sendRequest_eq_sendAll (cmdSocket : ReqSocket) (cmd : Command) :
    ProtocolClient.sendRequest cmdSocket cmd =
      (cmdSocket.sendAll (requestMessage cmd).first (requestMessage cmd).rest).map
        fun (request, cmdSocket) => (request.toList, cmdSocket) := by
  cases cmdSocket <;> rfl

section Take

variable [DecidableEq κ] {handler : CommandHandler σ} {n : CommandNetwork κ σ} {k : κ}

theorem CommandNetwork.take_ended (ht : n.thread = .ended) :
    n.step handler (.take k) = (.nothing, n) := by
  simp only [step, ht]

theorem CommandNetwork.take_none (hk : n.requests k = []) :
    n.step handler (.take k) = (.nothing, n) := by
  unfold step
  cases n.thread <;> simp only [hk]

/-- A pass of the loop on the request of the program. -/
theorem CommandNetwork.take_pass {socket : RepRouter κ} {s : σ} (ht : n.thread = .running socket s)
    {m : Message} {ms : List Message} (hk : n.requests k = m :: ms) {pass : CommandPass κ}
    {thread : CommandThread κ σ}
    (hpass : CommandThread.step handler (.running socket s) (k, m) = (pass, thread)) :
    n.step handler (.take k) = (.passed pass, { n with
      thread
      requests := Function.update n.requests k ms
      replies := pass.replies.foldl
        (fun replies (i, m) => Function.update replies i (replies i ++ [m])) n.replies }) := by
  simp only [step, ht, hk, hpass]

end Take

/-! ## The network is a service -/

/-- A pass of the loop on a request, to the reply. -/
def CommandThread.answer (handler : CommandHandler σ) (t : CommandThread κ σ)
    (request : κ × Message) : Option Message × CommandThread κ σ :=
  let r := t.step handler request
  (r.1.replies.head?.map (·.2), r.2)

/-- The step of the service. A request has its sender. -/
def CommandEvent.toService : CommandEvent κ → Service.Event κ (κ × Message)
  | .call k m => .call k (k, m)
  | .take k => .serve k
  | .reply k => .finish k

/-- The loop waits for a request. -/
def CommandThread.Waits : CommandThread κ σ → Prop
  | .running socket _ => socket = servingSocket none
  | .ended => True

/-- The network is in the state of the service. -/
structure Attends (n : CommandNetwork κ σ)
    (a : Service.State κ (CommandThread κ σ) (κ × Message) Message) : Prop where
  thread : n.thread = a.server
  waits : n.thread.Waits
  programs : ∀ k, n.programs k = phaseSocket (a.phase k) ∧ a.phase k ≠ .left
  requests : n.thread = .ended ∨ ∀ k, n.requests k = ((a.request k).map (·.2)).toList
  senders : ∀ k p, a.request k = some p → p.1 = k
  replies : ∀ k, n.replies k = (a.reply k).toList
  frames : ∀ k m, a.reply k = some m → ∃ reply, m = replyMessage reply

section Simulation

variable [DecidableEq κ] {handler : CommandHandler σ} {n : CommandNetwork κ σ}
  {a : Service.State κ (CommandThread κ σ) (κ × Message) Message}

theorem Attends.call (h : Attends n a) (hready : ∀ k, a.phase k = .ready →
    a.request k = none ∧ a.reply k = none) (k : κ) (m : Message) :
    Attends (n.step handler (.call k m)).2
      (Service.step (CommandThread.answer handler) a (.call k (k, m))).2 := by
  obtain ⟨hsocket, hleft⟩ := h.programs k
  cases hp : a.phase k with
  | ready =>
    rw [hp] at hsocket
    have hn : (n.step handler (.call k m)).2 = { n with
        programs := Function.update n.programs k .awaiting
        requests := Function.update n.requests k (n.requests k ++ [m]) } := by
      simp only [CommandNetwork.step, hsocket, phaseSocket, sendAll_ready]
      rfl
    rw [hn, Service.step_call hp]
    refine ⟨h.thread, h.waits, fun l => ?_, ?_, fun l p hl => ?_, h.replies, h.frames⟩
    · by_cases hl : l = k
      · subst hl
        simp [phaseSocket]
      · simpa [hl] using h.programs l
    · refine h.requests.imp_right fun hr l => ?_
      by_cases hl : l = k
      · subst hl
        simp [hr l, (hready _ hp).1]
      · simp [hl, hr l]
    · by_cases hk : l = k
      · subst hk
        simp only [Function.update_self, Option.some.injEq] at hl
        rw [← hl]
      · exact h.senders l p (by simpa [hk] using hl)
  | calling =>
    rw [hp] at hsocket
    have hn : (n.step handler (.call k m)).2 = n := by
      simp only [CommandNetwork.step, hsocket, phaseSocket, sendAll_awaiting]
    rwa [hn, Service.step_call_busy (by simp [hp])]
  | left => exact absurd hp hleft

/-- A pass takes nothing. -/
theorem Attends.take_nothing (h : Attends n a) {k : κ}
    (hk : n.thread = .ended ∨ a.request k = none) : Attends (n.step handler (.take k)).2
      (Service.step (CommandThread.answer handler) a (.serve k)).2 := by
  cases ht : n.thread with
  | ended =>
    rw [CommandNetwork.take_ended ht]
    cases hreq : a.request k with
    | none => rwa [Service.step_serve_none hreq]
    | some p =>
      have hanswer : a.server.answer handler p = (none, a.server) := by
        rw [← h.thread, ht]
        rfl
      rwa [Service.step_serve_silent hreq hanswer]
  | running socket s =>
    have hreq := hk.resolve_left (by simp [ht])
    have hnone : n.requests k = [] := by
      rw [h.requests.resolve_left (by simp [ht]) k, hreq]
      rfl
    rwa [CommandNetwork.take_none hnone, Service.step_serve_none hreq]

section Pass

variable {s s' : σ} {k : κ} {m : Message} {pass : CommandPass κ}

/-- The pass ends the loop. -/
theorem Attends.take_ends (h : Attends n a) (ht : n.thread = .running (servingSocket none) s)
    (hreq : a.request k = some (k, m))
    (hpass : CommandThread.step handler (.running (servingSocket none) s) (k, m) = (pass, .ended))
    (hno : pass.replies = []) : Attends (n.step handler (.take k)).2
      (Service.step (CommandThread.answer handler) a (.serve k)).2 := by
  have hserver : a.server = .running (servingSocket none) s := h.thread.symm.trans ht
  have hsome : n.requests k = [m] := by
    rw [h.requests.resolve_left (by simp [ht]) k, hreq]
    rfl
  have hanswer : a.server.answer handler (k, m) = (none, .ended) := by
    simp only [CommandThread.answer, hserver, hpass, hno, List.head?_nil, Option.map_none]
  rw [CommandNetwork.take_pass ht hsome hpass, Service.step_serve_silent hreq hanswer, hno]
  exact ⟨rfl, trivial, h.programs, .inl rfl, h.senders, h.replies, h.frames⟩

/-- The pass answers. -/
theorem Attends.take_answers (h : Attends n a) (ht : n.thread = .running (servingSocket none) s)
    (hreq : a.request k = some (k, m)) (hnone : a.reply k = none) {reply : CommandReply}
    (hpass : CommandThread.step handler (.running (servingSocket none) s) (k, m) =
      (pass, .running (servingSocket none) s'))
    (hreply : pass.replies = [(k, replyMessage reply)]) : Attends (n.step handler (.take k)).2
      (Service.step (CommandThread.answer handler) a (.serve k)).2 := by
  have hserver : a.server = .running (servingSocket none) s := h.thread.symm.trans ht
  have hrequests := h.requests.resolve_left (by simp [ht])
  have hsome : n.requests k = [m] := by
    rw [hrequests k, hreq]
    rfl
  have hanswer : a.server.answer handler (k, m) =
      (some (replyMessage reply), .running (servingSocket none) s') := by
    simp only [CommandThread.answer, hserver, hpass, hreply, List.head?_cons, Option.map_some]
  rw [CommandNetwork.take_pass ht hsome hpass, Service.step_serve hreq hanswer, hreply]
  refine ⟨rfl, rfl, h.programs, .inr fun l => ?_, fun l p hl => ?_, toList_update h.replies ?_,
    fun l m' hl => ?_⟩
  · by_cases hk : l = k
    · subst hk
      simp
    · simp [hk, hrequests l]
  · by_cases hk : l = k
    · subst hk
      simp at hl
    · exact h.senders l p (by simpa [hk] using hl)
  · rw [h.replies k, hnone]
    rfl
  · by_cases hk : l = k
    · subst hk
      simp only [Function.update_self, Option.some.injEq] at hl
      exact ⟨reply, hl.symm⟩
    · exact h.frames l m' (by simpa [hk] using hl)

end Pass

theorem Attends.take (h : Attends n a) (hapart : ∀ k, a.request k = none ∨ a.reply k = none)
    (k : κ) : Attends (n.step handler (.take k)).2
      (Service.step (CommandThread.answer handler) a (.serve k)).2 := by
  cases ht : n.thread with
  | ended => exact h.take_nothing (.inl ht)
  | running socket s =>
    have hwaits := h.waits
    rw [ht] at hwaits
    obtain rfl : socket = servingSocket none := hwaits
    cases hreq : a.request k with
    | none => exact h.take_nothing (.inr hreq)
    | some p =>
      obtain ⟨j, m⟩ := p
      obtain rfl : j = k := h.senders _ _ hreq
      have hnone : a.reply j = none :=
        (hapart j).resolve_left (by rw [hreq]; exact Option.some_ne_none _)
      have hpass := pass_cases handler s j m
      generalize hr : CommandThread.step handler (.running (servingSocket none) s) (j, m) = r
        at hpass
      cases hpass with
      | short => exact h.take_ends ht hreq hr rfl
      | throws => exact h.take_ends ht hreq hr rfl
      | long => exact h.take_ends ht hreq hr rfl
      | answered => exact h.take_answers ht hreq hnone hr rfl

/-- A program whose reply has come. -/
theorem Attends.step_reply (h : Attends n a) {k : κ} (hp : a.phase k = .calling)
    {reply : CommandReply} (hm : a.reply k = some (replyMessage reply)) :
    n.step handler (.reply k) = (.returned k (some reply), { n with
      programs := Function.update n.programs k (.ready [])
      replies := Function.update n.replies k [] }) := by
  have hsocket := (h.programs k).1
  rw [hp] at hsocket
  have hreplies : n.replies k = [replyMessage reply] := by rw [h.replies, hm]; rfl
  simp only [CommandNetwork.step, hreplies, hsocket, phaseSocket, receiveReply_some]

theorem Attends.step_reply_nothing (h : Attends n a) {k : κ} (hm : a.reply k = none) :
    n.step handler (.reply k) = (.nothing, n) := by
  have hreplies : n.replies k = [] := by rw [h.replies, hm]; rfl
  simp only [CommandNetwork.step, hreplies]

omit [DecidableEq κ] in
theorem Attends.calling (h : Attends n a) (hready : ∀ k, a.phase k = .ready →
    a.request k = none ∧ a.reply k = none) {k : κ} {m : Message} (hm : a.reply k = some m) :
    a.phase k = .calling := by
  cases hp : a.phase k with
  | calling => rfl
  | left => exact absurd hp (h.programs k).2
  | ready =>
    rw [(hready k hp).2] at hm
    cases hm

theorem Attends.reply (h : Attends n a) (hready : ∀ k, a.phase k = .ready →
    a.request k = none ∧ a.reply k = none) (k : κ) :
    Attends (n.step handler (.reply k)).2
      (Service.step (CommandThread.answer handler) a (.finish k)).2 := by
  cases hm : a.reply k with
  | none => rwa [h.step_reply_nothing hm, Service.step_finish_idle (by simp [hm])]
  | some m =>
    obtain ⟨reply, rfl⟩ := h.frames k m hm
    have hp := h.calling hready hm
    rw [h.step_reply hp hm, Service.step_finish hp hm]
    refine ⟨h.thread, h.waits, fun l => ?_, h.requests, h.senders, toList_update h.replies rfl,
      fun l m' hl => ?_⟩
    · by_cases hl : l = k
      · subst hl
        simp [phaseSocket]
      · simpa [hl] using h.programs l
    · by_cases hk : l = k
      · subst hk
        simp at hl
      · exact h.frames l m' (by simpa [hk] using hl)

/-- What a program gets is a reply on its way in the service. -/
theorem Attends.returned (h : Attends n a) (hready : ∀ k, a.phase k = .ready →
    a.request k = none ∧ a.reply k = none) {k : κ} {result : Option CommandReply}
    (hreturned : (n.step handler (.reply k)).1 = .returned k result) :
    ∃ reply, a.reply k = some (replyMessage reply) ∧ result = some reply := by
  cases hm : a.reply k with
  | none =>
    rw [h.step_reply_nothing hm] at hreturned
    cases hreturned
  | some m =>
    obtain ⟨reply, rfl⟩ := h.frames k m hm
    rw [h.step_reply (h.calling hready hm) hm] at hreturned
    cases hreturned
    exact ⟨reply, rfl, rfl⟩

/-- **One step** of any party is a step of the service. -/
theorem Attends.step (h : Attends n a) (hready : ∀ k, a.phase k = .ready →
    a.request k = none ∧ a.reply k = none) (hapart : ∀ k, a.request k = none ∨ a.reply k = none)
    (ev : CommandEvent κ) : Attends (n.step handler ev).2
      (Service.step (CommandThread.answer handler) a ev.toService).2 := by
  cases ev with
  | call k m => exact h.call hready k m
  | take k => exact h.take hapart k
  | reply k => exact h.reply hready k

end Simulation

/-! ## Runs -/

section Runs

variable [DecidableEq κ] (handler : CommandHandler σ) (s : σ)

/-- **Every run** of the network is one of the service. -/
theorem attends_run (events : List (CommandEvent κ)) :
    Attends (after (CommandNetwork.step handler) (.start s) events)
      (after (Service.step (CommandThread.answer handler))
        { server := .running (servingSocket none) s } (events.map CommandEvent.toService)) := by
  induction events using List.reverseRecOn with
  | nil =>
    exact {
      thread := rfl
      waits := rfl
      programs := fun _ => ⟨rfl, Service.Phase.noConfusion⟩
      requests := .inr fun _ => rfl
      senders := fun _ _ hp => by cases hp
      replies := fun _ => rfl
      frames := fun _ _ hm => by cases hm }
  | append_singleton events ev ih =>
    rw [List.map_append, List.map_singleton, after_append, after_append]
    have hacc := Service.accounted (CommandThread.answer handler)
      (CommandThread.running (servingSocket none) s : CommandThread κ σ)
      (events.map CommandEvent.toService)
    exact ih.step (fun k => (hacc k).ready) (fun k => (hacc k).apart) ev

/-- The command that a pass called the handler with. -/
def calledBy : CommandHappening κ → List Command
  | .passed pass => pass.called.toList
  | _ => []

variable {handler} in
/-- What a step that leaves the loop running did to the handler. -/
theorem running_step {n : CommandNetwork κ σ} (hwaits : n.thread.Waits) {ev : CommandEvent κ}
    {socket : RepRouter κ} {s' : σ}
    (h : (n.step handler ev).2.thread = .running socket s') :
    socket = servingSocket none ∧ ∃ s, n.thread = .running (servingSocket none) s ∧
      s' = after handler.call s (calledBy (n.step handler ev).1) := by
  have hstay : n.thread = .running socket s' → calledBy (n.step handler ev).1 = [] →
      socket = servingSocket none ∧ ∃ s, n.thread = .running (servingSocket none) s ∧
        s' = after handler.call s (calledBy (n.step handler ev).1) := by
    intro ht hno
    rw [ht] at hwaits
    obtain rfl : socket = servingSocket none := hwaits
    rw [hno]
    exact ⟨rfl, s', ht, rfl⟩
  cases ev with
  | call k m =>
    refine hstay ?_ ?_
    · simp only [CommandNetwork.step] at h
      split at h <;> exact h
    · simp only [CommandNetwork.step]
      split <;> rfl
  | reply k =>
    refine hstay ?_ ?_
    · simp only [CommandNetwork.step] at h
      split at h
      · exact h
      · split at h <;> exact h
    · simp only [CommandNetwork.step]
      split
      · rfl
      · split <;> rfl
  | take k =>
    cases ht : n.thread with
    | ended =>
      rw [CommandNetwork.take_ended ht] at h
      exact absurd (ht.symm.trans h) (by simp)
    | running socket' s =>
      rw [ht] at hwaits
      obtain rfl : socket' = servingSocket none := hwaits
      cases hreq : n.requests k with
      | nil =>
        rw [CommandNetwork.take_none hreq] at h ⊢
        cases ht.symm.trans h
        exact ⟨rfl, s', rfl, rfl⟩
      | cons m ms =>
        have hpass := pass_cases handler s k m
        generalize hr : CommandThread.step handler (.running (servingSocket none) s) (k, m) = r
          at hpass
        rw [CommandNetwork.take_pass ht hreq hr] at h ⊢
        cases hpass with
        | short | throws | long => cases h
        | answered reply s'' hlen hcall =>
          cases h
          refine ⟨rfl, s, rfl, ?_⟩
          rw [calledBy, Option.toList_some]
          exact congrArg Prod.snd hcall.symm

/-- **The handler takes the commands one after the other.** While the loop runs, its state is the
one after the commands of the passes so far. -/
theorem handlerState_run {events : List (CommandEvent κ)} {socket : RepRouter κ} {s' : σ}
    (h : (after (CommandNetwork.step handler) (.start s) events).thread = .running socket s') :
    s' = after handler.call s ((outputs (CommandNetwork.step handler)
      (.start s : CommandNetwork κ σ) events).flatMap calledBy) := by
  induction events using List.reverseRecOn generalizing socket s' with
  | nil =>
    cases h
    rfl
  | append_singleton events ev ih =>
    rw [after_append] at h
    obtain ⟨-, s'', ht, rfl⟩ := running_step (attends_run handler s events).waits h
    rw [outputs_append, List.flatMap_append, after_append, ← ih ht]
    simp

omit [DecidableEq κ] in
/-- A call in the run of the service is one of the network. -/
theorem toService_split {events : List (CommandEvent κ)} {k : κ} {p : κ × Message}
    {before mid since : List (Service.Event κ (κ × Message))}
    (h : events.map CommandEvent.toService = before ++ .call k p :: (mid ++ .serve k :: since)) :
    ∃ pre m between post, events = pre ++ .call k m :: (between ++ .take k :: post) ∧
      p = (k, m) ∧ before = pre.map CommandEvent.toService ∧
      mid = between.map CommandEvent.toService ∧ since = post.map CommandEvent.toService := by
  obtain ⟨pre, rest, rfl, rfl, hrest⟩ := List.map_eq_append_iff.mp h
  obtain ⟨call, rest', rfl, hcall, hrest'⟩ := List.map_eq_cons_iff.mp hrest
  obtain ⟨between, last, rfl, rfl, hlast⟩ := List.map_eq_append_iff.mp hrest'
  obtain ⟨serve, post, rfl, hserve, rfl⟩ := List.map_eq_cons_iff.mp hlast
  cases call with
  | call k' m =>
    cases hcall
    cases serve with
    | take k' =>
      cases hserve
      exact ⟨pre, m, between, post, rfl, rfl, rfl, rfl, rfl⟩
    | _ => cases hserve
  | _ => cases hcall

variable {handler} {s} in
omit [DecidableEq κ] in
/-- Only the loop answers, and only requests of three frames, with the handler's reply. -/
theorem answer_some {t : CommandThread κ σ} (hwaits : t.Waits) {k : κ} {m : Message}
    {b : CommandReply} (h : (t.answer handler (k, m)).1 = some (replyMessage b)) :
    ∃ state cmd s', t = .running (servingSocket none) state ∧ m = requestMessage cmd ∧
      handler.call state cmd = (.ok b, s') := by
  cases t with
  | ended => cases h
  | running socket state =>
    obtain rfl : socket = servingSocket none := hwaits
    have hpass := pass_cases handler state k m
    unfold CommandThread.answer at h
    generalize CommandThread.step handler (.running (servingSocket none) state) (k, m) = r
      at hpass h
    cases hpass with
    | short | throws | long => cases h
    | answered reply s' hlen hcall =>
      obtain rfl : reply = b := by
        obtain ⟨verb, data⟩ := reply
        obtain ⟨verb', data'⟩ := b
        cases h
        rfl
      exact ⟨state, commandOf m, s', rfl, commandOf_eq hlen, hcall⟩

/-- A program that is in a call in the service waits for its reply. -/
theorem awaiting_of_calling {events : List (CommandEvent κ)} {k : κ}
    (h : (after (Service.step (CommandThread.answer handler))
      { server := .running (servingSocket none) s }
      (events.map CommandEvent.toService)).phase k = .calling) :
    (after (CommandNetwork.step handler) (.start s) events).programs k = .awaiting := by
  rw [((attends_run handler s events).programs k).1, h]
  rfl

/-- **Commands are linearizable.** Whatever the programs send, and in whatever order the steps of
all parties are made: a reply that a program gets is the one of the handler to the command of its
own request, which has three frames, in a pass of the loop between the call and its return; and the
handler was called there in the state after the commands of all passes before. -/
theorem commands_linearizable {events : List (CommandEvent κ)} {k : κ}
    {result : Option CommandReply}
    (h : ((after (CommandNetwork.step handler) (.start s) events).step handler (.reply k)).1 =
      .returned k result) :
    ∃ pre cmd mid post reply s',
      events = pre ++ .call k (requestMessage cmd) :: (mid ++ .take k :: post) ∧
      (∀ u, u <+: mid ++ .take k :: post →
        (after (CommandNetwork.step handler) (.start s)
          (pre ++ .call k (requestMessage cmd) :: u)).programs k = .awaiting) ∧
      handler.call (after handler.call s ((outputs (CommandNetwork.step handler)
        (.start s : CommandNetwork κ σ) (pre ++ .call k (requestMessage cmd) :: mid)).flatMap
          calledBy)) cmd = (.ok reply, s') ∧ result = some reply := by
  have hsim := attends_run handler s events
  have hacc := Service.accounted (CommandThread.answer handler)
    (CommandThread.running (servingSocket none) s : CommandThread κ σ)
    (events.map CommandEvent.toService)
  obtain ⟨b, hb, hresult⟩ := hsim.returned (fun k => (hacc k).ready) h
  have hp := hsim.calling (fun k => (hacc k).ready) hb
  have hfinish : (Service.step (CommandThread.answer handler)
      (after (Service.step (CommandThread.answer handler))
        { server := .running (servingSocket none) s } (events.map CommandEvent.toService))
      (.finish k)).1 = .finished k (replyMessage b) := by
    rw [Service.step_finish hp hb]
  obtain ⟨p, before, mid, since, hserved⟩ := Service.finished_between hfinish
  obtain ⟨pre, m, between, post, hevents, rfl, rfl, rfl, rfl⟩ := toService_split hserved.events
  have hphase : ∀ u, u <+: between ++ .take k :: post →
      (after (CommandNetwork.step handler) (.start s) (pre ++ .call k m :: u)).programs k =
        .awaiting := by
    intro u hu
    have hmap := hu.map CommandEvent.toService
    rw [List.map_append, List.map_cons] at hmap
    have hin := hserved.inCall (u.map CommandEvent.toService) hmap
    rw [← after_append, List.append_assoc] at hin
    exact awaiting_of_calling handler s (by rw [List.map_append, List.map_cons]; exact hin)
  have hthere := attends_run handler s (pre ++ .call k m :: between)
  have hthread := hthere.thread
  rw [List.map_append, List.map_cons] at hthread
  have hanswer := hserved.reply
  rw [show (after (Service.step (CommandThread.answer handler))
    { server := .running (servingSocket none) s } (pre.map CommandEvent.toService ++
      .call k (k, m) :: between.map CommandEvent.toService)).server = _ from hthread.symm]
    at hanswer
  obtain ⟨state, cmd, s', ht, rfl, hcall⟩ := answer_some hthere.waits hanswer
  rw [handlerState_run handler s ht] at hcall
  exact ⟨pre, cmd, between, post, b, s', hevents, hphase, hcall, hresult⟩

/-- The handler counts the commands, and has no reply to the third. -/
def countingHandler : CommandHandler Nat := some fun n _ =>
  if n < 2 then (.ok { replyVerb := lit "OK", replyData := [UInt8.ofNat n] }, n + 1)
  else (.error (.runtimeError (lit "third")), n)

/-- Two programs, and a request that was sent first and is taken last. -/
def twoCalls : List (CommandEvent Bool) :=
  [.call false (requestMessage ⟨lit "GO", [], []⟩), .call true (requestMessage ⟨[], [], []⟩),
    .take true, .take false]

theorem commands_linearizable_two :
    ∃ pre cmd mid post reply s',
      twoCalls = pre ++ .call false (requestMessage cmd) :: (mid ++ .take false :: post) ∧
      (∀ u, u <+: mid ++ .take false :: post →
        (after (CommandNetwork.step countingHandler) (.start 0)
          (pre ++ .call false (requestMessage cmd) :: u)).programs false = .awaiting) ∧
      countingHandler.call (after countingHandler.call 0
        ((outputs (CommandNetwork.step countingHandler) (.start 0 : CommandNetwork Bool Nat)
          (pre ++ .call false (requestMessage cmd) :: mid)).flatMap calledBy)) cmd =
            (.ok reply, s') ∧
      some ({ replyVerb := lit "OK", replyData := [1] } : CommandReply) = some reply :=
  commands_linearizable countingHandler 0 rfl

end Runs

end Protos

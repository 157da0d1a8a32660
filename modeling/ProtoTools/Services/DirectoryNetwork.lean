import ProtoTools.Services.DirectoryMap
import ProtoTools.Services.Requests

/-!
# The directory with all its clients

The directory server, any number of `ProtocolDirectoryClient`s and any number of other programs that
send requests, in any interleaving of their steps.

* `DirectoryNetwork.step`: one step of any party. A query is cut at its `recv`, a pass of the
  server's loop is one step.
* `Simulates`: the network is a service (`Lib/Service.lean`) whose server is the thread of the loop.
* `requests_linearizable`: a query returns the directory that the server had in a pass between the
  call and its return, whatever the other programs send.
* `queries_atomic`: when they send well-formed requests, this is the registry after the changes that
  the server has made until then.
-/

namespace Protos

open Machine ProtocolDirectoryServer

variable {ι κ : Type*}

/-! ## The network -/

structure DirectoryNetwork (ι κ : Type*) where
  clients : ι → ProtocolDirectoryClient
  /-- The clients that are in a call of `queryProtocols`, at its `recv`. -/
  querying : ι → Bool := fun _ => false
  /-- The sockets of the other programs. -/
  others : κ → ReqSocket := fun _ => .ready []
  requests : ι ⊕ κ → List Message := fun _ => []
  replies : ι ⊕ κ → List Message := fun _ => []
  thread : Thread

/-- A step of one party. -/
inductive DirectoryEvent (ι κ : Type*) where
  /-- The client calls `queryProtocols`. -/
  | query (i : ι)
  /-- Another program sends a request. -/
  | send (k : κ) (m : Message)
  /-- A pass of the loop takes a request of the party. -/
  | take (j : ι ⊕ κ)
  /-- A pass of the loop times out. -/
  | wait
  /-- The `recv` of the party ends with its reply. -/
  | reply (j : ι ⊕ κ)
  /-- The `recv` of the client times out. -/
  | timeout (i : ι)

/-- What a step brings about. -/
inductive DirectoryHappening (ι κ : Type*) where
  | nothing
  | sent (j : ι ⊕ κ)
  /-- A pass of the loop, with the request that it took. -/
  | passed (request : Option Message) (outcome : Outcome)
  | returned (i : ι) (result : Except Fault (List ProtocolDirectoryEntry))
  | replied (k : κ) (reply : Option Bytes)
  | thrown (e : Fault)

namespace DirectoryNetwork

/-- The clients after `bind`, and the server in its loop with the directory. -/
def start (clients : ι → ProtocolDirectoryClient) (d : ProtocolDirectoryServer) :
    DirectoryNetwork ι κ where
  clients i := (clients i).bind
  thread := .running { directory := d }

variable [DecidableEq ι] [DecidableEq κ]

def step (E : Environment) (n : DirectoryNetwork ι κ) :
    DirectoryEvent ι κ → DirectoryHappening ι κ × DirectoryNetwork ι κ
  | .query i =>
    if n.querying i then (.nothing, n)
    else
      match (n.clients i).sendList with
      | .error e => (.thrown e, n)
      | .ok (request, client) => (.sent (.inl i), { n with
          clients := Function.update n.clients i client
          querying := Function.update n.querying i true
          requests := Function.update n.requests (.inl i)
            (n.requests (.inl i) ++ request.toList) })
  | .send k m =>
    match (n.others k).sendAll m.first m.rest with
    | .error e => (.thrown e, n)
    | .ok (request, socket) => (.sent (.inr k), { n with
        others := Function.update n.others k socket
        requests := Function.update n.requests (.inr k)
          (n.requests (.inr k) ++ request.toList) })
  | .take j =>
    match n.thread, n.requests j with
    | .running s, m :: ms =>
      let (outcome, thread) := Thread.step E (.running s) (.request m.first m.rest)
      (.passed (some m) outcome, { n with
        thread
        requests := Function.update n.requests j ms
        replies := Function.update n.replies j
          (n.replies j ++ outcome.replies.map ({ first := · })) })
    | _, _ => (.nothing, n)
  | .wait =>
    let (outcome, thread) := n.thread.step E .timeout
    (.passed none outcome, { n with thread })
  | .reply (.inl i) =>
    match n.querying i, n.replies (.inl i) with
    | true, m :: ms =>
      let (result, client) := (n.clients i).receiveList E (some m)
      (.returned i result, { n with
        clients := Function.update n.clients i client
        querying := Function.update n.querying i false
        replies := Function.update n.replies (.inl i) ms })
    | _, _ => (.nothing, n)
  | .reply (.inr k) =>
    match n.replies (.inr k) with
    | [] => (.nothing, n)
    | m :: ms =>
      match (n.others k).recv (some m) with
      | .error e => (.thrown e, n)
      | .ok (reply, socket) => (.replied k reply, { n with
          others := Function.update n.others k socket
          replies := Function.update n.replies (.inr k) ms })
  | .timeout i =>
    if n.querying i then
      let (result, client) := (n.clients i).receiveList E none
      (.returned i result, { n with
        clients := Function.update n.clients i client
        querying := Function.update n.querying i false })
    else (.nothing, n)

end DirectoryNetwork

/-- What a step can do, to what it brings about and the network after it. -/
inductive DirectoryNetwork.Steps [DecidableEq ι] [DecidableEq κ] (E : Environment)
    (n : DirectoryNetwork ι κ) :
    DirectoryEvent ι κ → DirectoryHappening ι κ × DirectoryNetwork ι κ → Prop
  | idle (ev : DirectoryEvent ι κ) : Steps E n ev (.nothing, n)
  /-- A `send` or a `recv` in the wrong state of its socket. -/
  | throws (ev : DirectoryEvent ι κ) (e : Fault) : Steps E n ev (.thrown e, n)
  | query {i : ι} {request : Option Message} {client : ProtocolDirectoryClient} :
      (n.clients i).sendList = .ok (request, client) →
      Steps E n (.query i) (.sent (.inl i), { n with
        clients := Function.update n.clients i client
        querying := Function.update n.querying i true
        requests := Function.update n.requests (.inl i) (n.requests (.inl i) ++ request.toList) })
  | send {k : κ} {m : Message} {request : Option Message} {socket : ReqSocket} :
      (n.others k).sendAll m.first m.rest = .ok (request, socket) →
      Steps E n (.send k m) (.sent (.inr k), { n with
        others := Function.update n.others k socket
        requests := Function.update n.requests (.inr k) (n.requests (.inr k) ++ request.toList) })
  | take {j : ι ⊕ κ} {s : RequestServer} {m : Message} {ms : List Message} {outcome : Outcome}
      {thread : Thread} : n.thread = .running s → n.requests j = m :: ms →
      Thread.step E (.running s) (.request m.first m.rest) = (outcome, thread) →
      Steps E n (.take j) (.passed (some m) outcome, { n with
        thread
        requests := Function.update n.requests j ms
        replies := Function.update n.replies j
          (n.replies j ++ outcome.replies.map ({ first := · })) })
  | wait {outcome : Outcome} {thread : Thread} : n.thread.step E .timeout = (outcome, thread) →
      Steps E n .wait (.passed none outcome, { n with thread })
  | reply {i : ι} {m : Message} {ms : List Message}
      {result : Except Fault (List ProtocolDirectoryEntry)} {client : ProtocolDirectoryClient} :
      n.querying i = true → n.replies (.inl i) = m :: ms →
      (n.clients i).receiveList E (some m) = (result, client) →
      Steps E n (.reply (.inl i)) (.returned i result, { n with
        clients := Function.update n.clients i client
        querying := Function.update n.querying i false
        replies := Function.update n.replies (.inl i) ms })
  | replyOther {k : κ} {m : Message} {ms : List Message} {reply : Option Bytes}
      {socket : ReqSocket} : n.replies (.inr k) = m :: ms →
      (n.others k).recv (some m) = .ok (reply, socket) →
      Steps E n (.reply (.inr k)) (.replied k reply, { n with
        others := Function.update n.others k socket
        replies := Function.update n.replies (.inr k) ms })
  | timeout {i : ι} {result : Except Fault (List ProtocolDirectoryEntry)}
      {client : ProtocolDirectoryClient} : n.querying i = true →
      (n.clients i).receiveList E none = (result, client) →
      Steps E n (.timeout i) (.returned i result, { n with
        clients := Function.update n.clients i client
        querying := Function.update n.querying i false })

theorem DirectoryNetwork.step_cases [DecidableEq ι] [DecidableEq κ] (E : Environment)
    (n : DirectoryNetwork ι κ) (ev : DirectoryEvent ι κ) : n.Steps E ev (n.step E ev) := by
  cases ev with
  | query i =>
    simp only [step]
    split
    · exact .idle _
    · split
      · exact .throws _ _
      · rename_i hsend
        exact .query hsend
  | send k m =>
    simp only [step]
    split
    · exact .throws _ _
    · rename_i hsend
      exact .send hsend
  | take j =>
    simp only [step]
    split
    · rename_i ht hreq
      exact .take ht hreq rfl
    · exact .idle _
  | wait => exact .wait rfl
  | reply j =>
    cases j with
    | inl i =>
      simp only [step]
      split
      · rename_i hq hm
        exact .reply hq hm rfl
      · exact .idle _
    | inr k =>
      simp only [step]
      split
      · exact .idle _
      · split
        · exact .throws _ _
        · rename_i hm _ _ _ hrecv
          exact .replyOther hm hrecv
  | timeout i =>
    simp only [step]
    split
    · rename_i hq
      exact .timeout hq rfl
    · exact .idle _

/-! ## The network is a service -/

/-- A pass of the loop on a request, to the reply. -/
def Thread.answer (E : Environment) (t : Thread) (m : Message) : Option Message × Thread :=
  let r := t.step E (.request m.first m.rest)
  (r.1.replies.head?.map ({ first := · }), r.2)

/-- The request of a query. -/
def listMessage : Message := { first := lit "list" }

/-- The step of the service. -/
def DirectoryEvent.toService : DirectoryEvent ι κ → Service.Event (ι ⊕ κ) Message
  | .query i => .call (.inl i) listMessage
  | .send k m => .call (.inr k) m
  | .take j => .serve j
  | .wait => .pause
  | .reply j => .finish j
  | .timeout i => .leave (.inl i)

/-- The loop waits for a request, with the list of its entries cached. -/
def Thread.Sound (E : Environment) : Thread → Prop
  | .running s => s.repSocket = .idle ∧ s.directory.Coherent E
  | .ended => True

/-- The network is in the state of the service. -/
structure Simulates (E : Environment) (n : DirectoryNetwork ι κ)
    (a : Service.State (ι ⊕ κ) Thread Message Message) : Prop where
  thread : n.thread = a.server
  sound : n.thread.Sound E
  clients : ∀ i, (n.clients i).reqSocket = phaseSocket (a.phase (.inl i))
  querying : ∀ i, n.querying i = true ↔ a.phase (.inl i) = .calling
  others : ∀ k, n.others k = phaseSocket (a.phase (.inr k)) ∧ a.phase (.inr k) ≠ .left
  requests : n.thread = .ended ∨ ∀ j, n.requests j = (a.request j).toList
  replies : ∀ j, n.replies j = (a.reply j).toList
  single : ∀ j m, a.reply j = some m → m.rest = []

section Calls

variable {E : Environment} {s : RequestServer} {m : Message}

/-- **One pass of the loop** on a request sends one reply and waits again, or ends the thread. -/
theorem answer_running (hs : (Thread.running s).Sound E) (m : Message) :
    (∃ text s', Thread.step E (.running s) (.request m.first m.rest) =
        ({ published := [s.directory.completeListJson], replies := [text] }, .running s') ∧
        (Thread.running s').Sound E) ∨
      ∃ outcome, Thread.step E (.running s) (.request m.first m.rest) = (outcome, .ended) ∧
        outcome.replies = [] := by
  obtain ⟨hidle, hcoh⟩ := hs
  have hoperate : (s.operate E (.event (.request m.first m.rest))).1 = none →
      (s.operate E (.event (.request m.first m.rest))).2.directory.Coherent E :=
    coherent_operate hcoh
  simp only [RequestServer.operate] at hoperate
  simp only [Thread.step, RequestServer.serve, hidle, RepSocket.recv] at hoperate ⊢
  split
  · exact .inr ⟨_, rfl, rfl⟩
  · rename_i reply s' hhandle
    rw [hhandle] at hoperate
    simp only at hoperate
    cases hsend : s'.repSocket.send with
    | error e => exact .inr ⟨_, rfl, rfl⟩
    | ok socket =>
      rw [hsend] at hoperate
      refine .inl ⟨reply, _, rfl, ?_, hoperate rfl⟩
      cases hrep : s'.repSocket with
      | replying =>
        rw [hrep] at hsend
        cases hsend
        rfl
      | _ =>
        rw [hrep] at hsend
        cases hsend

/-- A pass that times out changes nothing. -/
theorem step_timeout {t : Thread} (ht : t.Sound E) : (t.step E .timeout).2 = t := by
  cases t with
  | ended => rfl
  | running s =>
    simp only [Thread.step, RequestServer.serve, ht.1, RepSocket.recv]
    obtain ⟨directory, repSocket⟩ := s
    cases ht.1
    rfl

/-- The reply to a query is the cached list. -/
theorem answer_list (hs : (Thread.running s).Sound E) :
    (Thread.answer E (.running s) listMessage).1 =
      some { first := s.directory.completeListJson } := by
  simp only [Thread.answer, Thread.step, RequestServer.serve, hs.1, RepSocket.recv,
    RequestServer.handle, listMessage, if_pos, RepSocket.afterFrame, RepSocket.send]
  rfl

end Calls

section Simulation

variable [DecidableEq ι] [DecidableEq κ] {E : Environment} {n : DirectoryNetwork ι κ}
  {a : Service.State (ι ⊕ κ) Thread Message Message}

theorem Simulates.query (h : Simulates E n a) (hready : ∀ j, a.phase j = .ready →
    a.request j = none ∧ a.reply j = none) (i : ι) :
    Simulates E (n.step E (.query i)).2
      (Service.step (Thread.answer E) a (.call (.inl i) listMessage)).2 := by
  cases hp : a.phase (.inl i) with
  | ready =>
    have hsocket : (n.clients i).reqSocket = .ready [] := by rw [h.clients i, hp]; rfl
    have hno : ¬ n.querying i = true := by rw [h.querying i, hp]; exact Service.Phase.noConfusion
    have hn : (n.step E (.query i)).2 = { n with
        clients := Function.update n.clients i { n.clients i with reqSocket := .awaiting }
        querying := Function.update n.querying i true
        requests := Function.update n.requests (.inl i)
          (n.requests (.inl i) ++ [listMessage]) } := by
      simp only [DirectoryNetwork.step, if_neg hno,
        ProtocolDirectoryClient.sendList_ready hsocket]
      rfl
    rw [hn, Service.step_call hp]
    refine ⟨h.thread, h.sound, fun k => ?_, fun k => ?_, fun k => ?_, ?_, h.replies, h.single⟩
    · by_cases hk : k = i
      · subst hk
        simp [phaseSocket]
      · simp [hk, h.clients k]
    · by_cases hk : k = i
      · subst hk
        simp
      · simp [hk, h.querying k]
    · simpa using h.others k
    · refine h.requests.imp_right fun hr => ?_
      apply toList_update hr
      rw [hr, (hready _ hp).1]
      rfl
  | calling =>
    have hn : (n.step E (.query i)).2 = n := by
      simp only [DirectoryNetwork.step, if_pos ((h.querying i).mpr hp)]
    rwa [hn, Service.step_call_busy (by simp [hp])]
  | left =>
    have hsocket : (n.clients i).reqSocket = .awaiting := by rw [h.clients i, hp]; rfl
    have hno : ¬ n.querying i = true := by rw [h.querying i, hp]; exact Service.Phase.noConfusion
    have hn : (n.step E (.query i)).2 = n := by
      simp only [DirectoryNetwork.step, if_neg hno,
        ProtocolDirectoryClient.sendList_awaiting hsocket]
    rwa [hn, Service.step_call_busy (by simp [hp])]

theorem Simulates.send (h : Simulates E n a) (hready : ∀ j, a.phase j = .ready →
    a.request j = none ∧ a.reply j = none) (k : κ) (m : Message) :
    Simulates E (n.step E (.send k m)).2
      (Service.step (Thread.answer E) a (.call (.inr k) m)).2 := by
  obtain ⟨hsocket, hleft⟩ := h.others k
  cases hp : a.phase (.inr k) with
  | ready =>
    rw [hp] at hsocket
    have hn : (n.step E (.send k m)).2 = { n with
        others := Function.update n.others k .awaiting
        requests := Function.update n.requests (.inr k) (n.requests (.inr k) ++ [m]) } := by
      simp only [DirectoryNetwork.step, hsocket, phaseSocket, sendAll_ready]
      rfl
    rw [hn, Service.step_call hp]
    refine ⟨h.thread, h.sound, fun i => ?_, fun i => ?_, fun l => ?_, ?_, h.replies, h.single⟩
    · simpa using h.clients i
    · simpa using h.querying i
    · by_cases hl : l = k
      · subst hl
        simp [phaseSocket]
      · simpa [hl] using h.others l
    · refine h.requests.imp_right fun hr => ?_
      apply toList_update hr
      rw [hr, (hready _ hp).1]
      rfl
  | calling =>
    rw [hp] at hsocket
    have hn : (n.step E (.send k m)).2 = n := by
      simp only [DirectoryNetwork.step, hsocket, phaseSocket, sendAll_awaiting]
    rwa [hn, Service.step_call_busy (by simp [hp])]
  | left => exact absurd hp hleft

theorem Simulates.take_ended (h : Simulates E n a) (ht : n.thread = .ended) (j : ι ⊕ κ) :
    Simulates E (n.step E (.take j)).2 (Service.step (Thread.answer E) a (.serve j)).2 := by
  have hn : (n.step E (.take j)).2 = n := by
    simp only [DirectoryNetwork.step, ht]
  rw [hn]
  cases hreq : a.request j with
  | none => rwa [Service.step_serve_none hreq]
  | some m =>
    have hanswer : a.server.answer E m = (none, a.server) := by
      rw [← h.thread, ht]
      rfl
    rwa [Service.step_serve_silent hreq hanswer]

/-- A pass of the loop on the request of the party. -/
theorem Simulates.take_request (h : Simulates E n a) {s : RequestServer}
    (ht : n.thread = .running s) {j : ι ⊕ κ} {m : Message} (hreq : a.request j = some m)
    (hnone : a.reply j = none) : Simulates E (n.step E (.take j)).2
      (Service.step (Thread.answer E) a (.serve j)).2 := by
  have hsound := h.sound
  rw [ht] at hsound
  have hserver : a.server = .running s := h.thread.symm.trans ht
  have hrequests := h.requests.resolve_left (by rw [ht]; exact Thread.noConfusion)
  have hsome : n.requests j = [m] := by rw [hrequests j, hreq]; rfl
  rcases answer_running hsound m with ⟨text, s', hstep, hsound'⟩ | ⟨outcome, hstep, hno⟩
  · have hn : (n.step E (.take j)).2 = { n with
        thread := .running s'
        requests := Function.update n.requests j []
        replies := Function.update n.replies j (n.replies j ++ [{ first := text }]) } := by
      simp only [DirectoryNetwork.step, ht, hsome, hstep, List.map_cons, List.map_nil]
    have hanswer : a.server.answer E m = (some { first := text }, .running s') := by
      simp only [Thread.answer, hserver, hstep, List.head?_cons, Option.map_some]
    rw [hn, Service.step_serve hreq hanswer]
    refine ⟨rfl, hsound', h.clients, h.querying, h.others, .inr (toList_update hrequests rfl),
      toList_update h.replies ?_, fun j' m' hm' => ?_⟩
    · rw [h.replies j, hnone]
      rfl
    · by_cases hj : j' = j
      · subst hj
        simp only [Function.update_self, Option.some.injEq] at hm'
        rw [← hm']
      · exact h.single j' m' (by simpa [hj] using hm')
  · have hn : (n.step E (.take j)).2 = { n with
        thread := .ended, requests := Function.update n.requests j [] } := by
      simp only [DirectoryNetwork.step, ht, hsome, hstep, hno, List.map_nil, List.append_nil,
        Function.update_eq_self]
    have hanswer : a.server.answer E m = (none, .ended) := by
      simp only [Thread.answer, hserver, hstep, hno, List.head?_nil, Option.map_none]
    rw [hn, Service.step_serve_silent hreq hanswer]
    exact ⟨rfl, trivial, h.clients, h.querying, h.others, .inl rfl, h.replies, h.single⟩

theorem Simulates.take (h : Simulates E n a) (hapart : ∀ j, a.request j = none ∨ a.reply j = none)
    (j : ι ⊕ κ) : Simulates E (n.step E (.take j)).2
      (Service.step (Thread.answer E) a (.serve j)).2 := by
  cases ht : n.thread with
  | ended => exact h.take_ended ht j
  | running s =>
    cases hreq : a.request j with
    | none =>
      have hnone : n.requests j = [] := by
        rw [h.requests.resolve_left (by rw [ht]; exact Thread.noConfusion) j, hreq]
        rfl
      have hn : (n.step E (.take j)).2 = n := by
        simp only [DirectoryNetwork.step, ht, hnone]
      rwa [hn, Service.step_serve_none hreq]
    | some m =>
      exact h.take_request ht hreq
        ((hapart j).resolve_left (by rw [hreq]; exact Option.some_ne_none m))

theorem Simulates.wait (h : Simulates E n a) : Simulates E (n.step E .wait).2 a := by
  have hn : (n.step E .wait).2 = n := by
    simp only [DirectoryNetwork.step, step_timeout h.sound]
  rwa [hn]

/-- The reply to a client that is in a call. -/
theorem step_reply {i : ι} {m : Message} (hq : n.querying i = true)
    (hm : n.replies (.inl i) = [m]) : n.step E (.reply (.inl i)) =
      (.returned i ((n.clients i).receiveList E (some m)).1, { n with
        clients := Function.update n.clients i ((n.clients i).receiveList E (some m)).2
        querying := Function.update n.querying i false
        replies := Function.update n.replies (.inl i) [] }) := by
  simp only [DirectoryNetwork.step, hq, hm]

theorem step_reply_nothing {i : ι} (h : n.querying i = false ∨ n.replies (.inl i) = []) :
    n.step E (.reply (.inl i)) = (.nothing, n) := by
  simp only [DirectoryNetwork.step]
  split
  · rename_i m ms hq hm
    rcases h with h | h
    · rw [hq] at h
      cases h
    · rw [hm] at h
      cases h
  · rfl

/-- A reply of one frame makes the socket ready, whatever it says. -/
theorem reqSocket_receiveList {c : ProtocolDirectoryClient} (hc : c.reqSocket = .awaiting)
    {m : Message} (hm : m.rest = []) :
    (c.receiveList E (some m)).2.reqSocket = .ready [] ∧
      (c.receiveList E (some m)).1 = decodeDirectory E m.first := by
  simp only [ProtocolDirectoryClient.receiveList, hc, ReqSocket.recv, hm, ReqSocket.afterFrame]
  cases decodeDirectory E m.first with
  | error e => exact ⟨rfl, rfl⟩
  | ok received => exact ⟨ProtocolDirectoryClient.reqSocket_updateDirectory _ _, rfl⟩

theorem Simulates.reply_client (h : Simulates E n a) (i : ι) :
    Simulates E (n.step E (.reply (.inl i))).2
      (Service.step (Thread.answer E) a (.finish (.inl i))).2 := by
  by_cases hin : a.phase (.inl i) = .calling ∧ ∃ m, a.reply (.inl i) = some m
  · obtain ⟨hp, m, hm⟩ := hin
    have hsocket : (n.clients i).reqSocket = .awaiting := by rw [h.clients i, hp]; rfl
    have hreplies : n.replies (.inl i) = [m] := by rw [h.replies, hm]; rfl
    rw [step_reply ((h.querying i).mpr hp) hreplies, Service.step_finish hp hm]
    refine ⟨h.thread, h.sound, fun k => ?_, fun k => ?_, fun k => ?_, h.requests,
      toList_update h.replies rfl, fun j m' hm' => ?_⟩
    · by_cases hk : k = i
      · subst hk
        simp [(reqSocket_receiveList hsocket (h.single _ m hm)).1, phaseSocket]
      · simp [hk, h.clients k]
    · by_cases hk : k = i
      · subst hk
        simp
      · simp [hk, h.querying k]
    · simpa using h.others k
    · by_cases hj : j = .inl i
      · subst hj
        simp at hm'
      · exact h.single j m' (by simpa [hj] using hm')
  · have hnothing : n.querying i = false ∨ n.replies (.inl i) = [] := by
      cases hm : a.reply (.inl i) with
      | none => exact .inr (by rw [h.replies, hm]; rfl)
      | some m =>
        left
        rw [← Bool.not_eq_true, h.querying i]
        exact fun hp => hin ⟨hp, m, hm⟩
    rwa [step_reply_nothing hnothing, Service.step_finish_idle hin]

theorem Simulates.reply_other (h : Simulates E n a) (hready : ∀ j, a.phase j = .ready →
    a.request j = none ∧ a.reply j = none) (k : κ) :
    Simulates E (n.step E (.reply (.inr k))).2
      (Service.step (Thread.answer E) a (.finish (.inr k))).2 := by
  obtain ⟨hsocket, hleft⟩ := h.others k
  cases hm : a.reply (.inr k) with
  | none =>
    have hreplies : n.replies (.inr k) = [] := by rw [h.replies, hm]; rfl
    have hn : (n.step E (.reply (.inr k))).2 = n := by
      simp only [DirectoryNetwork.step, hreplies]
    rwa [hn, Service.step_finish_idle (by simp [hm])]
  | some m =>
    have hreplies : n.replies (.inr k) = [m] := by rw [h.replies, hm]; rfl
    cases hp : a.phase (.inr k) with
    | ready =>
      rw [(hready _ hp).2] at hm
      cases hm
    | left => exact absurd hp hleft
    | calling =>
      rw [hp] at hsocket
      have hn : (n.step E (.reply (.inr k))).2 = { n with
          others := Function.update n.others k (.ready [])
          replies := Function.update n.replies (.inr k) [] } := by
        simp only [DirectoryNetwork.step, hreplies, hsocket, phaseSocket, ReqSocket.recv,
          h.single _ m hm, ReqSocket.afterFrame]
      rw [hn, Service.step_finish hp hm]
      refine ⟨h.thread, h.sound, fun i => ?_, fun i => ?_, fun l => ?_, h.requests,
        toList_update h.replies rfl, fun j m' hm' => ?_⟩
      · simpa using h.clients i
      · simpa using h.querying i
      · by_cases hl : l = k
        · subst hl
          simp [phaseSocket]
        · simpa [hl] using h.others l
      · by_cases hj : j = .inr k
        · subst hj
          simp at hm'
        · exact h.single j m' (by simpa [hj] using hm')

theorem Simulates.timeout (h : Simulates E n a) (i : ι) :
    Simulates E (n.step E (.timeout i)).2
      (Service.step (Thread.answer E) a (.leave (.inl i))).2 := by
  by_cases hp : a.phase (.inl i) = .calling
  · have hsocket : (n.clients i).reqSocket = .awaiting := by rw [h.clients i, hp]; rfl
    have hn : (n.step E (.timeout i)).2 = { n with
        querying := Function.update n.querying i false } := by
      simp only [DirectoryNetwork.step, if_pos ((h.querying i).mpr hp),
        ProtocolDirectoryClient.receiveList_none hsocket, Function.update_eq_self]
    rw [hn, Service.step_leave hp]
    refine ⟨h.thread, h.sound, fun k => ?_, fun k => ?_, fun k => ?_, h.requests, h.replies,
      h.single⟩
    · by_cases hk : k = i
      · subst hk
        simp [hsocket, phaseSocket]
      · simp [hk, h.clients k]
    · by_cases hk : k = i <;> simp [hk, h.querying k]
    · simpa using h.others k
  · have hn : (n.step E (.timeout i)).2 = n := by
      simp only [DirectoryNetwork.step, if_neg fun hq => hp ((h.querying i).mp hq)]
    rwa [hn, Service.step_leave_idle hp]

omit [DecidableEq ι] [DecidableEq κ] in
/-- A client whose reply is there waits for it, and it has one frame. -/
theorem Simulates.reply_there (h : Simulates E n a) {i : ι} {m : Message} {ms : List Message}
    (hq : n.querying i = true) (hm : n.replies (.inl i) = m :: ms) :
    (n.clients i).reqSocket = .awaiting ∧ a.reply (.inl i) = some m ∧ m.rest = [] ∧ ms = [] := by
  have hp := (h.querying i).mp hq
  have hreplies := (h.replies (.inl i)).symm.trans hm
  cases hr : a.reply (.inl i) with
  | none =>
    rw [hr] at hreplies
    cases hreplies
  | some m' =>
    rw [hr] at hreplies
    cases hreplies
    exact ⟨by rw [h.clients i, hp]; rfl, rfl, h.single _ m hr, rfl⟩

/-- What a query returns with is a reply on its way in the service. -/
theorem Simulates.returned (h : Simulates E n a) {i : ι}
    {result : Except Fault (List ProtocolDirectoryEntry)}
    (hreturned : (n.step E (.reply (.inl i))).1 = .returned i result) :
    ∃ m, a.phase (.inl i) = .calling ∧ a.reply (.inl i) = some m ∧
      result = decodeDirectory E m.first := by
  have hcases := n.step_cases E (.reply (.inl i))
  generalize n.step E (.reply (.inl i)) = after at hcases hreturned
  cases hcases with
  | idle => cases hreturned
  | throws => cases hreturned
  | @reply _ m _ _ _ hq hm hlist =>
    cases hreturned
    obtain ⟨hsocket, hreply, hrest, -⟩ := h.reply_there hq hm
    have hresult : ((n.clients i).receiveList E (some m)).1 = decodeDirectory E m.first :=
      (reqSocket_receiveList hsocket hrest).2
    rw [hlist] at hresult
    exact ⟨_, (h.querying i).mp hq, hreply, hresult⟩

/-- So is what another program gets. -/
theorem Simulates.replied (h : Simulates E n a) (hready : ∀ j, a.phase j = .ready →
    a.request j = none ∧ a.reply j = none) {k : κ} {reply : Option Bytes}
    (hreplied : (n.step E (.reply (.inr k))).1 = .replied k reply) :
    ∃ m, a.phase (.inr k) = .calling ∧ a.reply (.inr k) = some m ∧ reply = some m.first := by
  obtain ⟨hsocket, hleft⟩ := h.others k
  cases hm : a.reply (.inr k) with
  | none =>
    simp only [DirectoryNetwork.step, h.replies, hm, Option.toList_none] at hreplied
    cases hreplied
  | some m =>
    cases hp : a.phase (.inr k) with
    | ready =>
      rw [(hready _ hp).2] at hm
      cases hm
    | left => exact absurd hp hleft
    | calling =>
      rw [hp] at hsocket
      simp only [DirectoryNetwork.step, h.replies, hm, Option.toList_some, hsocket, phaseSocket,
        ReqSocket.recv] at hreplied
      cases hreplied
      exact ⟨m, rfl, rfl, rfl⟩

/-- **One step** of any party is a step of the service. -/
theorem Simulates.step (h : Simulates E n a) (hready : ∀ j, a.phase j = .ready →
    a.request j = none ∧ a.reply j = none) (hapart : ∀ j, a.request j = none ∨ a.reply j = none)
    (ev : DirectoryEvent ι κ) :
    Simulates E (n.step E ev).2 (Service.step (Thread.answer E) a ev.toService).2 := by
  cases ev with
  | query i => exact h.query hready i
  | send k m => exact h.send hready k m
  | take j => exact h.take hapart j
  | wait => exact h.wait
  | reply j =>
    cases j with
    | inl i => exact h.reply_client i
    | inr k => exact h.reply_other hready k
  | timeout i => exact h.timeout i

end Simulation

/-! ## Runs -/

section Runs

variable [DecidableEq ι] [DecidableEq κ] {E : Environment} {d : ProtocolDirectoryServer}

/-- The service before a run. -/
def serviceOf (d : ProtocolDirectoryServer) : Service.State (ι ⊕ κ) Thread Message Message where
  server := .running { directory := d }

omit [DecidableEq ι] [DecidableEq κ] in
theorem simulates_start (hd : d.Coherent E) (clients : ι → ProtocolDirectoryClient) :
    Simulates E (.start clients d : DirectoryNetwork ι κ) (serviceOf d) where
  thread := rfl
  sound := ⟨rfl, hd⟩
  clients _ := rfl
  querying _ := ⟨fun h => Bool.noConfusion h, fun h => Service.Phase.noConfusion h⟩
  others _ := ⟨rfl, Service.Phase.noConfusion⟩
  requests := .inr fun _ => rfl
  replies _ := rfl
  single _ _ h := by cases h

/-- **Every run** of the network is one of the service. -/
theorem simulates_run (hd : d.Coherent E) (clients : ι → ProtocolDirectoryClient)
    (events : List (DirectoryEvent ι κ)) :
    Simulates E (after (DirectoryNetwork.step E) (.start clients d) events)
      (after (Service.step (Thread.answer E)) (serviceOf d)
        (events.map DirectoryEvent.toService)) := by
  induction events using List.reverseRecOn with
  | nil => exact simulates_start hd clients
  | append_singleton events ev ih =>
    rw [List.map_append, List.map_singleton, after_append, after_append]
    have hacc := Service.accounted (Thread.answer E) (Thread.running { directory := d })
      (events.map DirectoryEvent.toService)
    exact ih.step (fun j => (hacc j).ready) (fun j => (hacc j).apart) ev

omit [DecidableEq ι] [DecidableEq κ] in
theorem map_toService_split {events : List (DirectoryEvent ι κ)} {j : ι ⊕ κ} {m : Message}
    {before mid since : List (Service.Event (ι ⊕ κ) Message)}
    (h : events.map DirectoryEvent.toService =
      before ++ .call j m :: (mid ++ .serve j :: since)) :
    ∃ pre call between post, events = pre ++ call :: (between ++ .take j :: post) ∧
      before = pre.map DirectoryEvent.toService ∧ mid = between.map DirectoryEvent.toService ∧
      since = post.map DirectoryEvent.toService ∧ call.toService = .call j m := by
  obtain ⟨pre, rest, rfl, rfl, hrest⟩ := List.map_eq_append_iff.mp h
  obtain ⟨call, rest', rfl, hcall, hrest'⟩ := List.map_eq_cons_iff.mp hrest
  obtain ⟨between, last, rfl, rfl, hlast⟩ := List.map_eq_append_iff.mp hrest'
  obtain ⟨serve, post, rfl, hserve, rfl⟩ := List.map_eq_cons_iff.mp hlast
  cases serve with
  | take j' =>
    cases hserve
    exact ⟨pre, call, between, post, rfl, rfl, rfl, rfl, hcall⟩
  | _ => cases hserve

/-- The step `call` after `pre` is the call of the party `j` with the request `m`, which it has not
left; and the pass of the loop that takes this request, after `mid`, answers it with `reply`. -/
structure AnsweredCall (E : Environment) (n : DirectoryNetwork ι κ)
    (events : List (DirectoryEvent ι κ)) (j : ι ⊕ κ) (m reply : Message)
    (pre : List (DirectoryEvent ι κ)) (call : DirectoryEvent ι κ)
    (mid post : List (DirectoryEvent ι κ)) (s : RequestServer) : Prop where
  events : events = pre ++ call :: (mid ++ .take j :: post)
  calls : call.toService = .call j m
  thread : (after (DirectoryNetwork.step E) n (pre ++ call :: mid)).thread = .running s
  sound : (Thread.running s).Sound E
  reply : ((Thread.running s).answer E m).1 = some reply
  waits : ∀ u, u <+: mid ++ .take j :: post → match j with
    | .inl i => (after (DirectoryNetwork.step E) n (pre ++ call :: u)).querying i = true
    | .inr k => (after (DirectoryNetwork.step E) n (pre ++ call :: u)).others k = .awaiting

/-- **A reply that arrives** is the one of a pass of the loop between the call and its return. -/
theorem answeredCall_of_reply (hd : d.Coherent E) (clients : ι → ProtocolDirectoryClient)
    {events : List (DirectoryEvent ι κ)} {j : ι ⊕ κ} {reply : Message}
    (hp : (after (Service.step (Thread.answer E)) (serviceOf d)
      (events.map DirectoryEvent.toService)).phase j = .calling)
    (hreply : (after (Service.step (Thread.answer E)) (serviceOf d)
      (events.map DirectoryEvent.toService)).reply j = some reply) :
    ∃ m pre call mid post s,
      AnsweredCall E (.start clients d) events j m reply pre call mid post s := by
  have hfinish : (Service.step (Thread.answer E) (after (Service.step (Thread.answer E))
      (serviceOf d) (events.map DirectoryEvent.toService)) (.finish j)).1 =
        .finished j reply := by
    rw [Service.step_finish hp hreply]
  obtain ⟨m, before, mid, since, hserved⟩ := Service.finished_between hfinish
  obtain ⟨pre, call, between, post, hevents, rfl, rfl, rfl, hcall⟩ :=
    map_toService_split hserved.events
  have hphase : ∀ u, u <+: between ++ .take j :: post →
      (after (Service.step (Thread.answer E)) (serviceOf d)
        ((pre ++ call :: u).map DirectoryEvent.toService)).phase j = .calling := by
    intro u hu
    have hmap := hu.map DirectoryEvent.toService
    rw [List.map_append, List.map_cons] at hmap
    have hin := hserved.inCall (u.map DirectoryEvent.toService) hmap
    rw [← after_append, List.append_assoc, ← hcall] at hin
    rw [List.map_append, List.map_cons]
    exact hin
  have hthread := simulates_run hd clients (pre ++ call :: between)
  have hanswer := hserved.reply
  rw [List.map_append, List.map_cons, hcall] at hthread
  have hserver := hthread.thread
  have hsound := hthread.sound
  cases ht : (after (DirectoryNetwork.step E) (.start clients d)
      (pre ++ call :: between)).thread with
  | ended =>
    rw [ht] at hserver
    rw [show (after (Service.step (Thread.answer E)) { server := .running { directory := d } }
      (pre.map DirectoryEvent.toService ++ .call j m ::
        between.map DirectoryEvent.toService)).server = .ended from hserver.symm] at hanswer
    cases hanswer
  | running s =>
    rw [ht] at hserver hsound
    rw [show (after (Service.step (Thread.answer E)) { server := .running { directory := d } }
      (pre.map DirectoryEvent.toService ++ .call j m ::
        between.map DirectoryEvent.toService)).server = .running s from hserver.symm] at hanswer
    refine ⟨m, pre, call, between, post, s, hevents, hcall, ht, hsound, hanswer, fun u hu => ?_⟩
    have hsim := simulates_run hd clients (pre ++ call :: u)
    cases j with
    | inl i => exact (hsim.querying i).mpr (hphase u hu)
    | inr k =>
      have hsocket := (hsim.others k).1
      rwa [hphase u hu] at hsocket

/-- **A query that returns** with its reply, and the pass of the loop that answered it. -/
theorem returned_query (hE : E.ParsesDumps) (hd : d.Coherent E)
    {clients : ι → ProtocolDirectoryClient} {events : List (DirectoryEvent ι κ)} {i : ι}
    {result : Except Fault (List ProtocolDirectoryEntry)}
    (h : ((after (DirectoryNetwork.step E) (.start clients d) events).step E (.reply (.inl i))).1 =
      .returned i result) :
    ∃ pre mid post s, events = pre ++ .query i :: (mid ++ .take (.inl i) :: post) ∧
      (∀ u, u <+: mid ++ .take (.inl i) :: post →
        (after (DirectoryNetwork.step E) (.start clients d) (pre ++ .query i :: u)).querying i =
          true) ∧
      (after (DirectoryNetwork.step E) (.start clients d) (pre ++ .query i :: mid)).thread =
        .running s ∧
      result = .ok (s.directory.values E) := by
  have hsim := simulates_run hd clients events
  obtain ⟨reply, hp, hreply, hresult⟩ := hsim.returned h
  obtain ⟨m, pre, call, mid, post, s, hcall⟩ := answeredCall_of_reply hd clients hp hreply
  obtain ⟨rfl, rfl⟩ : call = .query i ∧ m = listMessage := by
    have := hcall.calls
    cases call <;> cases this
    exact ⟨rfl, rfl⟩
  have hanswer := hcall.reply
  rw [answer_list hcall.sound, Option.some.injEq] at hanswer
  subst hanswer
  exact ⟨pre, mid, post, s, hcall.events, hcall.waits, hcall.thread,
    hresult.trans (decodeDirectory_list hE hcall.sound.2)⟩

/-- **Requests are linearizable.** Whatever the other programs send, and in whatever order the steps
of all parties are made: a query that returns with its reply returns the directory that the server
had in a pass of its loop between the call and its return, and a reply that another program gets is
the one of a pass that took its request since it was sent. -/
theorem requests_linearizable (hE : E.ParsesDumps) (hd : d.Coherent E)
    (clients : ι → ProtocolDirectoryClient) (events : List (DirectoryEvent ι κ)) :
    (∀ i result, ((after (DirectoryNetwork.step E) (.start clients d) events).step E
        (.reply (.inl i))).1 = .returned i result →
      ∃ pre mid post s, events = pre ++ .query i :: (mid ++ .take (.inl i) :: post) ∧
        (∀ u, u <+: mid ++ .take (.inl i) :: post →
          (after (DirectoryNetwork.step E) (.start clients d) (pre ++ .query i :: u)).querying i =
            true) ∧
        (after (DirectoryNetwork.step E) (.start clients d) (pre ++ .query i :: mid)).thread =
          .running s ∧
        result = .ok (s.directory.values E)) ∧
    ∀ k reply, ((after (DirectoryNetwork.step E) (.start clients d) events).step E
        (.reply (.inr k))).1 = .replied k reply →
      ∃ pre m mid post s text, events = pre ++ .send k m :: (mid ++ .take (.inr k) :: post) ∧
        (∀ u, u <+: mid ++ .take (.inr k) :: post →
          (after (DirectoryNetwork.step E) (.start clients d) (pre ++ .send k m :: u)).others k =
            .awaiting) ∧
        (after (DirectoryNetwork.step E) (.start clients d) (pre ++ .send k m :: mid)).thread =
          .running s ∧
        (s.serve E (.request m.first m.rest)).1.replies = [text] ∧ reply = some text := by
  refine ⟨fun i result h => returned_query hE hd h, fun k reply h => ?_⟩
  have hacc := Service.accounted (Thread.answer E) (Thread.running { directory := d })
    (events.map DirectoryEvent.toService)
  obtain ⟨answer, hp, hanswer, rfl⟩ :=
    (simulates_run hd clients events).replied (fun j => (hacc j).ready) h
  obtain ⟨m, pre, call, mid, post, s, hcall⟩ := answeredCall_of_reply hd clients hp hanswer
  obtain rfl : call = .send k m := by
    have := hcall.calls
    cases call <;> cases this
    rfl
  refine ⟨pre, m, mid, post, s, answer.first, hcall.events, hcall.waits, hcall.thread, ?_, rfl⟩
  have hreply := hcall.reply
  rcases answer_running hcall.sound m with ⟨text, s', hstep, -⟩ | ⟨outcome, hstep, hno⟩
  · simp only [Thread.answer, hstep, List.head?_cons, Option.map_some, Option.some.injEq] at hreply
    rw [← hreply]
    exact congrArg Outcome.replies (congrArg Prod.fst hstep)
  · simp only [Thread.answer, hstep, hno, List.head?_nil, Option.map_none] at hreply
    cases hreply

end Runs

/-! ## Well-formed requests -/

/-- The request asks for the change. -/
def Asks (E : Environment) (m : Message) (c : Change) : Prop :=
  c.Plain ∧ Operation.Means E (.event (.request m.first m.rest)) c

def ChangeRequest (E : Environment) (m : Message) : Prop := ∃ c, Asks E m c

/-- The request that a pass of the loop took. -/
def requestOf : DirectoryHappening ι κ → List Message
  | .passed (some m) _ => [m]
  | _ => []

/-- The server has made the changes, and the requests on their way are well-formed. -/
structure Serves (E : Environment) (r : Registry) (n : DirectoryNetwork ι κ) : Prop where
  thread : ∃ s, n.thread = .running s ∧ s.repSocket = .idle ∧ Refines E s.directory r
  requests : ∀ j, ∀ m ∈ n.requests j, ChangeRequest E m

section Serves

variable [DecidableEq ι] [DecidableEq κ] {E : Environment} {n : DirectoryNetwork ι κ}
  {a : Service.State (ι ⊕ κ) Thread Message Message} {r : Registry}

theorem changeRequest_listMessage : ChangeRequest E listMessage :=
  ⟨.keep, trivial, .other (by decide) (by decide)⟩

/-- The requests of one party change. -/
theorem changeRequest_update {j j' : ι ⊕ κ} {lists : ι ⊕ κ → List Message} {ms : List Message}
    (h : ∀ j, ∀ m ∈ lists j, ChangeRequest E m) (hms : ∀ m ∈ ms, ChangeRequest E m) :
    ∀ m ∈ Function.update lists j ms j', ChangeRequest E m := by
  by_cases hj : j' = j
  · subst hj
    rw [Function.update_self]
    exact hms
  · rw [Function.update_of_ne hj]
    exact h j'

/-- A pass of the loop makes the change that its request asks for. -/
theorem step_asks (hE : E.Documented) {s : RequestServer} (hidle : s.repSocket = .idle)
    (hr : Refines E s.directory r) {m : Message} {c : Change} (hc : Asks E m c) :
    ∃ d, (Thread.step E (.running s) (.request m.first m.rest)).2 = .running { directory := d } ∧
      Refines E d (r.apply c) := by
  obtain ⟨directory, repSocket⟩ := s
  obtain rfl : repSocket = .idle := hidle
  obtain ⟨d, hstep, hd⟩ := hr.operate hE hc.2 hc.1
  simp only [RequestServer.operate, Prod.mk.injEq] at hstep
  refine ⟨d, ?_, hd⟩
  simp only [Thread.step, hstep.1, hstep.2]
  rfl

/-- What a client sends is a query. -/
theorem sendList_request {c : ProtocolDirectoryClient} {p : Service.Phase}
    (hc : c.reqSocket = phaseSocket p) {request : Option Message}
    {client : ProtocolDirectoryClient} (h : c.sendList = .ok (request, client)) :
    request = some listMessage := by
  cases p with
  | ready =>
    rw [ProtocolDirectoryClient.sendList_ready hc] at h
    cases h
    rfl
  | _ =>
    rw [ProtocolDirectoryClient.sendList_awaiting hc] at h
    cases h

/-- What another program sends is its whole message. -/
theorem sendAll_request {p : Service.Phase} {m : Message} {request : Option Message}
    {socket : ReqSocket} (h : (phaseSocket p).sendAll m.first m.rest = .ok (request, socket)) :
    request = some m := by
  cases p with
  | ready =>
    rw [phaseSocket, sendAll_ready] at h
    cases h
    rfl
  | _ =>
    change ReqSocket.sendAll .awaiting m.first m.rest = _ at h
    rw [sendAll_awaiting] at h
    cases h

/-- **One step.** -/
theorem Serves.step (hE : E.Documented) (hsim : Simulates E n a) (h : Serves E r n)
    {ev : DirectoryEvent ι κ} (hev : ∀ k m, ev = .send k m → ChangeRequest E m) :
    ∃ changes, List.Forall₂ (Asks E) (requestOf (n.step E ev).1) changes ∧
      Serves E (changes.foldl Registry.apply r) (n.step E ev).2 := by
  obtain ⟨s, hthread, hidle, hrefines⟩ := h.thread
  have hcases := n.step_cases E ev
  generalize n.step E ev = result at hcases ⊢
  cases hcases with
  | idle => exact ⟨[], .nil, h⟩
  | throws => exact ⟨[], .nil, h⟩
  | @query i _ _ hsend =>
    refine ⟨[], .nil, h.thread, fun j => changeRequest_update h.requests ?_⟩
    obtain rfl := sendList_request (hsim.clients i) hsend
    exact List.forall_mem_append.mpr
      ⟨h.requests _, List.forall_mem_singleton.mpr changeRequest_listMessage⟩
  | @send k m _ _ hsend =>
    refine ⟨[], .nil, h.thread, fun j => changeRequest_update h.requests ?_⟩
    rw [(hsim.others k).1] at hsend
    obtain rfl := sendAll_request hsend
    exact List.forall_mem_append.mpr
      ⟨h.requests _, List.forall_mem_singleton.mpr (hev k m rfl)⟩
  | @take j s' m ms _ _ ht hreq hpass =>
    obtain rfl : s = s' := Thread.running.inj (hthread.symm.trans ht)
    have hmem := h.requests j
    rw [hreq, List.forall_mem_cons] at hmem
    obtain ⟨⟨c, hc⟩, hms⟩ := hmem
    obtain ⟨d, hstep, hd⟩ := step_asks hE hidle hrefines hc
    rw [hpass] at hstep
    exact ⟨[c], .cons hc .nil, ⟨_, hstep, rfl, hd⟩, fun j' => changeRequest_update h.requests hms⟩
  | wait hpass =>
    have hstep := step_timeout hsim.sound
    rw [hpass] at hstep
    exact ⟨[], .nil, ⟨s, hstep.trans hthread, hidle, hrefines⟩, h.requests⟩
  | reply => exact ⟨[], .nil, h.thread, h.requests⟩
  | replyOther => exact ⟨[], .nil, h.thread, h.requests⟩
  | timeout => exact ⟨[], .nil, h.thread, h.requests⟩

variable {d : ProtocolDirectoryServer}

theorem serves_run (hE : E.Documented) (hd : Refines E d r) (clients : ι → ProtocolDirectoryClient)
    {events : List (DirectoryEvent ι κ)}
    (hsent : ∀ k m, .send k m ∈ events → ChangeRequest E m) :
    ∃ changes, List.Forall₂ (Asks E)
        ((outputs (DirectoryNetwork.step E) (.start clients d) events).flatMap requestOf) changes ∧
      Serves E (changes.foldl Registry.apply r)
        (after (DirectoryNetwork.step E) (.start clients d) events) := by
  induction events using List.reverseRecOn with
  | nil => exact ⟨[], .nil, ⟨_, rfl, rfl, hd⟩, fun j m hm => absurd hm List.not_mem_nil⟩
  | append_singleton events ev ih =>
    obtain ⟨changes, hchanges, hserves⟩ :=
      ih fun k m hm => hsent k m (List.mem_append_left _ hm)
    have hsim := simulates_run hd.coherent clients events
    obtain ⟨new, hnew, hnext⟩ := hserves.step hE hsim fun k m he =>
      hsent k m (List.mem_append_right _ (List.mem_singleton.mpr he.symm))
    refine ⟨changes ++ new, ?_, ?_⟩
    · rw [outputs_append, List.flatMap_append]
      refine List.rel_append hchanges ?_
      simpa using hnew
    · rw [List.foldl_append, after_append]
      exact hnext

/-- **Queries are atomic.** When all requests that are sent are well-formed, a query that returns
with its reply returns the registry after the changes that the passes of the loop have made until
one of them, between the call and its return. -/
theorem queries_atomic (hE : E.Documented) (hparse : E.ParsesDumps) (hd : Refines E d r)
    (clients : ι → ProtocolDirectoryClient) {events : List (DirectoryEvent ι κ)}
    (hsent : ∀ k m, .send k m ∈ events → ChangeRequest E m) {i : ι}
    {result : Except Fault (List ProtocolDirectoryEntry)}
    (h : ((after (DirectoryNetwork.step E) (.start clients d) events).step E (.reply (.inl i))).1 =
      .returned i result) :
    ∃ pre mid post changes entries, events = pre ++ .query i :: (mid ++ .take (.inl i) :: post) ∧
      (∀ u, u <+: mid ++ .take (.inl i) :: post →
        (after (DirectoryNetwork.step E) (.start clients d) (pre ++ .query i :: u)).querying i =
          true) ∧
      List.Forall₂ (Asks E) ((outputs (DirectoryNetwork.step E) (.start clients d)
        (pre ++ .query i :: mid)).flatMap requestOf) changes ∧
      result = .ok entries ∧ (entries.map (·.pair)).Nodup ∧
      ∀ pair p, changes.foldl Registry.apply r pair = some p ↔ p ∈ entries ∧ p.pair = pair := by
  obtain ⟨pre, mid, post, s, hevents, hwaits, hthread, rfl⟩ := returned_query hparse hd.coherent h
  have hsub : ∀ k m, .send k m ∈ pre ++ .query i :: mid → ChangeRequest E m := by
    intro k m hm
    refine hsent k m ?_
    rw [hevents, ← List.cons_append, ← List.append_assoc]
    exact List.mem_append_left _ hm
  obtain ⟨changes, hchanges, hserves⟩ := serves_run hE hd clients hsub
  obtain ⟨s', hs', -, hrefines⟩ := hserves.thread
  rw [hthread, Thread.running.injEq] at hs'
  subst hs'
  have hperm := hE.iterate_perm s.directory.changes s.directory.protocols
  exact ⟨pre, mid, post, changes, _, hevents, hwaits, hchanges, rfl,
    hrefines.stores.nodup_pairs hperm, hrefines.stores.mem_entries hperm⟩

/-- A server without entries. -/
def noEntries : ProtocolDirectoryServer where
  completeListJson := (listJson []).compact

theorem refines_noEntries : Refines textEnvironment noEntries fun _ => none where
  valid := by simp [AllValid, noEntries]
  coherent := dump_textEnvironment (by decide)
  stores := .nil

/-- A program that adds an entry, and a client whose query is answered first. -/
def lateAdd : List (DirectoryEvent Unit Unit) :=
  [.send () { first := lit "add", rest := [canEntry.toJson.compact] }, .query (),
    .take (.inl ())]

theorem returned_lateAdd :
    ((after (DirectoryNetwork.step textEnvironment) (.start (fun _ => {}) noEntries) lateAdd).step
      textEnvironment (.reply (.inl ()))).1 = .returned () (.ok []) := rfl

theorem requests_linearizable_lateAdd :
    ∃ pre mid post s, lateAdd = pre ++ .query () :: (mid ++ .take (.inl ()) :: post) ∧
      (∀ u, u <+: mid ++ .take (.inl ()) :: post → (after (DirectoryNetwork.step textEnvironment)
        (.start (fun _ => {}) noEntries) (pre ++ .query () :: u)).querying () = true) ∧
      (after (DirectoryNetwork.step textEnvironment) (.start (fun _ => {}) noEntries)
        (pre ++ .query () :: mid)).thread = .running s ∧
      .ok [] = (.ok (s.directory.values textEnvironment) :
        Except Fault (List ProtocolDirectoryEntry)) :=
  (requests_linearizable parsesDumps_textEnvironment refines_noEntries.coherent (fun _ => {})
    lateAdd).1 () _ returned_lateAdd

theorem queries_atomic_lateAdd :
    ∃ pre mid post changes entries,
      lateAdd = pre ++ .query () :: (mid ++ .take (.inl ()) :: post) ∧
      (∀ u, u <+: mid ++ .take (.inl ()) :: post → (after (DirectoryNetwork.step textEnvironment)
        (.start (fun _ => {}) noEntries) (pre ++ .query () :: u)).querying () = true) ∧
      List.Forall₂ (Asks textEnvironment) ((outputs (DirectoryNetwork.step textEnvironment)
        (.start (fun _ => {}) noEntries) (pre ++ .query () :: mid)).flatMap requestOf) changes ∧
      .ok [] = (.ok entries : Except Fault (List ProtocolDirectoryEntry)) ∧
      (entries.map (·.pair)).Nodup ∧ ∀ pair p,
        changes.foldl Registry.apply (fun _ => none) pair = some p ↔
          p ∈ entries ∧ p.pair = pair := by
  refine queries_atomic documented_textEnvironment parsesDumps_textEnvironment refines_noEntries
    (fun _ => {}) ?_ returned_lateAdd
  intro k m hm
  simp only [lateAdd, List.mem_cons, DirectoryEvent.send.injEq, reduceCtorEq, List.not_mem_nil,
    or_false] at hm
  obtain ⟨-, rfl⟩ := hm
  have hparse : ∀ p : ProtocolDirectoryEntry, p.ValidUtf8 →
      textEnvironment.parse p.toJson.compact = .ok p.toJson := fun p hp =>
    Json.parse_compact (textual_toJson p) hp
  have hvalid : canEntry.toJson.validUtf8 = true := by decide
  have hname : bar ∉ canEntry.protocolName := by decide
  exact ⟨.put canEntry, hname, .add (hparse canEntry hvalid) rfl⟩

end Serves

end Protos

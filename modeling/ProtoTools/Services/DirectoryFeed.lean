import Mathlib.Data.List.Destutter
import ProtoTools.Services.DirectoryNetwork

/-!
# What the directory publishes, and what its clients get

A pass of the server's loop publishes the list that it has before it handles a request, and once
more when none comes.

* `Settled`: what holds in every state of a run. `settled_run` has it from the service.
* `received_after_feed`: what a client's queries return, in order, was published before.
* `updates_are_changes`: the client's callback gets the directories that differ from the one before.
-/

namespace Protos

open Machine ProtocolDirectoryServer

variable {ι κ : Type*}

/-- The directories that the step publishes, as a subscriber decodes them. -/
def publishedBy (E : Environment) (p : DirectoryEvent ι κ × DirectoryHappening ι κ) :
    List (Except Fault (List ProtocolDirectoryEntry)) :=
  match p.2 with
  | .passed _ outcome => outcome.published.map (decodeDirectory E)
  | _ => []

section Parts

variable [DecidableEq ι]

/-- The replies to the client that the step sends, as its query decodes them. -/
def answeredTo (E : Environment) (i : ι) (p : DirectoryEvent ι κ × DirectoryHappening ι κ) :
    List (Except Fault (List ProtocolDirectoryEntry)) :=
  match p with
  | (.take (.inl k), .passed _ outcome) =>
    if k = i then outcome.replies.map (decodeDirectory E) else []
  | _ => []

/-- What a query of the client returns with when its reply is there. -/
def receivedBy (i : ι) (p : DirectoryEvent ι κ × DirectoryHappening ι κ) :
    List (Except Fault (List ProtocolDirectoryEntry)) :=
  match p with
  | (.reply _, .returned k result) => if k = i then [result] else []
  | _ => []

end Parts

/-- Every text that a pass publishes is the list of the server's directory. -/
def PublishesEntries [DecidableEq ι] [DecidableEq κ] (E : Environment) (n : DirectoryNetwork ι κ)
    (ev : DirectoryEvent ι κ) : Prop :=
  ∀ request outcome, (n.step E ev).1 = .passed request outcome →
    match n.thread with
    | .ended => outcome.published = []
    | .running s => outcome.published ≠ [] ∧
      ∀ text ∈ outcome.published, decodeDirectory E text = .ok (s.directory.values E)

/-! ## The states of a run -/

/-- The network is in a state of the service, and the requests of the clients are queries. -/
def Settled (E : Environment) (n : DirectoryNetwork ι κ) : Prop :=
  ∃ a : Service.State (ι ⊕ κ) Thread Message Message, Simulates E n a ∧
    (∀ j, a.request j = none ∨ a.reply j = none) ∧
    ∀ i m, a.request (.inl i) = some m → m = listMessage

section Run

variable [DecidableEq ι] [DecidableEq κ] {E : Environment} {d : ProtocolDirectoryServer}
  {n : DirectoryNetwork ι κ}

theorem settled_run (hd : d.Coherent E) (clients : ι → ProtocolDirectoryClient)
    (events : List (DirectoryEvent ι κ)) :
    Settled E (after (DirectoryNetwork.step E) (.start clients d) events) := by
  refine ⟨_, simulates_run hd clients events, fun j => ?_, fun i m hm => ?_⟩
  · exact (Service.accounted (Thread.answer E) (Thread.running { directory := d })
      (events.map DirectoryEvent.toService) j).apart
  · obtain ⟨ev, -, hev⟩ := List.mem_map.mp (Service.mem_call_of_request hm)
    cases ev <;> cases hev
    rfl

theorem along_settled (hd : d.Coherent E) (clients : ι → ProtocolDirectoryClient)
    (events : List (DirectoryEvent ι κ)) :
    Along (DirectoryNetwork.step E) (fun n _ => Settled E n)
      (.start clients d : DirectoryNetwork ι κ) events :=
  along_of_prefix fun us _ => settled_run hd clients us

omit [DecidableEq κ] in
/-- Only a pass answers. -/
theorem answeredTo_of_not_passed {i : ι} {ev : DirectoryEvent ι κ} {hap : DirectoryHappening ι κ}
    (h : ∀ request outcome, hap ≠ .passed request outcome) : answeredTo E i (ev, hap) = [] := by
  cases hap with
  | passed request outcome => exact absurd rfl (h request outcome)
  | _ => rcases ev with _ | _ | (_ | _) | _ | _ | _ <;> rfl

omit [DecidableEq κ] in
theorem receivedBy_of_not_returned {i : ι} {ev : DirectoryEvent ι κ} {hap : DirectoryHappening ι κ}
    (h : ∀ k result, hap ≠ .returned k result) : receivedBy i (ev, hap) = [] := by
  cases hap with
  | returned k result => exact absurd rfl (h k result)
  | _ => cases ev <;> rfl

/-- A pass publishes the cached list and nothing else. -/
theorem published_step {s : RequestServer} (hs : (Thread.running s).Sound E) (ev : Event) :
    s.directory.completeListJson ∈ (Thread.step E (.running s) ev).1.published ∧
      ∀ text ∈ (Thread.step E (.running s) ev).1.published,
        text = s.directory.completeListJson := by
  simp only [Thread.step, RequestServer.serve, hs.1]
  cases ev with
  | timeout => simp [RepSocket.recv]
  | request first rest =>
    simp only [RepSocket.recv]
    split
    · simp
    · split <;> simp

/-- A pass is one of the thread. -/
theorem passed_of_step {ev : DirectoryEvent ι κ} {request : Option Message} {outcome : Outcome}
    (h : (n.step E ev).1 = .passed request outcome) :
    ∃ wait, outcome = (n.thread.step E wait).1 := by
  have hcases := n.step_cases E ev
  generalize n.step E ev = result at hcases h
  cases hcases with
  | @take _ _ m _ _ _ ht _ hpass =>
    cases h
    exact ⟨.request m.first m.rest, by rw [ht, hpass]⟩
  | wait hpass =>
    cases h
    exact ⟨.timeout, by rw [hpass]⟩
  | _ => cases h

theorem Settled.publishes (hE : E.ParsesDumps) (h : Settled E n) (ev : DirectoryEvent ι κ) :
    PublishesEntries E n ev := by
  obtain ⟨a, hsim, -⟩ := h
  intro request outcome hpassed
  obtain ⟨wait, rfl⟩ := passed_of_step hpassed
  cases ht : n.thread with
  | ended => rfl
  | running s =>
    have hsound := hsim.sound
    rw [ht] at hsound
    obtain ⟨hmem, hall⟩ := published_step hsound wait
    refine ⟨List.ne_nil_of_mem hmem, fun text htext => ?_⟩
    rw [hall text htext]
    exact decodeDirectory_list hE hsound.2

theorem Settled.published_ok (hE : E.ParsesDumps) (h : Settled E n) (ev : DirectoryEvent ι κ) :
    ∀ r ∈ publishedBy E (ev, (n.step E ev).1),
      r ∈ Set.range (@Except.ok Fault (List ProtocolDirectoryEntry)) := by
  intro r hr
  unfold publishedBy at hr
  split at hr
  · rename_i request outcome hpassed
    obtain ⟨text, htext, rfl⟩ := List.mem_map.mp hr
    have hpublishes := h.publishes hE ev request outcome hpassed
    cases ht : n.thread with
    | ended =>
      simp only [ht] at hpublishes
      rw [hpublishes] at htext
      cases htext
    | running s =>
      simp only [ht] at hpublishes
      exact ⟨_, (hpublishes.2 text htext).symm⟩
  · cases hr

/-! ## The replies to a client -/

/-- A pass on a query sends the list that it has published, or nothing. -/
theorem replies_sublist {s : RequestServer} (hs : (Thread.running s).Sound E) {outcome : Outcome}
    {thread : Thread} (hpass : Thread.step E (.running s) (.request listMessage.first
      listMessage.rest) = (outcome, thread)) : outcome.replies.Sublist outcome.published := by
  have hanswer := answer_list hs
  rcases answer_running hs listMessage with ⟨text, s', hstep, -⟩ | ⟨outcome', hstep, hno⟩
  · simp only [Thread.answer, hstep, List.head?_cons, Option.map_some, Option.some.injEq,
      Message.mk.injEq] at hanswer
    rw [hstep, hanswer.1] at hpass
    cases hpass
    exact List.Sublist.refl _
  · rw [hstep] at hpass
    cases hpass
    rw [hno]
    exact List.nil_sublist _

/-- A reply to a client is the list that the same pass has published. -/
theorem Settled.answered_sublist (h : Settled E n) (i : ι) (ev : DirectoryEvent ι κ) :
    (answeredTo E i (ev, (n.step E ev).1)).Sublist (publishedBy E (ev, (n.step E ev).1)) := by
  obtain ⟨a, hsim, -, hlist⟩ := h
  have hcases := n.step_cases E ev
  generalize n.step E ev = result at hcases ⊢
  cases hcases with
  | @take j s m ms _ _ ht hreq hpass =>
    have hsound := hsim.sound
    have hrequests := hsim.requests.resolve_left (by rw [ht]; exact Thread.noConfusion)
    rw [ht] at hsound
    cases j with
    | inr k => exact List.nil_sublist _
    | inl k =>
      have hquery : m = listMessage := by
        apply hlist k m
        have hsome := (hrequests (.inl k)).symm.trans hreq
        cases ha : a.request (.inl k) <;> rw [ha] at hsome <;> cases hsome
        rfl
      subst hquery
      simp only [answeredTo, publishedBy]
      split
      · exact (replies_sublist hsound hpass).map _
      · exact List.nil_sublist _
  | wait => exact List.nil_sublist _
  | _ =>
    rw [answeredTo_of_not_passed (by simp)]
    exact List.nil_sublist _

/-- The replies to a client are received in the order in which they are sent. -/
theorem Settled.flow (h : Settled E n) (i : ι) (ev : DirectoryEvent ι κ) :
    (n.replies (.inl i)).map (fun m => decodeDirectory E m.first) ++
        answeredTo E i (ev, (n.step E ev).1) =
      receivedBy i (ev, (n.step E ev).1) ++
        ((n.step E ev).2.replies (.inl i)).map fun m => decodeDirectory E m.first := by
  obtain ⟨a, hsim, -⟩ := h
  -- a step that leaves the replies to the clients as they are, and returns from no query
  have hkeep : ∀ {p : DirectoryEvent ι κ × DirectoryHappening ι κ} {n' : DirectoryNetwork ι κ},
      answeredTo E i p = [] → receivedBy i p = [] →
      n'.replies (.inl i) = n.replies (.inl i) →
      (n.replies (.inl i)).map (fun m => decodeDirectory E m.first) ++ answeredTo E i p =
        receivedBy i p ++ (n'.replies (.inl i)).map fun m => decodeDirectory E m.first := by
    intro p n' ha hr hreplies
    rw [ha, hr, hreplies, List.append_nil, List.nil_append]
  have hcases := n.step_cases E ev
  generalize n.step E ev = result at hcases ⊢
  cases hcases with
  | idle =>
    exact hkeep (answeredTo_of_not_passed (by simp)) (receivedBy_of_not_returned (by simp)) rfl
  | throws =>
    exact hkeep (answeredTo_of_not_passed (by simp)) (receivedBy_of_not_returned (by simp)) rfl
  | query => exact hkeep rfl rfl rfl
  | send => exact hkeep rfl rfl rfl
  | @take j =>
    cases j with
    | inl k =>
      by_cases hk : k = i
      · subst hk
        simp [answeredTo, receivedBy, Function.comp_def]
      · exact hkeep (if_neg hk) rfl (by simp [Ne.symm hk])
    | inr k => exact hkeep rfl rfl (by simp)
  | wait => exact hkeep rfl rfl rfl
  | @reply k m _ _ _ hq hm hlist =>
    obtain ⟨hsocket, -, hrest, rfl⟩ := hsim.reply_there hq hm
    obtain rfl := (congrArg Prod.fst hlist).symm.trans (reqSocket_receiveList hsocket hrest).2
    by_cases hk : k = i
    · subst hk
      simp [answeredTo, receivedBy, hm]
    · exact hkeep rfl (if_neg hk) (by simp [Ne.symm hk])
  | replyOther => exact hkeep rfl rfl (by simp)
  | timeout => exact hkeep rfl rfl rfl

/-- What the queries of a client return is among what was published. -/
theorem received_sublist (hd : d.Coherent E) (clients : ι → ProtocolDirectoryClient)
    (events : List (DirectoryEvent ι κ)) (i : ι) :
    ((trace (DirectoryNetwork.step E) (.start clients d) events).flatMap (receivedBy i)).Sublist
      ((trace (DirectoryNetwork.step E) (.start clients d) events).flatMap (publishedBy E)) := by
  have hsettled := along_settled hd clients events
  have hflow := hsettled.flow (I := fun _ => True)
    (fun n => (n.replies (.inl i)).map fun m => decodeDirectory E m.first) (answeredTo E i)
    (receivedBy i) (fun n ev _ h => ⟨h.flow i ev, trivial⟩) trivial
  have hprefix : ((trace (DirectoryNetwork.step E) (.start clients d) events).flatMap
      (receivedBy i)) <+: (trace (DirectoryNetwork.step E) (.start clients d) events).flatMap
        (answeredTo E i) := ⟨_, hflow.symm⟩
  exact hprefix.sublist.trans
    (hsettled.flatMap_sublist _ _ fun n ev h => h.answered_sublist i ev)

/-- **The feed is ahead of the queries.** In every interleaving each pass publishes the directory
that the server has, and what the queries of a client return with their replies is, in this order,
among what was published before. -/
theorem received_after_feed (hE : E.ParsesDumps) (hd : d.Coherent E)
    (clients : ι → ProtocolDirectoryClient) (events : List (DirectoryEvent ι κ)) :
    Along (DirectoryNetwork.step E) (PublishesEntries E) (.start clients d) events ∧
      ∀ i, ((trace (DirectoryNetwork.step E) (.start clients d) events).flatMap
          (receivedBy i)).Sublist
        ((trace (DirectoryNetwork.step E) (.start clients d) events).flatMap (publishedBy E)) :=
  ⟨(along_settled hd clients events).mono fun _ ev h => h.publishes hE ev,
    fun i => received_sublist hd clients events i⟩

/-- The query of `lateAdd` gets its reply. -/
def lateAddReceived : List (DirectoryEvent Unit Unit) := lateAdd ++ [.reply (.inl ())]

theorem received_after_feed_lateAdd :
    Along (DirectoryNetwork.step textEnvironment) (PublishesEntries textEnvironment)
        (.start (fun _ => {}) noEntries) lateAddReceived ∧
      ∀ i, ((trace (DirectoryNetwork.step textEnvironment) (.start (fun _ => {}) noEntries)
          lateAddReceived).flatMap (receivedBy i)).Sublist
        ((trace (DirectoryNetwork.step textEnvironment) (.start (fun _ => {}) noEntries)
          lateAddReceived).flatMap (publishedBy textEnvironment)) :=
  received_after_feed parsesDumps_textEnvironment refines_noEntries.coherent (fun _ => {})
    lateAddReceived

/-! ## The callback -/

/-- What the result of a query does to the client, its socket apart. -/
def ProtocolDirectoryClient.takeResult (c : ProtocolDirectoryClient) :
    Except Fault (List ProtocolDirectoryEntry) → ProtocolDirectoryClient
  | .ok directory => c.updateDirectory directory
  | .error _ => c

/-- The client without its socket. -/
def ProtocolDirectoryClient.unbound (c : ProtocolDirectoryClient) : ProtocolDirectoryClient :=
  { c with reqSocket := .ready [] }

theorem unbound_updateDirectory (c : ProtocolDirectoryClient) (reqSocket : ReqSocket)
    (directory : List ProtocolDirectoryEntry) :
    ({ c with reqSocket }.updateDirectory directory).unbound =
      c.unbound.updateDirectory directory := by
  unfold ProtocolDirectoryClient.updateDirectory
  by_cases hd : directory = c.directory
  · rw [if_pos hd, if_pos (show directory = c.unbound.directory from hd)]
    rfl
  · rw [if_neg hd, if_neg (show ¬ directory = c.unbound.directory from hd)]
    rfl

theorem unbound_receiveList {c : ProtocolDirectoryClient} (hc : c.reqSocket = .awaiting)
    (m : Message) : (c.receiveList E (some m)).2.unbound =
      c.unbound.takeResult (decodeDirectory E m.first) := by
  simp only [ProtocolDirectoryClient.receiveList, hc, ReqSocket.recv]
  cases decodeDirectory E m.first with
  | error e => rfl
  | ok directory => exact unbound_updateDirectory _ _ _

theorem unbound_sendList {c client : ProtocolDirectoryClient} {request : Option Message}
    (h : c.sendList = .ok (request, client)) : client.unbound = c.unbound := by
  unfold ProtocolDirectoryClient.sendList at h
  split at h <;> cases h
  rfl

/-- A step takes a client on with the result that its query returns. -/
theorem Settled.takes (h : Settled E n) (i : ι) (ev : DirectoryEvent ι κ) :
    ((n.step E ev).2.clients i).unbound =
      (receivedBy i (ev, (n.step E ev).1)).foldl ProtocolDirectoryClient.takeResult
        (n.clients i).unbound := by
  obtain ⟨a, hsim, -⟩ := h
  have hcases := n.step_cases E ev
  generalize n.step E ev = result at hcases ⊢
  cases hcases with
  | idle =>
    rw [receivedBy_of_not_returned (by simp)]
    rfl
  | throws =>
    rw [receivedBy_of_not_returned (by simp)]
    rfl
  | @query k _ _ hsend =>
    by_cases hk : k = i
    · subst hk
      simpa [receivedBy] using unbound_sendList hsend
    · simp [receivedBy, Ne.symm hk]
  | @reply k m _ _ _ hq hm hlist =>
    obtain ⟨hsocket, -, hrest, rfl⟩ := hsim.reply_there hq hm
    obtain rfl := (congrArg Prod.fst hlist).symm.trans (reqSocket_receiveList hsocket hrest).2
    obtain rfl := congrArg Prod.snd hlist
    by_cases hk : k = i
    · subst hk
      simpa [receivedBy] using unbound_receiveList hsocket m
    · simp [receivedBy, hk, Ne.symm hk]
  | @timeout k _ _ hq hlist =>
    have hp := (hsim.querying k).mp hq
    have hsocket : (n.clients k).reqSocket = .awaiting := by rw [hsim.clients k, hp]; rfl
    rw [ProtocolDirectoryClient.receiveList_none hsocket] at hlist
    cases hlist
    rw [Function.update_eq_self]
    rfl
  | _ => rfl

/-- A query that times out returns no entries. -/
theorem Settled.timeout (h : Settled E n) (i : ι) :
    (n.step E (.timeout i)).1 = .nothing ∨ (n.step E (.timeout i)).1 = .returned i (.ok []) := by
  obtain ⟨a, hsim, -⟩ := h
  cases hq : n.querying i with
  | false => exact .inl (by simp only [DirectoryNetwork.step, hq, Bool.false_eq_true, if_false])
  | true =>
    have hsocket : (n.clients i).reqSocket = .awaiting := by
      rw [hsim.clients i, (hsim.querying i).mp hq]
      rfl
    refine .inr ?_
    simp only [DirectoryNetwork.step, hq, if_true,
      ProtocolDirectoryClient.receiveList_none hsocket]

theorem cons_tail_destutter' {α : Type*} {R : α → α → Prop} [DecidableRel R] (a : α) (l : List α) :
    a :: (l.destutter' R a).tail = l.destutter' R a := by
  induction l with
  | nil => rfl
  | cons b l ih =>
    by_cases hb : R a b
    · rw [List.destutter'_cons_pos (h := hb)]
      rfl
    · rwa [List.destutter'_cons_neg (h := hb)]

/-- The updates are those that differ from the directory before. -/
theorem foldl_updateDirectory (c : ProtocolDirectoryClient)
    (received : List (List ProtocolDirectoryEntry)) :
    received.foldl ProtocolDirectoryClient.updateDirectory c = { c with
      directory := received.getLastD c.directory
      updates := if c.hasUpdateCallback then
        c.updates ++ (received.destutter' (· ≠ ·) c.directory).tail else c.updates } := by
  induction received generalizing c with
  | nil => simp
  | cons directory received ih =>
    rw [List.foldl_cons, ih, List.getLastD_cons, ProtocolDirectoryClient.updateDirectory]
    by_cases hd : directory = c.directory
    · subst hd
      rw [if_pos rfl, List.destutter'_cons_neg (h := not_not.mpr rfl)]
    · rw [if_neg hd, List.destutter'_cons_pos (h := Ne.symm hd), List.tail_cons,
        ← cons_tail_destutter']
      cases c.hasUpdateCallback <;> simp

/-- **The callback gets the changes.** In every interleaving the queries of a client that return
with their replies return directories, the client keeps the last one, and its callback was called
with those that differ from the one before. A query that times out returns no entries. -/
theorem updates_are_changes (hE : E.ParsesDumps) (hd : d.Coherent E)
    (clients : ι → ProtocolDirectoryClient) (events : List (DirectoryEvent ι κ)) (i : ι) :
    ∃ received : List (List ProtocolDirectoryEntry),
      (trace (DirectoryNetwork.step E) (.start clients d) events).flatMap (receivedBy i) =
        received.map .ok ∧
      ((after (DirectoryNetwork.step E) (.start clients d) events).clients i).directory =
        received.getLastD (clients i).directory ∧
      ((after (DirectoryNetwork.step E) (.start clients d) events).clients i).updates =
        (if (clients i).hasUpdateCallback then (clients i).updates ++
          (received.destutter' (· ≠ ·) (clients i).directory).tail
        else (clients i).updates) ∧
      ∀ h, (.timeout i, h) ∈ trace (DirectoryNetwork.step E) (.start clients d) events →
        h = .nothing ∨ h = .returned i (.ok []) := by
  obtain ⟨received, hreceived⟩ : ∃ received : List (List ProtocolDirectoryEntry),
      (trace (DirectoryNetwork.step E) (.start clients d) events).flatMap (receivedBy i) =
        received.map .ok := by
    have hrange : (trace (DirectoryNetwork.step E) (.start clients d) events).flatMap
        (receivedBy i) ∈ Set.range (List.map (@Except.ok Fault (List ProtocolDirectoryEntry))) := by
      rw [Set.range_list_map]
      intro r hr
      exact (along_settled hd clients events).forall_flatMap (publishedBy E)
        (fun n ev h => h.published_ok hE ev) r
        ((received_sublist hd clients events i).subset hr)
    obtain ⟨received, hreceived⟩ := hrange
    exact ⟨received, hreceived.symm⟩
  have hfold := (along_settled hd clients events).fold (fun n => (n.clients i).unbound)
    ProtocolDirectoryClient.takeResult (receivedBy i) fun n ev h => h.takes i ev
  rw [hreceived, List.foldl_map] at hfold
  have hclient := hfold.trans (foldl_updateDirectory _ received)
  refine ⟨received, hreceived, congrArg (·.directory) hclient, congrArg (·.updates) hclient,
    fun h hh => ?_⟩
  have htimeout := (along_settled hd clients events).forall_flatMap (fun p => [p])
    (P := fun p => p.1 = .timeout i → p.2 = .nothing ∨ p.2 = .returned i (.ok []))
    (fun n ev hn p hp hev => by
      rw [List.mem_singleton.mp hp] at hev ⊢
      obtain rfl : ev = .timeout i := hev
      exact hn.timeout i)
  rw [List.flatMap_singleton'] at htimeout
  exact htimeout _ hh rfl

/-- A client that has an entry in its directory, which the server does not have any more. -/
def staleClient : ProtocolDirectoryClient where
  directory := [canEntry]
  hasUpdateCallback := true

/-- The query of `lateAdd` gets its reply, and the next one times out. -/
def lateAddTimeout : List (DirectoryEvent Unit Unit) :=
  lateAddReceived ++ [.query (), .timeout ()]

theorem updates_are_changes_lateAdd :
    (trace (DirectoryNetwork.step textEnvironment) (.start (fun _ => staleClient) noEntries)
      lateAddTimeout).flatMap (receivedBy ()) = [.ok []] ∧
    ((after (DirectoryNetwork.step textEnvironment) (.start (fun _ => staleClient) noEntries)
      lateAddTimeout).clients ()).directory = [] ∧
    ((after (DirectoryNetwork.step textEnvironment) (.start (fun _ => staleClient) noEntries)
      lateAddTimeout).clients ()).updates = [[]] ∧
    ∀ h, (.timeout (), h) ∈ trace (DirectoryNetwork.step textEnvironment)
      (.start (fun _ => staleClient) noEntries) lateAddTimeout →
        h = .nothing ∨ h = .returned () (.ok []) := by
  have hrun : (trace (DirectoryNetwork.step textEnvironment)
      (.start (fun _ => staleClient) noEntries) lateAddTimeout).flatMap (receivedBy ()) =
        [[]].map .ok := rfl
  obtain ⟨received, hreceived, hdirectory, hupdates, htimeout⟩ := updates_are_changes
    parsesDumps_textEnvironment refines_noEntries.coherent (fun _ => staleClient)
    lateAddTimeout ()
  obtain rfl : [[]] = received :=
    List.map_injective_iff.mpr (fun _ _ => Except.ok.inj) (hrun.symm.trans hreceived)
  exact ⟨hreceived, hdirectory, hupdates, htimeout⟩

end Run

end Protos

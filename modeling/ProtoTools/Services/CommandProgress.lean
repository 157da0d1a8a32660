import ProtoTools.Services.CommandNetwork

/-!
# Commands return

The other half of `CommandNetwork.lean`: no request is lost while the loop runs.

* `answer_of_running`: a pass answers, or it ends the loop.
* `commands_return`: once a pass has had the turn of a program that waits, and the loop runs on, the
  next `recv` of the program returns a reply.
-/

namespace Protos

open Machine

variable {κ σ : Type*} [DecidableEq κ] {handler : CommandHandler σ} {s : σ}
  {events : List (CommandEvent κ)} {k : κ}

/-- The service after a run. -/
abbrev commandService (handler : CommandHandler σ) (s : σ) (events : List (CommandEvent κ)) :
    Service.State κ (CommandThread κ σ) (κ × Message) Message :=
  after (Service.step (CommandThread.answer handler)) { server := .running (servingSocket none) s }
    (events.map CommandEvent.toService)

omit [DecidableEq κ] in
theorem leave_not_mem (events : List (CommandEvent κ)) (k : κ) :
    .leave k ∉ events.map CommandEvent.toService := by
  intro hmem
  obtain ⟨ev, -, hev⟩ := List.mem_map.mp hmem
  cases ev <;> cases hev

/-- A program that waits is in a call of the service. -/
theorem calling_of_awaiting
    (h : (after (CommandNetwork.step handler) (.start s) events).programs k = .awaiting) :
    (commandService handler s events).phase k = .calling := by
  obtain ⟨hsocket, hleft⟩ := (attends_run handler s events).programs k
  rw [h] at hsocket
  cases hp : (commandService handler s events).phase k with
  | calling => rfl
  | left => exact absurd hp hleft
  | ready =>
    rw [hp] at hsocket
    cases hsocket

/-- The reply of a program that is there is received. -/
theorem returned_of_reply (hp : (commandService handler s events).phase k = .calling)
    (hreply : (commandService handler s events).reply k ≠ none) :
    ∃ reply, ((after (CommandNetwork.step handler) (.start s) events).step handler
      (.reply k)).1 = .returned k (some reply) := by
  have hsim := attends_run handler s events
  obtain ⟨m, hm⟩ := Option.ne_none_iff_exists'.mp hreply
  obtain ⟨reply, rfl⟩ := hsim.frames k m hm
  exact ⟨reply, congrArg Prod.fst (hsim.step_reply hp hm)⟩

/-- **A pass answers**, or it ends the loop. -/
theorem answer_of_running {socket : RepRouter κ} {s' : σ}
    (hrun : (after (CommandNetwork.step handler) (.start s) (events ++ [.take k])).thread =
      .running socket s') {p : κ × Message}
    (hp : (commandService handler s events).request k = some p) :
    ((commandService handler s events).server.answer handler p).1 ≠ none := by
  have hsim := attends_run handler s events
  have hwaits := hsim.waits
  obtain ⟨j, m⟩ := p
  obtain rfl : j = k := hsim.senders _ _ hp
  rw [after_append] at hrun
  rw [← hsim.thread]
  generalize after (CommandNetwork.step handler) (.start s) events = n at hsim hwaits hrun ⊢
  change (n.step handler (.take j)).2.thread = .running socket s' at hrun
  cases ht : n.thread with
  | ended =>
    rw [CommandNetwork.take_ended ht] at hrun
    exact absurd (ht.symm.trans hrun) (by simp)
  | running socket₀ s₀ =>
    rw [ht] at hwaits
    obtain rfl : socket₀ = servingSocket none := hwaits
    have hrequest : n.requests j = [m] := by
      rw [hsim.requests.resolve_left (by simp [ht]) j, hp]
      rfl
    have hpass := pass_cases handler s₀ j m
    unfold CommandThread.answer
    generalize hr : CommandThread.step handler (.running (servingSocket none) s₀) (j, m) = r
      at hpass
    rw [CommandNetwork.take_pass ht hrequest hr] at hrun
    cases hpass with
    | answered => exact Option.some_ne_none _
    | short | throws | long => cases hrun

/-- **Commands return.** A program waits for the reply to a request of any shape, and a pass of the
loop gets to it and does not end the loop: then its `recv` returns a reply, at the latest the next
one, whatever the other parties do in between. -/
theorem commands_return {u v : List (CommandEvent κ)} {socket : RepRouter κ} {s' : σ}
    (hwait : (after (CommandNetwork.step handler) (.start s) events).programs k = .awaiting)
    (hrun : (after (CommandNetwork.step handler) (.start s) (events ++ u ++ [.take k])).thread =
      .running socket s') :
    ∃ w reply, ((after (CommandNetwork.step handler) (.start s) (events ++ w)).step handler
        (.reply k)).1 = .returned k (some reply) ∧
      (w ++ [.reply k] <+: u ++ .take k :: v ∨ w = u ++ .take k :: v) := by
  have hevents : (u ++ .take k :: v).map CommandEvent.toService =
      u.map CommandEvent.toService ++ .serve k :: v.map CommandEvent.toService := by
    rw [List.map_append, List.map_cons]
    rfl
  have hleave := leave_not_mem (u ++ .take k :: v) k
  rw [hevents] at hleave
  obtain ⟨w', hw', hcalling, hreply⟩ := Service.reply_comes (calling_of_awaiting hwait) hleave
    fun p hreq => by
      rw [← List.map_append] at hreq ⊢
      exact answer_of_running hrun hreq
  rw [← hevents] at hw'
  obtain ⟨w, rfl, hw⟩ := Service.map_of_prefix (.reply k) (fun ev hev => by
    cases ev <;> cases hev
    rfl) hw'
  rw [← List.map_append] at hcalling hreply
  obtain ⟨reply, hreturned⟩ := returned_of_reply hcalling hreply
  exact ⟨w, reply, hreturned, hw⟩

/-- Both requests are on their way, and the one that was sent last is taken first. -/
theorem commands_return_two :
    ∃ w reply, ((after (CommandNetwork.step countingHandler) (.start 0)
        (twoCalls.take 2 ++ w)).step countingHandler (.reply false)).1 =
          .returned false (some reply) ∧
      (w ++ [.reply false] <+: [.take true] ++ .take false :: [.reply true] ∨
        w = [.take true] ++ .take false :: [.reply true]) := by
  have hrun : (after (CommandNetwork.step countingHandler) (.start 0)
      (twoCalls.take 2 ++ [.take true] ++ [.take false])).thread = .running {} 2 := rfl
  exact commands_return rfl hrun

end Protos

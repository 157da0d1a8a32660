import ProtoTools.Services.DirectoryNetwork

/-!
# Queries of the directory return

The other half of `DirectoryNetwork.lean`: a query that does not time out is answered, whatever the
other parties do.

* `Simulates.returns`: a reply on its way in the service is one that a query returns with.
* `queries_return`: once a pass of the loop has had the turn of a query, its next `recv` returns.
-/

namespace Protos

open Machine ProtocolDirectoryServer

variable {ι κ : Type*} [DecidableEq ι] [DecidableEq κ] {E : Environment}
  {d : ProtocolDirectoryServer} {clients : ι → ProtocolDirectoryClient}
  {events : List (DirectoryEvent ι κ)} {i : ι}

theorem Simulates.returns {n : DirectoryNetwork ι κ}
    {a : Service.State (ι ⊕ κ) Thread Message Message} (h : Simulates E n a)
    (hp : a.phase (.inl i) = .calling) {m : Message} (hm : a.reply (.inl i) = some m) :
    ∃ result, (n.step E (.reply (.inl i))).1 = .returned i result := by
  have hreplies : n.replies (.inl i) = [m] := by rw [h.replies, hm]; rfl
  rw [step_reply ((h.querying i).mpr hp) hreplies]
  exact ⟨_, rfl⟩

/-- The service after a run. -/
abbrev serviceAfter (E : Environment) (d : ProtocolDirectoryServer)
    (events : List (DirectoryEvent ι κ)) : Service.State (ι ⊕ κ) Thread Message Message :=
  after (Service.step (Thread.answer E)) (serviceOf d) (events.map DirectoryEvent.toService)

/-- The query of a client asks for the list. -/
theorem request_query {m : Message} (h : (serviceAfter E d events).request (.inl i) = some m) :
    m = listMessage := by
  obtain ⟨ev, -, hev⟩ := List.mem_map.mp (Service.mem_call_of_request h)
  cases ev <;> cases hev
  rfl

/-- While the loop runs, it answers. -/
theorem answer_query (hd : d.Coherent E) {s : RequestServer}
    (hrun : (after (DirectoryNetwork.step E) (.start clients d) events).thread = .running s)
    {m : Message} (hm : (serviceAfter E d events).request (.inl i) = some m) :
    ((serviceAfter E d events).server.answer E m).1 ≠ none := by
  have hsim := simulates_run hd clients events
  have hsound := hsim.sound
  have hserver := hsim.thread
  rw [hrun] at hsound hserver
  rw [show (serviceAfter E d events).server = .running s from hserver.symm, request_query hm,
    answer_list hsound]
  exact Option.some_ne_none _

theorem returns_of_reply (hE : E.ParsesDumps) (hd : d.Coherent E)
    (clients : ι → ProtocolDirectoryClient)
    (hp : (serviceAfter E d events).phase (.inl i) = .calling)
    (hreply : (serviceAfter E d events).reply (.inl i) ≠ none) :
    ∃ entries, ((after (DirectoryNetwork.step E) (.start clients d) events).step E
      (.reply (.inl i))).1 = .returned i (.ok entries) := by
  obtain ⟨m, hm⟩ := Option.ne_none_iff_exists'.mp hreply
  obtain ⟨result, hresult⟩ := (simulates_run hd clients events).returns hp hm
  obtain ⟨_, _, _, s, -, -, -, rfl⟩ := returned_query hE hd hresult
  exact ⟨_, hresult⟩

/-- **Queries return.** A client is in a query and does not time out, and the loop, as long as it
runs, gets to the client in a pass: then its query returns with a list of entries, at the latest in
the next `recv`, whatever the other parties do in between. -/
theorem queries_return (hE : E.ParsesDumps) (hd : d.Coherent E)
    (clients : ι → ProtocolDirectoryClient) {u v : List (DirectoryEvent ι κ)}
    (hquery : (after (DirectoryNetwork.step E) (.start clients d) events).querying i = true)
    {s : RequestServer}
    (hrun : (after (DirectoryNetwork.step E) (.start clients d) (events ++ u)).thread = .running s)
    (hstay : .timeout i ∉ u ++ .take (.inl i) :: v) :
    ∃ w entries, ((after (DirectoryNetwork.step E) (.start clients d) (events ++ w)).step E
        (.reply (.inl i))).1 = .returned i (.ok entries) ∧
      (w ++ [.reply (.inl i)] <+: u ++ .take (.inl i) :: v ∨ w = u ++ .take (.inl i) :: v) := by
  have hp := ((simulates_run hd clients events).querying i).mp hquery
  have hevents : (u ++ .take (.inl i) :: v).map DirectoryEvent.toService =
      u.map DirectoryEvent.toService ++ .serve (.inl i) :: v.map DirectoryEvent.toService := by
    rw [List.map_append, List.map_cons]
    rfl
  have hleave : .leave (.inl i) ∉ (u ++ .take (.inl i) :: v).map DirectoryEvent.toService := by
    intro hmem
    obtain ⟨ev, hev, he⟩ := List.mem_map.mp hmem
    cases ev <;> cases he
    exact hstay hev
  rw [hevents] at hleave
  obtain ⟨w', hw', hcalling, hreply⟩ := Service.reply_comes hp hleave fun m hm => by
    rw [← List.map_append] at hm ⊢
    exact answer_query hd hrun hm
  rw [← hevents] at hw'
  obtain ⟨w, rfl, hw⟩ := Service.map_of_prefix (.reply (.inl i)) (fun ev hev => by
    cases ev <;> cases hev
    rfl) hw'
  rw [← List.map_append] at hcalling hreply
  obtain ⟨entries, hreturned⟩ := returns_of_reply hE hd clients hcalling hreply
  exact ⟨w, entries, hreturned, hw⟩

/-- The query is answered before the request that was sent first. -/
theorem queries_return_lateAdd :
    ∃ w entries, ((after (DirectoryNetwork.step textEnvironment)
        (.start (fun _ => {}) noEntries) (lateAdd.take 2 ++ w)).step textEnvironment
          (.reply (.inl ()))).1 = .returned () (.ok entries) ∧
      (w ++ [.reply (.inl ())] <+: [] ++ .take (.inl ()) :: [.take (.inr ())] ∨
        w = [] ++ .take (.inl ()) :: [.take (.inr ())]) := by
  have hrun : (after (DirectoryNetwork.step textEnvironment) (.start (fun _ => {}) noEntries)
      (lateAdd.take 2 ++ [])).thread = .running { directory := noEntries } := rfl
  exact queries_return parsesDumps_textEnvironment refines_noEntries.coherent (fun _ => {}) rfl
    hrun (by simp)

end Protos

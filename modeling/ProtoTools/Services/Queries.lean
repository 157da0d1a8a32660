import ProtoTools.Services.DirectoryMap

/-!
# Queries of the directory

* `Query`: one call of `queryProtocols`, with the time that the server takes to answer it, if it
  does. `Session.step` is the call.
* `Idle`: the client between two calls that were answered. `step_inTime`, `step_late`: what a call
  returns, and the socket that it leaves. `step_awaiting`: after a timeout the next call throws.
* `queries_answered_iff`: every call of a run returns its own answer exactly when none but the last
  one times out.
-/

namespace Protos

open Machine ProtocolDirectoryClient

/-- A call of `queryProtocols`. -/
structure Query where
  /-- The time since the call before it, in milliseconds. -/
  pause : Nat
  timeoutMs : UInt16
  /-- The server's answer, if it answers: the time that it takes, and the server that answers. -/
  answer : Option (Nat × ProtocolDirectoryServer)

/-- The client, and the time. -/
structure Session where
  client : ProtocolDirectoryClient
  clock : Nat := 0

/-- The call: the request goes out, and its reply is received when it comes before the timeout. -/
def Session.step (E : Environment) (s : Session) (q : Query) :
    Except Fault (List ProtocolDirectoryEntry) × Session :=
  let now := s.clock + q.pause
  match s.client.sendList with
  | .error e => (.error e, { s with clock := now })
  | .ok (_, client) =>
    let due := q.answer.map fun (delay, server) =>
      (now + delay, { first := server.completeListJson })
    let deadline := now + q.timeoutMs.toNat
    match due.filter (·.1 ≤ deadline) with
    | some (time, reply) =>
      let (result, client) := client.receiveList E (some reply)
      (result, { client, clock := time })
    | none =>
      let (result, client) := client.receiveList E none
      (result, { client, clock := deadline })

/-- The answer comes before the timeout. -/
def Query.InTime (q : Query) : Prop :=
  ∃ delay server, q.answer = some (delay, server) ∧ delay ≤ q.timeoutMs.toNat

/-- What the call is to return: the directory of the server that answers it in time, or nothing. -/
def Query.expected (E : Environment) (q : Query) : List ProtocolDirectoryEntry :=
  match q.answer with
  | some (delay, server) =>
    if delay ≤ q.timeoutMs.toNat then server.values E else []
  | none => []

/-- The call returns this and does not throw. -/
def Answers (E : Environment) (s : Session) (q : Query) : Prop :=
  (s.step E q).1 = .ok (q.expected E)

/-- The list that the server sends is the one of its entries, as `coherent_operate` keeps it. -/
def Query.Coherent (E : Environment) (q : Query) : Prop :=
  ∀ answer, q.answer = some answer → answer.2.Coherent E

section Step

variable {E : Environment} {s : Session} {q : Query}

/-- A call that is answered in time leaves the client ready for the next one. -/
theorem step_inTime (hE : E.ParsesDumps) (hq : q.Coherent E)
    (hs : s.client.reqSocket = .ready []) (hin : q.InTime) :
    Answers E s q ∧ (s.step E q).2.client.reqSocket = .ready [] := by
  obtain ⟨delay, server, hanswer, hle⟩ := hin
  obtain ⟨h1, h2⟩ := receiveList_some (c := { s.client with reqSocket := .awaiting }) rfl
    (decodeDirectory_list hE (hq _ hanswer))
  have hdue : s.clock + q.pause + delay ≤ s.clock + q.pause + q.timeoutMs.toNat := by omega
  simp only [Answers, Session.step, Query.expected, sendList_ready hs, hanswer, Option.map_some,
    Option.filter, decide_eq_true hdue, if_pos, if_pos hle, h1, h2, and_self]

/-- A call that times out returns nothing, and leaves the client waiting for the reply. -/
theorem step_late (hs : s.client.reqSocket = .ready []) (hlate : ¬ q.InTime) :
    Answers E s q ∧ (s.step E q).2.client.reqSocket = .awaiting := by
  have hnone := receiveList_none (E := E) (c := { s.client with reqSocket := .awaiting }) rfl
  cases hanswer : q.answer with
  | none =>
    simp only [Answers, Session.step, Query.expected, sendList_ready hs, hanswer, Option.map_none,
      Option.filter, hnone, and_self]
  | some answer =>
    obtain ⟨delay, server⟩ := answer
    have hlt : ¬ delay ≤ q.timeoutMs.toNat := fun hle => hlate ⟨delay, server, hanswer, hle⟩
    have hdue : ¬ s.clock + q.pause + delay ≤ s.clock + q.pause + q.timeoutMs.toNat := by omega
    simp only [Answers, Session.step, Query.expected, sendList_ready hs, hanswer, Option.map_some,
      Option.filter, decide_eq_false hdue, if_neg hlt, hnone, Bool.false_eq_true, if_false,
      and_self]

/-- A client that waits for a reply throws. -/
theorem step_awaiting (hs : s.client.reqSocket = .awaiting) : ¬ Answers E s q := by
  intro h
  rw [Answers, Session.step, sendList_awaiting hs] at h
  cases h

end Step

/-! ## Runs -/

/-- **When every query gets its own answer.** Every call of a run returns the directory that the
server sent in reply to it, or nothing when no reply came in time, and none throws, exactly when
each call but the last one gets its reply in time. -/
theorem queries_answered_iff {E : Environment} (hE : E.ParsesDumps) (c : ProtocolDirectoryClient)
    {queries : List Query} (hserver : ∀ q ∈ queries, q.Coherent E) :
    Along (Session.step E) (Answers E) { client := c.bind } queries ↔
      ∀ q ∈ queries.dropLast, q.InTime := by
  have hstart : ({ client := c.bind } : Session).client.reqSocket = .ready [] := rfl
  generalize ({ client := c.bind } : Session) = s at hstart
  induction queries generalizing s with
  | nil => simp
  | cons q queries ih =>
    rw [List.forall_mem_cons] at hserver
    by_cases hin : q.InTime
    · obtain ⟨hanswers, hready⟩ := step_inTime hE hserver.1 hstart hin
      rw [along_cons, and_iff_right hanswers]
      apply (ih hserver.2 _ hready).trans
      cases queries with
      | nil => simp
      | cons q' queries => simp [hin]
    · obtain ⟨hanswers, hawaiting⟩ := step_late (E := E) hstart hin
      cases queries with
      | nil => simp [hanswers]
      | cons q' queries =>
        -- the next call throws
        refine ⟨fun h => absurd h.2.1 (step_awaiting hawaiting), fun h => ?_⟩
        rw [List.dropLast_cons_cons, List.forall_mem_cons] at h
        exact absurd h.1 hin

/-- A server with one entry. -/
def canServer : ProtocolDirectoryServer where
  protocols := [(canEntry.key, canEntry)]
  completeListJson := (ProtocolDirectoryServer.listJson [canEntry]).compact

theorem coherent_canServer : canServer.Coherent textEnvironment := by
  have hvalid : (ProtocolDirectoryServer.listJson [canEntry]).validUtf8 = true := by decide
  exact dump_textEnvironment hvalid

/-- A first query that is never answered: the second one throws. -/
theorem query_after_timeout : ¬ ∀ (E : Environment) (c : ProtocolDirectoryClient)
    (queries : List Query), E.ParsesDumps → (∀ q ∈ queries, q.Coherent E) →
      Along (Session.step E) (Answers E) { client := c.bind } queries := by
  intro h
  have hcoherent : ∀ q ∈ [(⟨0, 100, none⟩ : Query), ⟨0, 100, none⟩],
      q.Coherent textEnvironment := by
    simp [Query.Coherent]
  exact step_awaiting rfl (h textEnvironment {} _ parsesDumps_textEnvironment hcoherent).2.1

/-- A query that is answered in time, and one that is not. -/
theorem queries_answered_can : Along (Session.step textEnvironment) (Answers textEnvironment)
    { client := ({} : ProtocolDirectoryClient).bind }
    [⟨0, 100, some (10, canServer)⟩, ⟨0, 0, none⟩] := by
  refine (queries_answered_iff parsesDumps_textEnvironment {} ?_).mpr ?_
  · simp [Query.Coherent, coherent_canServer]
  · simp [Query.InTime]

end Protos

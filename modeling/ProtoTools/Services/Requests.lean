import ProtoTools.Lib.Service
import ProtoTools.Services.Zmq

/-!
# Programs that send requests

A program with a REQ socket, as a client of a service (`Lib/Service.lean`).

* `ReqSocket.sendAll`: a program sends a request of any number of frames.
* `phaseSocket`: the socket of a client in each phase of its call.
-/

namespace Protos

variable {ι : Type*}

/-- `send` of all frames of a message. -/
def ReqSocket.sendAll : ReqSocket → Bytes → List Bytes →
    Except Fault (Option Message × ReqSocket)
  | s, last, [] => s.send last .none
  | s, first, next :: rest =>
    match s.send first .sndmore with
    | .error e => .error e
    | .ok (_, s) => s.sendAll next rest

/-- The socket of a client in the phase. -/
def phaseSocket : Service.Phase → ReqSocket
  | .ready => .ready []
  | _ => .awaiting

theorem sendAll_pending (p : Bytes) (ps : List Bytes) (first : Bytes) (rest : List Bytes) :
    ReqSocket.sendAll (.ready (p :: ps)) first rest =
      .ok (some { first := p, rest := ps ++ first :: rest }, .awaiting) := by
  induction rest generalizing ps first with
  | nil => rfl
  | cons next rest ih =>
    have hsend : ReqSocket.send (.ready (p :: ps)) first .sndmore =
        .ok (none, .ready (p :: (ps ++ [first]))) := rfl
    rw [ReqSocket.sendAll, hsend]
    simp only
    rw [ih, List.append_assoc, List.singleton_append]

/-- A socket that is ready sends the whole message. -/
theorem sendAll_ready (m : Message) :
    ReqSocket.sendAll (.ready []) m.first m.rest = .ok (some m, .awaiting) := by
  obtain ⟨first, rest⟩ := m
  cases rest with
  | nil => rfl
  | cons next rest => exact sendAll_pending first [] next rest

theorem sendAll_awaiting (first : Bytes) (rest : List Bytes) :
    ReqSocket.sendAll .awaiting first rest = .error .efsm := by
  cases rest <;> rfl

/-- The messages of one party change. -/
theorem toList_update [DecidableEq ι] {j : ι} {lists : ι → List Message}
    {options : ι → Option Message} (h : ∀ j, lists j = (options j).toList) {ms : List Message}
    {o : Option Message} (ho : ms = o.toList) (j' : ι) :
    Function.update lists j ms j' = (Function.update options j o j').toList := by
  by_cases hj : j' = j
  · subst hj
    simp [ho]
  · simp [hj, h j']

end Protos

import ProtoTools.Services.DirectoryServer
import ProtoTools.Services.JsonText

/-!
# The directory client (`directory/ProtocolDirectoryClient.cpp`)

* `decodeDirectory`: what `queryProtocols` makes of a reply. `decodeDirectory_list`: from the list
  that the server serializes it makes the entries of the directory.
* `ProtocolDirectoryClient.sendList`, `ProtocolDirectoryClient.receiveList`: the two halves of
  `queryProtocols`.
-/

namespace Protos

open ProtocolDirectoryServer

/-- What the documentation says of a text that was serialized. -/
structure Environment.ParsesDumps (E : Environment) : Prop where
  /-- The parser undoes the serializer. -/
  parse_dump : ∀ j text, j.Textual → E.dump j = .ok text → E.parse text = .ok j

/-! ## The directory of a reply -/

/-- The conversion to a vector of entries. -/
def entriesOf (j : Json) : Except Fault (List ProtocolDirectoryEntry) :=
  match j with
  | .array elements => elements.mapM ProtocolDirectoryEntry.fromJson
  | _ => .error (.jsonError 302)

def decodeDirectory (E : Environment) (text : Bytes) :
    Except Fault (List ProtocolDirectoryEntry) := do
  let j ← E.parse text
  let protocols ← j.subscript (lit "protocols")
  entriesOf protocols

theorem fromJson_toJson (p : ProtocolDirectoryEntry) :
    ProtocolDirectoryEntry.fromJson p.toJson = .ok p := rfl

theorem textual_toJson (p : ProtocolDirectoryEntry) : p.toJson.Textual := by
  have hkeys : [lit "adapter_descriptor", lit "command_endpoint", lit "protocol_name",
    lit "publisher_endpoint"].Pairwise (· < ·) := by decide
  refine .object _ ?_ hkeys
  simp only [List.forall_mem_cons]
  exact ⟨.string _, .string _, .string _, .string _, fun _ h => absurd h List.not_mem_nil⟩

theorem textual_listJson (ps : List ProtocolDirectoryEntry) : (listJson ps).Textual := by
  refine .object _ ?_ (List.pairwise_singleton _ _)
  simp only [List.mem_singleton, forall_eq]
  refine .array _ fun j hj => ?_
  obtain ⟨p, -, rfl⟩ := List.mem_map.mp hj
  exact textual_toJson p

theorem entriesOf_toJson (ps : List ProtocolDirectoryEntry) :
    entriesOf (.array (ps.map (·.toJson))) = .ok ps := by
  unfold entriesOf
  induction ps with
  | nil => rfl
  | cons p ps ih =>
    simp only at ih
    simp only [List.map_cons, List.mapM_cons, fromJson_toJson, ih]
    rfl

/-- **The client reads the directory** that the server serializes. -/
theorem decodeDirectory_list {E : Environment} (hE : E.ParsesDumps)
    {ps : List ProtocolDirectoryEntry} {text : Bytes} (h : E.dump (listJson ps) = .ok text) :
    decodeDirectory E text = .ok ps := by
  have hlist : (listJson ps).subscript (lit "protocols") =
      .ok (.array (ps.map (·.toJson))) := rfl
  rw [decodeDirectory, hE.parse_dump _ _ (textual_listJson ps) h]
  simp only [bind, Except.bind, hlist]
  exact entriesOf_toJson ps

/-! ## `queryProtocols` -/

structure ProtocolDirectoryClient where
  reqSocket : ReqSocket := .ready []
  directory : List ProtocolDirectoryEntry := []
  hasUpdateCallback : Bool := false
  /-- The directories that the callback was called with. -/
  updates : List (List ProtocolDirectoryEntry) := []

namespace ProtocolDirectoryClient

def bind (c : ProtocolDirectoryClient) : ProtocolDirectoryClient :=
  { c with reqSocket := .ready [] }

def updateDirectory (c : ProtocolDirectoryClient) (directory : List ProtocolDirectoryEntry) :
    ProtocolDirectoryClient :=
  if directory = c.directory then c
  else { c with
    directory
    updates := if c.hasUpdateCallback then c.updates ++ [directory] else c.updates }

/-- The `send` of `queryProtocols`: the message that goes out. -/
def sendList (c : ProtocolDirectoryClient) :
    Except Fault (Option Message × ProtocolDirectoryClient) :=
  match c.reqSocket.send (lit "list") .none with
  | .error e => .error e
  | .ok (request, reqSocket) => .ok (request, { c with reqSocket })

/-- The rest of `queryProtocols`; `arrived` is the reply, when it has come before the timeout. -/
def receiveList (E : Environment) (c : ProtocolDirectoryClient) (arrived : Option Message) :
    Except Fault (List ProtocolDirectoryEntry) × ProtocolDirectoryClient :=
  match c.reqSocket.recv arrived with
  | .error e => (.error e, c)
  | .ok (none, reqSocket) => (.ok [], { c with reqSocket })
  | .ok (some reply, reqSocket) =>
    match decodeDirectory E reply with
    | .error e => (.error e, { c with reqSocket })
    | .ok received => (.ok received, { c with reqSocket }.updateDirectory received)

section Halves

variable {E : Environment} {c : ProtocolDirectoryClient}

theorem reqSocket_updateDirectory (c : ProtocolDirectoryClient)
    (directory : List ProtocolDirectoryEntry) :
    (c.updateDirectory directory).reqSocket = c.reqSocket := by
  unfold updateDirectory
  split <;> rfl

theorem sendList_ready (hc : c.reqSocket = .ready []) :
    c.sendList = .ok (some { first := lit "list" }, { c with reqSocket := .awaiting }) := by
  rw [sendList, hc]
  rfl

/-- A client that waits for a reply sends no request. -/
theorem sendList_awaiting (hc : c.reqSocket = .awaiting) : c.sendList = .error .efsm := by
  rw [sendList, hc]
  rfl

theorem receiveList_none (hc : c.reqSocket = .awaiting) :
    c.receiveList E none = (.ok [], c) := by
  rw [receiveList, hc]
  simp only [ReqSocket.recv, ← hc]

/-- The reply makes the client ready for another request. -/
theorem receiveList_some {text : Bytes} {entries : List ProtocolDirectoryEntry}
    (hc : c.reqSocket = .awaiting) (h : decodeDirectory E text = .ok entries) :
    (c.receiveList E (some { first := text })).1 = .ok entries ∧
      (c.receiveList E (some { first := text })).2.reqSocket = .ready [] := by
  rw [receiveList, hc]
  simp only [ReqSocket.recv, ReqSocket.afterFrame, h, reqSocket_updateDirectory, and_self]

end Halves

end ProtocolDirectoryClient

end Protos

import ProtoTools.Services.Json
import ProtoTools.Services.Zmq

/-!
# The directory server (`directory/ProtocolDirectoryServer.cpp`)

* `Environment`: what the server uses of `nlohmann::json` and of `std::unordered_map`'s order.
  `Environment.Documented` is what their documentation says.
* `change`: the map after a change, in whatever order it is then gone through.
* `addProtocol`, `updateCompleteList`: the directory and its cached list. A call that throws keeps
  the changes made before the throw.
* `serve`: one pass of the loop of `runRequestServer`; `Outcome` is what it sent, and the exception
  that left it. `Thread.step` is the thread that runs the loop.

The log lines of the source are left out; the look-ups that they make are not.
-/

namespace Protos

structure ProtocolDirectoryEntry where
  protocolName : Str
  adapterDescriptor : Str
  publisherEndpoint : Str
  commandEndpoint : Str
  deriving DecidableEq, Repr

namespace ProtocolDirectoryEntry

/-- The keys of the members that `NLOHMANN_DEFINE_TYPE_NON_INTRUSIVE` names. -/
def keys : List Str :=
  [lit "protocol_name", lit "adapter_descriptor", lit "publisher_endpoint", lit "command_endpoint"]

/-- `to_json`. -/
def toJson (p : ProtocolDirectoryEntry) : Json :=
  .object [(lit "adapter_descriptor", .string p.adapterDescriptor),
    (lit "command_endpoint", .string p.commandEndpoint),
    (lit "protocol_name", .string p.protocolName),
    (lit "publisher_endpoint", .string p.publisherEndpoint)]

/-- `from_json`. -/
def fromJson (j : Json) : Except Fault ProtocolDirectoryEntry := do
  let protocolName ← j.stringAt (lit "protocol_name")
  let adapterDescriptor ← j.stringAt (lit "adapter_descriptor")
  let publisherEndpoint ← j.stringAt (lit "publisher_endpoint")
  let commandEndpoint ← j.stringAt (lit "command_endpoint")
  return { protocolName, adapterDescriptor, publisherEndpoint, commandEndpoint }

/-- The key of an entry in the directory. -/
def key (p : ProtocolDirectoryEntry) : Str := p.protocolName ++ lit "|" ++ p.adapterDescriptor

/-- Every string of the entry is well-formed UTF-8. -/
def ValidUtf8 (p : ProtocolDirectoryEntry) : Prop := p.toJson.validUtf8 = true

end ProtocolDirectoryEntry

/-- A directory: its entries by their keys, which are distinct. -/
abbrev ProtocolDirectory := List (Str × ProtocolDirectoryEntry)

/-- What the server uses from outside: the parser and the serializer of `nlohmann::json`, and the
order in which an `unordered_map` is gone through. -/
structure Environment where
  parse : Bytes → Except Fault Json
  dump : Json → Except Fault Bytes
  /-- The order of the map after so many changes. -/
  iterate : Nat → ProtocolDirectory → ProtocolDirectory

/-- What the documentation says. -/
structure Environment.Documented (E : Environment) : Prop where
  /-- The parser rejects ill-formed UTF-8. -/
  parse_valid : ∀ text j, E.parse text = .ok j → j.validUtf8 = true
  /-- The serializer throws on ill-formed UTF-8 only. -/
  dump_iff : ∀ j, (∃ text, E.dump j = .ok text) ↔ j.validUtf8 = true
  /-- A range over the map visits each entry once. -/
  iterate_perm : ∀ changes protocols, (E.iterate changes protocols).Perm protocols

structure ProtocolDirectoryServer where
  protocols : ProtocolDirectory := []
  /-- How often the map was changed. Each change may bring it into another order. -/
  changes : Nat := 0
  completeListJson : Bytes := []

namespace ProtocolDirectoryServer

/-- `views::values` of the map. -/
def values (E : Environment) (d : ProtocolDirectoryServer) : List ProtocolDirectoryEntry :=
  (E.iterate d.changes d.protocols).map (·.2)

/-- The list that is serialized. -/
def listJson (values : List ProtocolDirectoryEntry) : Json :=
  .object [(lit "protocols", .array (values.map (·.toJson)))]

def updateCompleteList (E : Environment) (d : ProtocolDirectoryServer) :
    Except Fault Unit × ProtocolDirectoryServer :=
  match E.dump (listJson (d.values E)) with
  | .error e => (.error e, d)
  | .ok text => (.ok (), { d with completeListJson := text })

/-- The constructor. -/
def make (E : Environment) : Except Fault Unit × ProtocolDirectoryServer :=
  updateCompleteList E {}

/-- `protocols.erase(key)`. -/
def eraseKey (protocols : ProtocolDirectory) (key : Str) : ProtocolDirectory :=
  protocols.filter (·.1 != key)

/-- The assignment `protocols[key] = entry`. -/
def assign (protocols : ProtocolDirectory) (key : Str) (entry : ProtocolDirectoryEntry) :
    ProtocolDirectory := eraseKey protocols key ++ [(key, entry)]

/-- The directory with the changed map. The cached list is still the one from before. -/
def change (d : ProtocolDirectoryServer) (protocols : ProtocolDirectory) :
    ProtocolDirectoryServer := { d with protocols, changes := d.changes + 1 }

@[simp] theorem change_protocols (d : ProtocolDirectoryServer) (protocols : ProtocolDirectory) :
    (d.change protocols).protocols = protocols := rfl

def addProtocol (E : Environment) (d : ProtocolDirectoryServer) (p : ProtocolDirectoryEntry) :
    Except Fault Unit × ProtocolDirectoryServer :=
  updateCompleteList E (d.change (assign d.protocols p.key p))

end ProtocolDirectoryServer

/-! ## `runRequestServer` -/

/-- The server in its loop. -/
structure RequestServer where
  directory : ProtocolDirectoryServer
  repSocket : RepSocket := .idle

/-- What a pass of the loop sent, and the exception that left it. -/
structure Outcome where
  published : List Bytes := []
  replies : List Bytes := []
  thrown : Option Fault := none

/-- The two names of the entry, as the log line reads them. -/
def entryNames (entry : Json) : Except Fault (Str × Str) := do
  let protocolName ← entry.stringOf (lit "protocol_name")
  let adapterDescriptor ← entry.stringOf (lit "adapter_descriptor")
  return (protocolName, adapterDescriptor)

namespace RequestServer

open ProtocolDirectoryServer

/-- The second frame of a request, parsed. No other request comes before the reply. -/
def receiveEntry (E : Environment) (s : RequestServer) : Except Fault Json × RequestServer :=
  match s.repSocket.recv .timeout with
  | .error e => (.error e, s)
  | .ok (reply, socket) => (E.parse (reply.getD []), { s with repSocket := socket })

/-- The request `add`, to the reply. The literal is sent with its final zero. -/
def handleAdd (E : Environment) (s : RequestServer) : Except Fault Bytes × RequestServer :=
  match s.receiveEntry E with
  | (.error e, s) => (.error e, s)
  | (.ok entry, s) =>
    match entryNames entry with
    | .error e => (.error e, s)
    | .ok _ =>
      match ProtocolDirectoryEntry.fromJson entry with
      | .error e => (.error e, s)
      | .ok p =>
        match s.directory.addProtocol E p with
        | (.error e, d) => (.error e, { s with directory := d })
        | (.ok _, d) => (.ok (lit "OK" ++ [0]), { s with directory := d })

/-- The request `remove`, to the reply. -/
def handleRemove (E : Environment) (s : RequestServer) : Except Fault Bytes × RequestServer :=
  match s.receiveEntry E with
  | (.error e, s) => (.error e, s)
  | (.ok entry, s) =>
    match entryNames entry with
    | .error e => (.error e, s)
    | .ok (protocolName, adapterDescriptor) =>
      let d := s.directory.change (eraseKey s.directory.protocols
        (protocolName ++ lit "|" ++ adapterDescriptor))
      match d.updateCompleteList E with
      | (.error e, d) => (.error e, { s with directory := d })
      | (.ok _, d) => (.ok (lit "OK" ++ [0]), { s with directory := d })

/-- A request, to the reply. -/
def handle (E : Environment) (s : RequestServer) (req : Bytes) :
    Except Fault Bytes × RequestServer :=
  if req = lit "list" then (.ok s.directory.completeListJson, s)
  else if req = lit "add" then s.handleAdd E
  else if req = lit "remove" then s.handleRemove E
  else (.ok (lit "Unknown request: " ++ req ++ lit ". Valid: " ++ lit "list"), s)

/-- One pass of the loop, on what the wait for a request ends with. -/
def serve (E : Environment) (s : RequestServer) (ev : Event) : Outcome × RequestServer :=
  let published := [s.directory.completeListJson]
  match s.repSocket.recv ev with
  | .error e => ({ published, thrown := some e }, s)
  | .ok (none, socket) =>
    ({ published := published ++ [s.directory.completeListJson] }, { s with repSocket := socket })
  | .ok (some req, socket) =>
    match { s with repSocket := socket }.handle E req with
    | (.error e, s) => ({ published, thrown := some e }, s)
    | (.ok reply, s) =>
      match s.repSocket.send with
      | .error e => ({ published, thrown := some e }, s)
      | .ok socket => ({ published, replies := [reply] }, { s with repSocket := socket })

end RequestServer

/-- The thread that runs the loop. -/
inductive Thread where
  | running (s : RequestServer)
  /-- An exception has left the loop. -/
  | ended

/-- The loop on the events one after the other, until an exception leaves it. -/
def Thread.step (E : Environment) (t : Thread) (ev : Event) : Outcome × Thread :=
  match t with
  | .ended => ({}, .ended)
  | .running s =>
    let r := s.serve E ev
    (r.1, if r.1.thrown.isSome then .ended else .running r.2)

end Protos

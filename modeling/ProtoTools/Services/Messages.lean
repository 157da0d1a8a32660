import ProtoTools.Common.Basic

/-!
# The messages of the services (`ProtocolMessages.hpp`) and their header

A header goes out as `protocol_name|source`, without the `|` when there is no source
(`makeHeaderMessage`, `ProtocolPublisher.cpp`); it is split at its first `|` (`splitHeader`,
`ProtocolClient.cpp`).

* `splitHeader_makeHeaderMessage`: the two are inverse on names without a `|`.
* `prefix_makeHeaderMessage`: a topic without a `|` begins the header exactly when it begins the
  name.
-/

namespace Protos

structure ProtoHeader where
  protocolName : Str
  source : Str := []
  deriving DecidableEq, Repr

structure Command where
  commandVerb : Str
  commandReceiver : Str
  commandData : Str
  deriving DecidableEq, Repr

structure CommandReply where
  replyVerb : Str
  replyData : Str
  deriving DecidableEq, Repr

structure ProtoData where
  data : Bytes
  deriving DecidableEq, Repr

structure ProtoPackage where
  header : ProtoHeader
  data : ProtoData
  deriving DecidableEq, Repr

/-- The byte `|`. -/
def bar : UInt8 := 0x7C

theorem lit_bar : lit "|" = [bar] := by decide

/-! ## The header -/

def makeHeaderMessage (header : ProtoHeader) : Bytes :=
  if header.source = [] then header.protocolName
  else header.protocolName ++ (lit "|" ++ header.source)

def makeProtoMessage (protoPack : ProtoData) : Bytes := protoPack.data

/-- The split of `receiveSubscribed`, at the first `|` if there is one. -/
def splitHeader (headerStr : Bytes) : ProtoHeader :=
  match headerStr.findIdx? (· == bar) with
  | some pos => { protocolName := headerStr.take pos, source := headerStr.drop (pos + 1) }
  | none => { protocolName := headerStr }

section Header

variable {name source topic : Str}

theorem splitHeader_name (h : bar ∉ name) : splitHeader name = { protocolName := name } := by
  have hnone : name.findIdx? (· == bar) = none := by
    rw [List.findIdx?_eq_none_iff]
    intro b hb
    rw [beq_eq_false_iff_ne]
    rintro rfl
    exact h hb
  rw [splitHeader, hnone]

theorem splitHeader_source (h : bar ∉ name) :
    splitHeader (name ++ bar :: source) = { protocolName := name, source } := by
  have hpos : (name ++ bar :: source).findIdx? (· == bar) = some name.length := by
    induction name with
    | nil => rfl
    | cons b name ih =>
      obtain ⟨hb, hname⟩ := not_or.mp (List.mem_cons.not.mp h)
      rw [List.cons_append, List.findIdx?_cons, if_neg (by simpa using Ne.symm hb), ih hname]
      rfl
  rw [splitHeader, hpos]
  simp

/-- **The header** is split as it was joined. -/
theorem splitHeader_makeHeaderMessage {header : ProtoHeader} (h : bar ∉ header.protocolName) :
    splitHeader (makeHeaderMessage header) = header := by
  obtain ⟨name, source⟩ := header
  unfold makeHeaderMessage
  split
  · rename_i hs
    obtain rfl : source = [] := hs
    exact splitHeader_name h
  · rw [lit_bar, List.singleton_append]
    exact splitHeader_source h

/-- A topic without a `|` does not reach beyond the name. -/
theorem prefix_bar (h : bar ∉ topic) : topic <+: name ++ bar :: source ↔ topic <+: name := by
  constructor
  · intro hp
    rcases List.prefix_or_prefix_of_prefix hp (List.prefix_append name (bar :: source)) with
      hle | ⟨rest, rfl⟩
    · exact hle
    · cases rest with
      | nil => simp
      | cons b rest =>
        -- the first byte after the name is the `|`
        rw [List.prefix_append_right_inj, List.cons_prefix_cons] at hp
        simp [hp.1] at h
  · exact fun hp => hp.trans (List.prefix_append _ _)

theorem prefix_makeHeaderMessage {header : ProtoHeader} (h : bar ∉ topic) :
    topic <+: makeHeaderMessage header ↔ topic <+: header.protocolName := by
  unfold makeHeaderMessage
  split
  · exact Iff.rfl
  · rw [lit_bar]
    exact prefix_bar h

end Header

end Protos

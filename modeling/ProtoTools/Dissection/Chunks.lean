import ProtoTools.Dissection.Step

/-!
# Chunks of a stream

The streaming path of `addBytes` against `addByte` on every byte of the stream.

* `streamLoop_cases`: a chunk is read as far as the first packet that ends in it.
* `SameAsBytes`: after every chunk the packets delivered and the object are those of `addByte`, so
  a byte after the end of a packet belongs to the next packet.
* `addBytes_same_as_bytes_iff`: this holds exactly when no chunk goes on after the end of a packet.
-/

namespace Protos

open Machine GenericDissector

/-- The packets that the calls delivered. -/
def packetsOf (os : List (Except Fault (Option PacketData))) : List PacketData :=
  os.filterMap fun
    | .ok r => r
    | .error _ => none

@[simp] theorem packetsOf_nil : packetsOf [] = [] := rfl

@[simp] theorem packetsOf_append (os os' : List (Except Fault (Option PacketData))) :
    packetsOf (os ++ os') = packetsOf os ++ packetsOf os' := List.filterMap_append

@[simp] theorem packetsOf_cons_none (os : List (Except Fault (Option PacketData))) :
    packetsOf (.ok none :: os) = packetsOf os := rfl

@[simp] theorem packetsOf_cons_some (p : PacketData)
    (os : List (Except Fault (Option PacketData))) :
    packetsOf (.ok (some p) :: os) = p :: packetsOf os := rfl

/-- At most one packet of the stream ends in each chunk. -/
def OneEndPerChunk (d : GenericDissector) (chunks : List Bytes) : Prop :=
  Along (blockStep addByte) (fun d c => (packetsOf (outputs addByte d c)).length ≤ 1) d chunks

/-- After every chunk, `addBytes` has delivered the packets that `addByte` has delivered, and the
object is the same. -/
def SameAsBytes (d : GenericDissector) (chunks : List Bytes) : Prop :=
  ∀ cs, cs <+: chunks →
    packetsOf (outputs addBytes d cs) = packetsOf (outputs addByte d cs.flatten) ∧
      after addBytes d cs = after addByte d cs.flatten

/-- No packet of the stream ends before the last byte of its chunk. -/
def EndsWithPacket (d : GenericDissector) (chunks : List Bytes) : Prop :=
  Along (blockStep addByte) (fun d c => packetsOf (outputs addByte d c.dropLast) = []) d chunks

section Loop

variable {d : GenericDissector}

/-- **One chunk.** It is read to its end, or as far as the first packet that ends in it. -/
theorem streamLoop_cases {c : Bytes} (hok : AllReturn d c) :
    packetsOf (outputs addByte d c) = [] ∧ d.streamLoop c = (.ok none, after addByte d c) ∨
    ∃ u b v p, c = u ++ b :: v ∧ packetsOf (outputs addByte d u) = [] ∧
      ((after addByte d u).addByte b).1 = .ok (some p) ∧
      d.streamLoop c = (.ok (some p), after addByte d (u ++ [b])) := by
  induction c generalizing d with
  | nil => exact .inl ⟨rfl, rfl⟩
  | cons b c ih =>
    obtain ⟨r, hr⟩ := hok _ (.head _)
    have hb : d.addByte b = (.ok r, (d.addByte b).2) := Prod.ext hr rfl
    cases r with
    | some p =>
      refine .inr ⟨[], b, c, p, rfl, rfl, hr, ?_⟩
      rw [streamLoop, hb]
      simp
    | none =>
      have hloop : d.streamLoop (b :: c) = (d.addByte b).2.streamLoop c := by
        rw [streamLoop, hb]
      rw [hloop, outputs_cons, hr, packetsOf_cons_none, after_cons]
      rcases ih (AllReturn.append (u := [b]) hok).2 with h | ⟨u, b', v, p, rfl, h1, h2, h3⟩
      · exact .inl h
      · refine .inr ⟨b :: u, b', v, p, rfl, ?_, h2, h3⟩
        rw [outputs_cons, hr]
        exact h1

/-- After a nonempty run without packets a field is in progress. -/
theorem stack_of_no_packet {s : Bytes} (hs : s ≠ []) (hok : AllReturn d s)
    (hno : packetsOf (outputs addByte d s) = []) : (after addByte d s).currentPacketStack ≠ [] := by
  obtain ⟨u, b, rfl⟩ : ∃ u b, s = u ++ [b] := ⟨_, _, (List.dropLast_concat_getLast hs).symm⟩
  rw [outputs_append, packetsOf_append, List.append_eq_nil_iff] at hno
  obtain ⟨r, hr⟩ := hok.append.2 _ (.head _)
  have h2 := hno.2
  rw [outputs_cons, hr] at h2
  cases r with
  | some p => simp at h2
  | none =>
    rw [after_append]
    exact addByte_none (Prod.ext hr rfl)

theorem addBytes_of_streaming (ht : d.packetTemplate.isFixedSize = false) (c : Bytes) :
    d.addBytes c = d.streamLoop c := by
  rw [addBytes, ht]
  rfl

/-- A chunk is read whole exactly when no packet ends before its last byte. -/
theorem streamLoop_whole_iff {c : Bytes} (hok : AllReturn d c)
    (hone : (packetsOf (outputs addByte d c)).length ≤ 1) :
    (packetsOf [(d.streamLoop c).1] = packetsOf (outputs addByte d c) ∧
      (d.streamLoop c).2 = after addByte d c) ↔ packetsOf (outputs addByte d c.dropLast) = [] := by
  rcases streamLoop_cases hok with ⟨h1, h2⟩ | ⟨u, b, v, p, rfl, h1, h2, h3⟩
  · have hpre : packetsOf (outputs addByte d c.dropLast) <+: packetsOf (outputs addByte d c) := by
      obtain ⟨v, hv⟩ := c.dropLast_prefix
      conv => rhs; rw [← hv, outputs_append, packetsOf_append]
      exact List.prefix_append _ _
    rw [h1] at hpre
    rw [h2, h1]
    exact ⟨fun _ => List.prefix_nil.mp hpre, fun _ => ⟨rfl, rfl⟩⟩
  · have hp : packetsOf (outputs addByte d (u ++ [b])) = [p] := by
      rw [outputs_append, packetsOf_append, h1, outputs_cons, h2]
      rfl
    rw [List.append_cons u b v] at hok hone h3 ⊢
    rw [h3]
    cases v with
    | nil =>
      rw [List.append_nil, List.dropLast_concat, hp, h1]
      exact ⟨fun _ => rfl, fun _ => ⟨rfl, rfl⟩⟩
    | cons b' v =>
      -- the bytes after the packet are not read: another field would be in progress
      rw [outputs_append, packetsOf_append, hp, List.length_append, List.length_singleton] at hone
      have hno : packetsOf (outputs addByte (after addByte d (u ++ [b])) (b' :: v)) = [] :=
        List.length_eq_zero_iff.mp (by omega)
      constructor
      · rintro ⟨-, hst⟩
        refine absurd ?_ (stack_of_no_packet (List.cons_ne_nil b' v) hok.append.2 hno)
        rw [← after_append, ← hst, after_append]
        exact (addByte_some (Prod.ext h2 rfl)).1
      · intro hdrop
        rw [List.dropLast_append_of_ne_nil (List.cons_ne_nil b' v), outputs_append,
          packetsOf_append, hp] at hdrop
        cases hdrop

end Loop

/-- `SameAsBytes`, chunk by chunk. -/
theorem sameAsBytes_iff_along {d : GenericDissector} {chunks : List Bytes} :
    SameAsBytes d chunks ↔ Along (blockStep addByte) (fun d c =>
      packetsOf [(d.addBytes c).1] = packetsOf (outputs addByte d c) ∧
        (d.addBytes c).2 = after addByte d c) d chunks := by
  induction chunks generalizing d with
  | nil =>
    refine ⟨fun _ => trivial, fun _ cs hcs => ?_⟩
    rw [List.prefix_nil.mp hcs]
    exact ⟨rfl, rfl⟩
  | cons c chunks ih =>
    have hcut : ∀ os, packetsOf ((d.addBytes c).1 :: os) =
        packetsOf [(d.addBytes c).1] ++ packetsOf os := fun os => packetsOf_append [_] os
    rw [along_cons, blockStep, ← ih]
    constructor
    · intro h
      have h1 := h [c] ⟨chunks, rfl⟩
      simp only [outputs_cons, outputs_nil, after_cons, after_nil, List.flatten_singleton] at h1
      refine ⟨h1, fun cs hcs => ?_⟩
      have h2 := h (c :: cs) ((List.prefix_cons_inj c).mpr hcs)
      rw [outputs_cons, after_cons, List.flatten_cons, outputs_append, after_append, hcut, h1.1,
        h1.2, packetsOf_append] at h2
      exact ⟨List.append_cancel_left h2.1, h2.2⟩
    · rintro ⟨h1, h2⟩ cs hcs
      cases cs with
      | nil => exact ⟨rfl, rfl⟩
      | cons c' cs =>
        obtain ⟨rfl, hrest⟩ := List.cons_prefix_cons.mp hcs
        obtain ⟨q1, q2⟩ := h2 cs hrest
        rw [outputs_cons, after_cons, List.flatten_cons, outputs_append, after_append, hcut, h1.1,
          h1.2, packetsOf_append, q1]
        exact ⟨rfl, q2⟩

/-- **When the chunks of a stream do not matter.** For a template that is not of fixed size, a
stream on which no call throws and chunks in each of which at most one packet ends: `addBytes` on
the chunks delivers the packets of `addByte` on the bytes, and every byte belongs to its packet,
exactly when no packet ends before the last byte of a chunk. -/
theorem addBytes_same_as_bytes_iff {d : GenericDissector} {chunks : List Bytes}
    (ht : d.packetTemplate.isFixedSize = false) (hok : AllReturn d chunks.flatten)
    (hone : OneEndPerChunk d chunks) : SameAsBytes d chunks ↔ EndsWithPacket d chunks := by
  have hruns := (along_blockStep.mpr hok).and hone
  have hiff : ∀ (d : GenericDissector) (c : Bytes), d.packetTemplate.isFixedSize = false →
      AllReturn d c ∧ (packetsOf (outputs addByte d c)).length ≤ 1 →
      ((packetsOf [(d.addBytes c).1] = packetsOf (outputs addByte d c) ∧
        (d.addBytes c).2 = after addByte d c) ↔ packetsOf (outputs addByte d c.dropLast) = []) ∧
      (blockStep addByte d c).2.packetTemplate.isFixedSize = false := by
    rintro d c ht ⟨h1, h2⟩
    rw [addBytes_of_streaming ht, blockStep, packetTemplate_after]
    exact ⟨streamLoop_whole_iff h1 h2, ht⟩
  rw [sameAsBytes_iff_along]
  constructor
  · refine fun h => ((hruns.and h).mono_inv
      (I := fun d => d.packetTemplate.isFixedSize = false) (fun d c hd hg => ?_) ht).1
    obtain ⟨h1, h2⟩ := hiff d c hd hg.1
    exact ⟨h1.mp hg.2, h2⟩
  · refine fun h => ((hruns.and h).mono_inv
      (I := fun d => d.packetTemplate.isFixedSize = false) (fun d c hd hg => ?_) ht).1
    obtain ⟨h1, h2⟩ := hiff d c hd hg.1
    exact ⟨h1.mpr hg.2, h2⟩

/-- A length and the data that it counts. -/
def lengthDataTemplate : PacketDescriptor where
  fields := [{ name := lit "L", size := 1, determinesSizeOf := lit "D" }, { name := lit "D" }]

/-- The packet of `lengthDataTemplate` with one byte. -/
def oneByte (b : UInt8) : PacketData := { fields := [⟨lit "L", [1]⟩, ⟨lit "D", [b]⟩] }

private theorem outputs_lengthData : outputs addByte (make lengthDataTemplate) [1, 65, 1, 66] =
    [.ok none, .ok (some (oneByte 65)), .ok none, .ok (some (oneByte 66))] := rfl

private theorem allReturn_lengthData : AllReturn (make lengthDataTemplate) [1, 65, 1, 66] := by
  unfold AllReturn
  rw [outputs_lengthData]
  simp

/-- The chunk `1, 65, 1` ends one packet and starts the next one, whose first byte is lost. -/
theorem addBytes_drops_bytes :
    ¬ ∀ (d : GenericDissector) (chunks : List Bytes), d.packetTemplate.isFixedSize = false →
      AllReturn d chunks.flatten → OneEndPerChunk d chunks →
      packetsOf (outputs addBytes d chunks) = packetsOf (outputs addByte d chunks.flatten) := by
  intro h
  have hone : OneEndPerChunk (make lengthDataTemplate) [[1, 65, 1], [66]] :=
    ⟨by decide, by decide, trivial⟩
  have := h (make lengthDataTemplate) [[1, 65, 1], [66]] rfl allReturn_lengthData hone
  exact absurd this (by decide)

/-- The same stream in the chunks `1, 65` and `1` and `66`. -/
theorem addBytes_same_as_bytes_lengthData :
    SameAsBytes (make lengthDataTemplate) [[1, 65], [1], [66]] := by
  have hone : OneEndPerChunk (make lengthDataTemplate) [[1, 65], [1], [66]] :=
    ⟨by decide, by decide, by decide, trivial⟩
  apply (addBytes_same_as_bytes_iff rfl allReturn_lengthData hone).mpr
  exact ⟨by decide, by decide, by decide, trivial⟩

end Protos

import ProtoTools.Lib.Window
import ProtoTools.Dissection.Moves

/-!
# Header synchronisation

A template that starts with a header field: until the header has been received, the dissector is a
scanner with a window (`Lib/Window.lean`).

* `syncState t bytes`: no field delivered, `bytes` in the buffer.
* `searching`: after a stream without the header, the buffer holds the last `n - 1` bytes of it.
* `synchronised`: the last byte of the first header finds the dissector as if the header alone had
  come.
* `addByte_locks`: this byte delivers the header.
* `header_sync`: the dissector locks on the first occurrence of the header, and goes on as a new
  one that got the header alone.
-/

namespace Protos

open Machine Window GenericDissector

/-- The first field of the template is the header field `top` of at least one byte. -/
structure StartsWithHeader (t : PacketDescriptor) (top : FieldDescriptor) : Prop where
  first : ∃ rest, t.fields = top :: rest
  isHeader : top.isHeaderValue = true
  size : top.size ≠ 0
  noCallback : top.externalSizeCalculation = none

/-- No field delivered yet, `bytes` in the buffer. -/
def syncState (t : PacketDescriptor) (bytes : Bytes) : GenericDissector :=
  ⟨t.fields, bytes, {}, t⟩

theorem make_eq_syncState (t : PacketDescriptor) : make t = syncState t [] := by
  simp [make, newPacket, makePacketStack, syncState]

section Sync

variable {t : PacketDescriptor} {top : FieldDescriptor}

theorem StartsWithHeader.size_pos (ht : StartsWithHeader t top) :
    top.size.toNat = top.size.toNat - 1 + 1 := by
  have : top.size.toNat ≠ 0 := fun e => ht.size (UInt16.toNat_inj.mp e)
  omega

/-- `matchesHeader`: the header field's value has its size and occurs at the offset. -/
theorem matchesHeader_drop (ht : StartsWithHeader t top) {d : GenericDissector}
    (hd : d.packetTemplate = t) (s : Bytes) (k : Nat) :
    d.matchesHeader (s.drop k) = .ok true ↔
      top.value.length = top.size.toNat ∧ OccursAt top.value s k := by
  obtain ⟨rest, hf⟩ := ht.first
  unfold matchesHeader
  rw [hd, hf]
  simp only [ht.isHeader, if_true]
  constructor
  · intro h
    split at h
    · simp at h
    · rename_i hlen
      simp only [Except.ok.injEq, beq_iff_eq] at h
      have hl : top.value.length = top.size.toNat := by
        rw [← h, List.length_take]; omega
      exact ⟨hl, by rw [OccursAt, ← h]; exact List.take_prefix _ _⟩
  · rintro ⟨hl, ho⟩
    have hle := List.IsPrefix.length_le ho
    rw [if_neg (by omega), ← hl, ← List.prefix_iff_eq_take.mp ho]
    simp

/-- A byte that does not end an occurrence of the header moves the window on. -/
theorem addByte_searching (ht : StartsWithHeader t top) {s : Bytes} {b : UInt8}
    (hno : ¬ (top.value.length = top.size.toNat ∧
      OccursAt top.value (s ++ [b]) (s.length - (top.size.toNat - 1)))) :
    (syncState t (last (top.size.toNat - 1) s)).addByte b =
      (.ok none, syncState t (last (top.size.toNat - 1) (s ++ [b]))) := by
  obtain ⟨rest, hf⟩ := ht.first
  have hn := ht.size_pos
  have hs : (syncState t (last (top.size.toNat - 1) s)).currentPacketStack = top :: rest := hf
  have hb : (syncState t (last (top.size.toNat - 1) s)).currentMessageBuffer =
    last (top.size.toNat - 1) s := rfl
  by_cases hlen : s.length < top.size.toNat - 1
  · rw [addByte_waits hs ht.noCallback (by rw [hb, length_last]; omega), last_concat_of_lt hlen]
    rfl
  · have hv : top.value ≠ last (top.size.toNat - 1) s ++ [b] := by
      intro e
      have hl : top.value.length = top.size.toNat - 1 + 1 := by
        rw [e]; simp; omega
      exact hno ⟨by omega, (occursAt_concat hl (by omega) b).mpr e⟩
    rw [addByte_drops hs ht.noCallback (by rw [hb, length_last]; omega) ht.isHeader hv,
      last_concat_tail (by omega)]
    rfl

/-- After a stream without the header, nothing is delivered and the buffer is the window. -/
theorem searching (ht : StartsWithHeader t top) {s : Bytes}
    (hno : ∀ k, ¬ (top.value.length = top.size.toNat ∧ OccursAt top.value s k)) :
    outputs addByte (make t) s = List.replicate s.length (.ok none) ∧
      after addByte (make t) s = syncState t (last (top.size.toNat - 1) s) := by
  induction s using List.reverseRecOn with
  | nil => exact ⟨rfl, by rw [last_nil]; exact make_eq_syncState t⟩
  | append_singleton s b ih =>
    obtain ⟨h1, h2⟩ := ih fun k hk => hno k ⟨hk.1, hk.2.append [b]⟩
    rw [outputs_append, after_append, h1, h2]
    simp [addByte_searching ht (hno _), ← List.replicate_succ']

/-- A value of the header's size is not empty. -/
theorem StartsWithHeader.value_ne_nil (ht : StartsWithHeader t top)
    (hv : top.value.length = top.size.toNat) : top.value ≠ [] := by
  have hn := ht.size_pos
  rw [Ne, ← List.length_eq_zero_iff]
  omega

/-- The last byte of the header delivers it, whatever its rules do then. -/
theorem addByte_locks (ht : StartsWithHeader t top) {w : Bytes} {b : UInt8}
    (hl : (w ++ [b]).length = top.size.toNat) (hv : top.value = w ++ [b]) :
    [⟨top.name, w ++ [b]⟩] <+: ((syncState t w).addByte b).2.currentPacket.fields ∧
      (((syncState t w).addByte b).2.currentPacketStack.map (·.name)).Sublist
        (t.fields.tail.map (·.name)) := by
  obtain ⟨rest, hf⟩ := ht.first
  have hs : (syncState t w).currentPacketStack = top :: rest := hf
  have hl' : (syncState t w).currentMessageBuffer.length + 1 = top.size.toNat := by
    simpa [syncState] using hl
  have hmoves : Relation.ReflTransGen (Move ⟨fun _ => True, fun _ => True⟩)
      (((syncState t w).pushByte b).takeField top rest).progress
      (((syncState t w).pushByte b).completed top rest).2.progress :=
    completed_moves (fun _ => trivial) fun _ => trivial
  rw [addByte_completes hs ht.noCallback hl' fun _ => hv, hf]
  exact ⟨delivered_moves hmoves, coming_moves hmoves⟩

/-- Before its first occurrence is complete, the header does not occur. -/
theorem not_occursAt_take (ht : StartsWithHeader t top) {s : Bytes} {k j : Nat}
    (hleast : ∀ i < k, ¬ (top.value.length = top.size.toNat ∧ OccursAt top.value s i))
    (hj : j ≤ k + top.size.toNat - 1) (i : Nat) :
    ¬ (top.value.length = top.size.toNat ∧ OccursAt top.value (s.take j) i) := by
  rintro ⟨hv, hi⟩
  have hn := ht.size_pos
  have hle := hi.length_le (ht.value_ne_nil hv)
  rw [List.length_take] at hle
  exact hleast i (by omega) ⟨hv, hi.of_take⟩

/-- Fewer bytes than the header: the header does not occur. -/
theorem not_occursAt_of_length_lt (ht : StartsWithHeader t top) {s : Bytes}
    (hs : s.length < top.size.toNat) (i : Nat) :
    ¬ (top.value.length = top.size.toNat ∧ OccursAt top.value s i) := by
  rintro ⟨hv, hi⟩
  have hle := hi.length_le (ht.value_ne_nil hv)
  omega

/-- **Synchronised.** When the header has not occurred before the byte that ends it, this byte finds
the dissector in the state of a new one that got the other bytes of the header alone. -/
theorem synchronised (ht : StartsWithHeader t top) {s : Bytes} {k : Nat}
    (hlen : k + top.size.toNat ≤ s.length)
    (hno : ∀ i, ¬ (top.value.length = top.size.toNat ∧
      OccursAt top.value (s.take (k + top.size.toNat - 1)) i)) :
    ∃ b, s.take (k + top.size.toNat) = s.take (k + top.size.toNat - 1) ++ [b] ∧
      (s.drop k).take top.size.toNat = (s.drop k).take (top.size.toNat - 1) ++ [b] ∧
      after addByte (make t) (s.take (k + top.size.toNat - 1)) =
        after addByte (make t) ((s.drop k).take (top.size.toNat - 1)) := by
  have hn := ht.size_pos
  obtain ⟨n, hn⟩ : ∃ n, top.size.toNat = n + 1 := ⟨_, hn⟩
  simp only [hn, ← Nat.add_assoc, Nat.add_sub_cancel] at hlen hno ⊢
  have hwindow : last n (s.take (k + n)) = (s.drop k).take n := by
    rw [last_eq_drop (k := k) (by rw [List.length_take]; omega), List.drop_take,
      Nat.add_sub_cancel_left]
  have hshort : ((s.drop k).take n).length = n := by
    rw [List.length_take, List.length_drop]
    omega
  refine ⟨s[k + n], List.take_add_one.trans ?_, List.take_add_one.trans ?_, ?_⟩
  · rw [List.getElem?_eq_getElem (by omega)]
    rfl
  · rw [List.getElem?_drop, List.getElem?_eq_getElem (by omega)]
    rfl
  · rw [(searching ht (hn ▸ hno)).2,
      (searching ht (not_occursAt_of_length_lt ht (by rw [hshort]; omega))).2, hn,
      Nat.add_sub_cancel, hwindow, last_of_le (Nat.le_of_eq hshort)]

end Sync

/-- **Header synchronisation locks on the first occurrence of the header.** Let `k` be the least
offset at which `matchesHeader` accepts the rest of the stream. The first `k + n - 1` calls return
`nullopt` and add no field; the next one delivers the `n` bytes from `k` on as the header field, and
the answer and the object are those of a new dissector that got these bytes alone. Without such an
offset every call returns `nullopt`, and the buffer never holds more than `n - 1` bytes between two
calls. -/
theorem header_sync {t : PacketDescriptor} {top : FieldDescriptor} (ht : StartsWithHeader t top)
    {d : GenericDissector} (hd : AtBoundary t d) (s : Bytes) :
    (∀ k, d.matchesHeader (s.drop k) = .ok true →
      (∀ j < k, d.matchesHeader (s.drop j) ≠ .ok true) →
      outputs addByte d (s.take (k + top.size.toNat - 1)) =
          List.replicate (k + top.size.toNat - 1) (.ok none) ∧
        (∀ j, 0 < j → j ≤ k + top.size.toNat - 1 →
          (after addByte d (s.take j)).currentPacket.fields = []) ∧
        (outputs addByte d (s.take (k + top.size.toNat))).getLast? =
          (outputs addByte (make t) ((s.drop k).take top.size.toNat)).getLast? ∧
        after addByte d (s.take (k + top.size.toNat)) =
          after addByte (make t) ((s.drop k).take top.size.toNat) ∧
        [⟨top.name, (s.drop k).take top.size.toNat⟩] <+:
          (after addByte d (s.take (k + top.size.toNat))).currentPacket.fields ∧
        ((after addByte d (s.take (k + top.size.toNat))).currentPacketStack.map (·.name)).Sublist
          (t.fields.tail.map (·.name))) ∧
    ((∀ k, d.matchesHeader (s.drop k) ≠ .ok true) →
      outputs addByte d s = List.replicate s.length (.ok none) ∧
        ∀ j, (after addByte d (s.take j)).currentMessageBuffer.length ≤ top.size.toNat - 1) := by
  have hn := ht.size_pos
  simp only [ne_eq, matchesHeader_drop ht hd.packetTemplate]
  constructor
  · rintro k ⟨hv, ho⟩ hleast
    have hle := ho.length_le (ht.value_ne_nil hv)
    rw [hv] at hle
    have hno := fun j hj => not_occursAt_take ht (j := j) hleast hj
    refine ⟨?_, fun j hj0 hj => ?_, ?_⟩
    · rw [hd.outputs_eq, (searching ht (hno _ (Nat.le_refl _))).1, List.length_take,
        Nat.min_eq_left (by omega)]
    · have hne : s.take j ≠ [] := by
        rw [Ne, List.take_eq_nil_iff, ← List.length_eq_zero_iff]; omega
      rw [(hd.run hne).2, (searching ht (hno j hj)).2]
      rfl
    · obtain ⟨b, e1, e2, hafter⟩ := synchronised ht hle (hno _ (Nat.le_refl _))
      have hne : s.take (k + top.size.toNat) ≠ [] := by rw [e1]; simp
      have hw : (s.drop k).take top.size.toNat = top.value := by
        rw [← hv]
        exact (List.prefix_iff_eq_take.mp ho).symm
      have hlen : ((s.drop k).take (top.size.toNat - 1)).length = top.size.toNat - 1 := by
        rw [List.length_take, List.length_drop]
        omega
      have hbefore : after addByte (make t) ((s.drop k).take (top.size.toNat - 1)) =
          syncState t ((s.drop k).take (top.size.toNat - 1)) := by
        rw [(searching ht (not_occursAt_of_length_lt ht (by rw [hlen]; omega))).2,
          last_of_le (Nat.le_of_eq hlen)]
      have hlocks := addByte_locks ht (by rw [← e2, hw, hv]) (hw.symm.trans e2)
      rw [hd.outputs_eq, (hd.run hne).2, e1, e2, outputs_append, outputs_append, after_append,
        after_append, hafter]
      refine ⟨by simp, rfl, ?_⟩
      rw [after_cons, after_nil, hbefore]
      exact hlocks
  · intro hno
    refine ⟨by rw [hd.outputs_eq, (searching ht hno).1], fun j => ?_⟩
    by_cases hne : s.take j = []
    · rw [hne]
      rcases hd with rfl | ⟨-, d₀, b₀, packet, h⟩
      · exact Nat.zero_le _
      · rw [after_nil, (addByte_some h).2.1]
        exact Nat.zero_le _
    · have hj := searching (s := s.take j) ht fun i ⟨hv, hi⟩ => hno i ⟨hv, hi.of_take⟩
      rw [(hd.run hne).2, hj.2]
      simp only [syncState, length_last]
      omega

/-- The header `AAB`. -/
def aabTemplate : PacketDescriptor where
  fields := [{ name := lit "HEADER", size := 3, value := lit "AAB", isHeaderValue := true },
    { name := lit "DATA", size := 1 }]

theorem header_sync_aab :
    outputs addByte (make aabTemplate) (lit "AAA") = List.replicate 3 (.ok none) ∧
      after addByte (make aabTemplate) (lit "AAAB") =
        after addByte (make aabTemplate) (lit "AAB") ∧
      [⟨lit "HEADER", lit "AAB"⟩] <+:
        (after addByte (make aabTemplate) (lit "AAAB")).currentPacket.fields ∧
      ((after addByte (make aabTemplate) (lit "AAAB")).currentPacketStack.map (·.name)).Sublist
        [lit "DATA"] := by
  have ht : StartsWithHeader aabTemplate
      { name := lit "HEADER", size := 3, value := lit "AAB", isHeaderValue := true } :=
    ⟨⟨_, rfl⟩, rfl, by decide, rfl⟩
  have hlock := (header_sync ht (.inl rfl) (lit "AAAB")).1 1 (by decide) (by decide)
  obtain ⟨h1, -, -, h2, h3, h4⟩ := hlock
  exact ⟨h1, h2, h3, h4⟩

end Protos

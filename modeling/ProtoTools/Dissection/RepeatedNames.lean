import ProtoTools.Dissection.SizeArithmetic

/-!
# Templates with repeated names

A completed field is looked up by its name in the packet in progress, where the first field with the
name is found.

* `UsesOwnBytes`: the rules of a completed field use the bytes of this field. `FirstAgrees`: an
  earlier field with its name, if there is one, gives the same results.
* `usesOwnBytes_iff`: the two are the same.
* `own_bytes_iff`: the same, along every run.
-/

namespace Protos

open Machine GenericDissector

/-- The rules of the completed field size and drop the fields after it by its own bytes. -/
structure UsesOwnBytes (r : GenericDissector) (top : FieldDescriptor)
    (rest : List FieldDescriptor) : Prop where
  size : top.determinesSizeOf ≠ [] → top.determinesSizeOf ∈ rest.map (·.name) →
    (r.takeField top rest).applySizeRule top =
      .ok (withStack (r.takeField top rest)
        (sizedBy top (fieldNumber r.currentMessageBuffer) rest))
  existence : top.sizeDeterminesExistenceOf ≠ [] →
    top.sizeDeterminesExistenceOf ∈ rest.map (·.name) →
    ∀ sized, (r.takeField top rest).applySizeRule top = .ok sized →
      sized.applyExistenceRule top = .ok (withStack sized
        (droppedBy top (fieldNumber r.currentMessageBuffer) sized.currentPacketStack))

/-- The first field of the packet in progress with the name of the completed field, if there is
one, has its length and gives the same size and the same decision. -/
structure FirstAgrees (r : GenericDissector) (top : FieldDescriptor)
    (rest : List FieldDescriptor) (first : FieldData) : Prop where
  size : top.determinesSizeOf ≠ [] → top.determinesSizeOf ∈ rest.map (·.name) →
    first.value.length = r.currentMessageBuffer.length ∧
      (fieldNumber first.value).toUInt16 = (fieldNumber r.currentMessageBuffer).toUInt16
  existence : top.sizeDeterminesExistenceOf ≠ [] →
    top.sizeDeterminesExistenceOf ∈ rest.map (·.name) →
    (top.determinesSizeOf ≠ [] → top.determinesSizeOf ∈ rest.map (·.name)) →
    first.value.length = r.currentMessageBuffer.length ∧
      (fieldNumber first.value = 0 ↔ fieldNumber r.currentMessageBuffer = 0)

section Rules

variable {r : GenericDissector} {top : FieldDescriptor} {rest : List FieldDescriptor}

theorem update_size_injective {name : Str} {a b : UInt16} {fs : List FieldDescriptor}
    (hin : name ∈ fs.map (·.name))
    (h : PacketDescriptor.update name ({ · with size := a }) fs =
      PacketDescriptor.update name ({ · with size := b }) fs) : a = b := by
  induction fs with
  | nil => exact absurd hin List.not_mem_nil
  | cons f fs ih =>
    rw [PacketDescriptor.update, PacketDescriptor.update] at h
    split at h
    · exact congrArg (·.size) (List.cons.inj h).1
    · rename_i hf
      refine ih ?_ (List.cons.inj h).2
      rcases List.mem_cons.mp hin with he | he
      · exact absurd (beq_iff_eq.mpr he.symm) hf
      · exact he

/-- Two numbers give the same size exactly when their low 16 bits agree. -/
theorem offsetSize_inj {a b : UInt32} (sizeOffset : Int16) :
    offsetSize a sizeOffset = offsetSize b sizeOffset ↔ a.toUInt16 = b.toUInt16 := by
  simp only [offsetSize, UInt32.toUInt16_add]
  exact UInt16.add_left_inj _

theorem sizedBy_inj {a b : UInt32} (hne : top.determinesSizeOf ≠ [])
    (hin : top.determinesSizeOf ∈ rest.map (·.name)) :
    sizedBy top a rest = sizedBy top b rest ↔ a.toUInt16 = b.toUInt16 := by
  rw [← offsetSize_inj top.sizeOffset, sizedBy, sizedBy, if_neg hne, if_neg hne]
  exact ⟨update_size_injective hin, fun h => by rw [h]⟩

theorem droppedBy_inj {a b : UInt32} {fs : List FieldDescriptor}
    (hne : top.sizeDeterminesExistenceOf ≠ [])
    (hin : top.sizeDeterminesExistenceOf ∈ fs.map (·.name)) :
    droppedBy top a fs = droppedBy top b fs ↔ (a = 0 ↔ b = 0) := by
  have hshort : fs.eraseP (·.name == top.sizeDeterminesExistenceOf) ≠ fs := by
    obtain ⟨g, hg, hname⟩ := List.mem_map.mp hin
    intro he
    have := List.length_eraseP_of_mem (p := (·.name == top.sizeDeterminesExistenceOf)) hg
      (beq_iff_eq.mpr hname)
    have hpos := List.length_pos_of_mem hg
    rw [he] at this
    omega
  unfold droppedBy
  by_cases ha : a = 0 <;> by_cases hb : b = 0 <;> simp [hne, ha, hb, hshort, hshort.symm]

/-- The field that is found by the name of the completed field. -/
def foundField (r : GenericDissector) (top : FieldDescriptor) : FieldData :=
  (r.currentPacket.fields.find? (·.name == top.name)).getD ⟨top.name, r.currentMessageBuffer⟩

theorem get_takeField (r : GenericDissector) (top : FieldDescriptor)
    (rest : List FieldDescriptor) :
    (r.takeField top rest).currentPacket.get top.name = .ok (foundField r top) := by
  unfold PacketData.get foundField takeField
  cases hf : r.currentPacket.fields.find? (·.name == top.name) <;> simp [List.find?_append, hf]

/-- The size rule uses the number `own` exactly when the found field gives the same size. -/
theorem applySizeRule_own (hreadable : Readable top.size) (own : UInt32)
    (hne : top.determinesSizeOf ≠ []) (hin : top.determinesSizeOf ∈ rest.map (·.name)) :
    (r.takeField top rest).applySizeRule top =
        .ok (withStack (r.takeField top rest) (sizedBy top own rest)) ↔
      (foundField r top).value.length = top.size.toNat ∧
        (fieldNumber (foundField r top).value).toUInt16 = own.toUInt16 := by
  have hget := get_takeField r top rest
  by_cases hl : (foundField r top).value.length = top.size.toNat
  · have hnum := getSizeFromFieldValue_of_get hget hreadable hl
    rw [applySizeRule_read hnum fun _ => hin, ← sizedBy_inj hne hin]
    simp only [hl, true_and, Except.ok.injEq, withStack, GenericDissector.mk.injEq, and_true]
    rfl
  · obtain ⟨e, he⟩ := getSizeFromFieldValue_of_get_ne hget hreadable hl
    have hfails := applySizeRule_fails_iff.mpr ⟨hne, .inr (fails_iff.mpr ⟨e, he⟩)⟩
    exact ⟨fun h => absurd h (hfails _), fun h => absurd h.1 hl⟩

/-- The existence rule uses the number `own` exactly when the found field gives the same
decision. -/
theorem applyExistenceRule_own {sized : GenericDissector} {found : FieldData}
    (hget : sized.currentPacket.get top.name = .ok found) (hreadable : Readable top.size)
    (own : UInt32) (hne : top.sizeDeterminesExistenceOf ≠ [])
    (hin : top.sizeDeterminesExistenceOf ∈ sized.currentPacketStack.map (·.name)) :
    sized.applyExistenceRule top =
        .ok (withStack sized (droppedBy top own sized.currentPacketStack)) ↔
      found.value.length = top.size.toNat ∧ (fieldNumber found.value = 0 ↔ own = 0) := by
  by_cases hl : found.value.length = top.size.toNat
  · have hnum := getSizeFromFieldValue_of_get hget hreadable hl
    rw [applyExistenceRule_read hnum fun _ _ => hin, ← droppedBy_inj hne hin]
    simp [hl, withStack]
  · obtain ⟨e, he⟩ := getSizeFromFieldValue_of_get_ne hget hreadable hl
    have hfails := applyExistenceRule_fails_iff.mpr ⟨hne, .inl (fails_iff.mpr ⟨e, he⟩)⟩
    exact ⟨fun h => absurd h (hfails _), fun h => absurd h.1 hl⟩

/-- The same after the size rule, which changes no name and no delivered field. -/
theorem applyExistenceRule_found {sized : GenericDissector}
    (hs : (r.takeField top rest).applySizeRule top = .ok sized) (hreadable : Readable top.size)
    (own : UInt32) (hne : top.sizeDeterminesExistenceOf ≠ [])
    (hin : top.sizeDeterminesExistenceOf ∈ rest.map (·.name)) :
    sized.applyExistenceRule top =
        .ok (withStack sized (droppedBy top own sized.currentPacketStack)) ↔
      (foundField r top).value.length = top.size.toNat ∧
        (fieldNumber (foundField r top).value = 0 ↔ own = 0) := by
  obtain ⟨fs, hfs, hnames⟩ := applySizeRule_frame hs
  have hget : sized.currentPacket.get top.name = .ok (foundField r top) := by
    rw [hfs]
    exact get_takeField r top rest
  have hin' : top.sizeDeterminesExistenceOf ∈ sized.currentPacketStack.map (·.name) := by
    rw [hfs, hnames]
    exact hin
  exact applyExistenceRule_own hget hreadable own hne hin'

/-- The rules use the bytes of the completed field exactly when the found field agrees with it. -/
theorem usesOwnBytes_iff_found (hl : r.currentMessageBuffer.length = top.size.toNat)
    (hreadable : Readable top.size) :
    UsesOwnBytes r top rest ↔ FirstAgrees r top rest (foundField r top) := by
  constructor
  · intro h
    refine ⟨fun hne hin => ?_, fun hne hin htarget => ?_⟩
    · rw [hl]
      exact (applySizeRule_own hreadable _ hne hin).mp (h.size hne hin)
    · obtain ⟨sized, hs⟩ : ∃ sized, (r.takeField top rest).applySizeRule top = .ok sized := by
        by_cases he : top.determinesSizeOf = []
        · exact ⟨_, by rw [applySizeRule, if_pos (by simp [he])]⟩
        · exact ⟨_, h.size he (htarget he)⟩
      rw [hl]
      exact (applyExistenceRule_found hs hreadable _ hne hin).mp (h.existence hne hin sized hs)
  · intro h
    refine ⟨fun hne hin => ?_, fun hne hin sized hs => ?_⟩
    · exact (applySizeRule_own hreadable _ hne hin).mpr (hl ▸ h.size hne hin)
    · apply (applyExistenceRule_found hs hreadable _ hne hin).mpr
      refine hl ▸ h.existence hne hin fun he => ?_
      -- the size rule did not throw, so its target is on the stack
      by_contra hno
      exact applySizeRule_fails_iff.mpr ⟨he, .inl hno⟩ _ hs

/-- **A completed field** uses its own bytes exactly when an earlier field of its name agrees. -/
theorem usesOwnBytes_iff (hl : r.currentMessageBuffer.length = top.size.toNat)
    (hreadable : Readable top.size) :
    UsesOwnBytes r top rest ↔
      ∀ first ∈ r.currentPacket.fields.find? (·.name == top.name),
        FirstAgrees r top rest first := by
  rw [usesOwnBytes_iff_found hl hreadable, foundField]
  cases r.currentPacket.fields.find? (·.name == top.name) with
  | none =>
    refine ⟨fun _ first h => absurd h (by simp), fun _ => ?_⟩
    exact ⟨fun _ _ => ⟨rfl, rfl⟩, fun _ _ _ => ⟨rfl, .rfl⟩⟩
  | some e => simp

end Rules

/-! ## Runs -/

/-- A field that the call completes is used by its own bytes. -/
def OwnBytes (d : GenericDissector) (b : UInt8) : Prop :=
  ∀ r top rest, Reached d b r top rest → Readable top.size → UsesOwnBytes r top rest

/-- The first field with the name of a field that the call completes agrees with it. -/
def EarlierAgrees (d : GenericDissector) (b : UInt8) : Prop :=
  ∀ r top rest, Reached d b r top rest → Readable top.size →
    ∀ first ∈ r.currentPacket.fields.find? (·.name == top.name), FirstAgrees r top rest first

theorem ownBytes_iff {d : GenericDissector} {b : UInt8} : OwnBytes d b ↔ EarlierAgrees d b :=
  forall_congr' fun _ => forall_congr' fun _ => forall_congr' fun _ => forall_congr' fun hr =>
    forall_congr' fun hreadable => usesOwnBytes_iff hr.full hreadable

/-- **When fields are sized by the field just completed.** In every run, the rules of each completed
field use the bytes of this field exactly when each earlier field of the packet that has its name,
and is found first, has its length and gives the same size and decision. -/
theorem own_bytes_iff (t : PacketDescriptor) (s : Bytes) :
    Along addByte OwnBytes (make t) s ↔ Along addByte EarlierAgrees (make t) s :=
  ⟨fun h => h.mono fun _ _ hg => ownBytes_iff.mp hg,
    fun h => h.mono fun _ _ hg => ownBytes_iff.mpr hg⟩

/-- Two pieces of data, each after a length with the same name. -/
def repeatedLengthTemplate : PacketDescriptor where
  fields := [{ name := lit "L", size := 1, determinesSizeOf := lit "D1" }, { name := lit "D1" },
    { name := lit "L", size := 1, determinesSizeOf := lit "D2" }, { name := lit "D2" }]

/-- The second length is 2, and the second data gets the size 1 of the first. -/
theorem first_length_used : ¬ ∀ t : PacketDescriptor,
    (∀ f ∈ t.fields, f.externalSizeCalculation = none) → ∀ s,
      Along addByte OwnBytes (make t) s := by
  intro h
  have hcb : ∀ f ∈ repeatedLengthTemplate.fields, f.externalSizeCalculation = none := by
    simp [repeatedLengthTemplate]
  have hown := (h repeatedLengthTemplate hcb [1, 7, 2]).2.2.1
    (((make repeatedLengthTemplate).addByte 1).2.addByte 7 |>.2.pushByte 2) _ _
    ⟨rfl, rfl, rfl, fun h => by cases h⟩ (.inl rfl)
  have hsizes := congrArg (Except.map fun d => d.currentPacketStack.map (·.size))
    (hown.size (by decide) (by decide))
  cases hsizes

end Protos

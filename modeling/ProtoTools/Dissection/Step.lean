import ProtoTools.Lib.Machine
import ProtoTools.Dissection.GenericDissector

/-!
# What one call of `addByte` does

Every proof about the dissector goes through the lemmas of this file; none unfolds `addByte` again.

* `arrive`: the object at the size callback, with the new byte in the buffer. `addByte_eq` is
  `addByte` from there, `tryComplete_cons` the completion test.
* `addByte_waits`, `addByte_drops`, `addByte_completes`: the three things a byte does when the top
  has no callback and is not full: it waits, it falls out of the window of a header, or it
  completes the field.
* `addByte_some`, `addByte_none`: what a call leaves on the stack. At a packet boundary a call
  starts from the constructor's state (`addByte_of_empty`).
* `completed_error`, `addByte_undefined`: what a failed call ends with.
* `applySizeRule_frame`, `applyExistenceRule_frame`: the rules change the stack only.
  `packetTemplate_addByte`: the template never changes.
* `getSizeFromFieldValue_readable`, `toNat_offsetSize`, …: the parts of the rules of a field just
  completed.
-/

namespace Protos

open Machine

/-- The number that a value gives as a size: `uint32_t`, so only the low four bytes count. -/
def fieldNumber (v : Bytes) : UInt32 := UInt32.ofNat (LittleEndian.toNat v)

/-- The widths that `getSizeFromFieldValue` reads. -/
def Readable (size : UInt16) : Prop := size = 1 ∨ size = 2 ∨ size = 4 ∨ size = 8

instance (size : UInt16) : Decidable (Readable size) := by unfold Readable; infer_instance

namespace GenericDissector

/-- The object at the size callback, with the new byte in the buffer. -/
def arrive (d : GenericDissector) (b : UInt8) : GenericDissector :=
  (d.startPacket.pushByte b).skipEmptyTop

/-- The completion test and the test for a complete packet. -/
def tryComplete (d : GenericDissector) : Called (Option PacketData) :=
  match d.checkField with
  | (.error e, d) => (.error e, d)
  | (.ok false, d) => (.ok none, d)
  | (.ok true, d) => d.finish

/-- The top leaves the stack complete: its rules, the empty fields after it, and the test for a
complete packet. -/
def completed (d : GenericDissector) (top : FieldDescriptor) (rest : List FieldDescriptor) :
    Called (Option PacketData) :=
  match d.completeField top rest with
  | (.error e, d) => (.error e, d)
  | (.ok _, d) => d.finish

theorem completed_eq (d : GenericDissector) (top : FieldDescriptor)
    (rest : List FieldDescriptor) :
    d.completed top rest = match (d.takeField top rest).applySizeRule top with
      | .error e => (.error e, d.takeField top rest)
      | .ok r => match r.applyExistenceRule top with
        | .error e => (.error e, r)
        | .ok r => r.skipEmptyFields.finish := by
  simp only [completed, completeField]
  cases (d.takeField top rest).applySizeRule top with
  | error e => rfl
  | ok r =>
    simp only
    cases r.applyExistenceRule top <;> rfl

theorem addByte_eq (d : GenericDissector) (b : UInt8) :
    d.addByte b = match (d.arrive b).calculateSize with
      | .error e => (.error e, d.arrive b)
      | .ok none => (.ok none, d.arrive b)
      | .ok (some r) => r.tryComplete := rfl

/-- The completion test at a nonempty stack. -/
theorem tryComplete_cons {d : GenericDissector} {top : FieldDescriptor}
    {rest : List FieldDescriptor} (hs : d.currentPacketStack = top :: rest) :
    d.tryComplete =
      if d.currentMessageBuffer.length = top.size.toNat then
        if top.isHeaderValue ∧ top.value ≠ d.currentMessageBuffer then
          if d.currentMessageBuffer = [] then (.error (.undefined .eraseOutside), d)
          else (.ok none, { d with currentMessageBuffer := d.currentMessageBuffer.tail })
        else d.completed top rest
      else (.ok none, d) := by
  unfold tryComplete checkField
  simp only [hs]
  by_cases hl : d.currentMessageBuffer.length = top.size.toNat
  · rw [if_pos hl, if_pos hl]
    by_cases hh : top.isHeaderValue ∧ top.value ≠ d.currentMessageBuffer
    · rw [if_pos hh, if_pos (by simpa using hh)]
      cases hb : d.currentMessageBuffer with
      | nil => simp
      | cons x xs => simp
    · rw [if_neg hh, if_neg (by simpa using hh)]
      unfold completed
      rcases d.completeField top rest with ⟨_ | _, _⟩ <;> rfl
  · rw [if_neg hl, if_neg hl]
    simp [finish, stackIsEmpty, hs]

/-! ## The top has no callback and is not full -/

section Plain

variable {d : GenericDissector} {top : FieldDescriptor} {rest : List FieldDescriptor}

theorem startPacket_of_cons (hs : d.currentPacketStack = top :: rest) : d.startPacket = d := by
  simp [startPacket, stackIsEmpty, hs]

/-- A byte for a field that takes one reaches the callback with nothing else done. -/
theorem arrive_of_cons (hs : d.currentPacketStack = top :: rest)
    (hz : top.isCertainlyZeroSized = false) (b : UInt8) : d.arrive b = d.pushByte b := by
  unfold arrive skipEmptyTop
  rw [startPacket_of_cons hs]
  simp [pushByte, hs, hz]

theorem calculateSize_of_none (hs : d.currentPacketStack = top :: rest)
    (hc : top.externalSizeCalculation = none) : d.calculateSize = .ok (some d) := by
  simp [calculateSize, hs, hc]

theorem size_ne_zero_of_lt {n : Nat} {size : UInt16} (h : n < size.toNat) : size ≠ 0 := by
  rintro rfl
  exact absurd h (Nat.not_lt_zero _)

/-- A byte for a field that is not full reaches the completion test. -/
theorem addByte_of_room (hs : d.currentPacketStack = top :: rest)
    (hc : top.externalSizeCalculation = none)
    (hl : d.currentMessageBuffer.length < top.size.toNat) (b : UInt8) :
    d.addByte b = (d.pushByte b).tryComplete := by
  have hs' : (d.pushByte b).currentPacketStack = top :: rest := hs
  have hz : top.isCertainlyZeroSized = false := by
    simp [FieldDescriptor.isCertainlyZeroSized, size_ne_zero_of_lt hl]
  rw [addByte_eq, arrive_of_cons hs hz, calculateSize_of_none hs' hc]

/-- The byte is not the last one of the field. -/
theorem addByte_waits (hs : d.currentPacketStack = top :: rest)
    (hc : top.externalSizeCalculation = none) {b : UInt8}
    (hl : d.currentMessageBuffer.length + 1 < top.size.toNat) :
    d.addByte b = (.ok none, d.pushByte b) := by
  have hs' : (d.pushByte b).currentPacketStack = top :: rest := hs
  rw [addByte_of_room hs hc (by omega), tryComplete_cons hs']
  rw [if_neg (by simp [pushByte]; omega)]

/-- The byte fills the window of a header that does not match: the oldest byte is dropped. -/
theorem addByte_drops (hs : d.currentPacketStack = top :: rest)
    (hc : top.externalSizeCalculation = none) {b : UInt8}
    (hl : d.currentMessageBuffer.length + 1 = top.size.toNat) (hh : top.isHeaderValue = true)
    (hv : top.value ≠ d.currentMessageBuffer ++ [b]) :
    d.addByte b =
      (.ok none, { d with currentMessageBuffer := (d.currentMessageBuffer ++ [b]).tail }) := by
  have hs' : (d.pushByte b).currentPacketStack = top :: rest := hs
  rw [addByte_of_room hs hc (by omega), tryComplete_cons hs',
    if_pos (by simpa [pushByte] using hl), if_pos ⟨hh, hv⟩, if_neg (by simp [pushByte])]
  rfl

/-- The byte completes the field. -/
theorem addByte_completes (hs : d.currentPacketStack = top :: rest)
    (hc : top.externalSizeCalculation = none) {b : UInt8}
    (hl : d.currentMessageBuffer.length + 1 = top.size.toNat)
    (hv : top.isHeaderValue = true → top.value = d.currentMessageBuffer ++ [b]) :
    d.addByte b = (d.pushByte b).completed top rest := by
  have hs' : (d.pushByte b).currentPacketStack = top :: rest := hs
  rw [addByte_of_room hs hc (by omega), tryComplete_cons hs',
    if_pos (by simpa [pushByte] using hl), if_neg (fun h => h.2 (hv h.1))]

end Plain

/-! ## Packet boundaries -/

/-- The object between two packets: freshly constructed, or just after it delivered a packet. -/
def AtBoundary (t : PacketDescriptor) (d : GenericDissector) : Prop :=
  d = make t ∨
    d.packetTemplate = t ∧ ∃ d₀ b packet, addByte d₀ b = (.ok (some packet), d)

theorem finish_some {d d' : GenericDissector} {packet : PacketData}
    (h : d.finish = (.ok (some packet), d')) :
    d.currentPacketStack = [] ∧ packet = d.currentPacket ∧
      d' = { d with currentMessageBuffer := [] } := by
  unfold finish at h
  split at h
  · rename_i he
    simp only [Prod.mk.injEq, Except.ok.injEq, Option.some.injEq] at h
    exact ⟨by simpa [stackIsEmpty] using he, h.1.symm, h.2.symm⟩
  · simp at h

theorem tryComplete_some {d d' : GenericDissector} {packet : PacketData}
    (h : d.tryComplete = (.ok (some packet), d')) :
    d'.currentPacketStack = [] ∧ d'.currentMessageBuffer = [] ∧ d'.currentPacket = packet := by
  unfold tryComplete at h
  split at h
  · simp at h
  · simp at h
  · obtain ⟨h1, rfl, rfl⟩ := finish_some h
    exact ⟨h1, rfl, rfl⟩

/-- A call that delivers a packet leaves no field, no byte, and the packet it returned. -/
theorem addByte_some {d d' : GenericDissector} {b : UInt8} {packet : PacketData}
    (h : d.addByte b = (.ok (some packet), d')) :
    d'.currentPacketStack = [] ∧ d'.currentMessageBuffer = [] ∧ d'.currentPacket = packet := by
  rw [addByte_eq] at h
  split at h
  · simp at h
  · simp at h
  · exact tryComplete_some h

/-- A call that returns `nullopt` leaves a field on the stack. -/
theorem tryComplete_none {d d' : GenericDissector} (h : d.tryComplete = (.ok none, d')) :
    d'.currentPacketStack ≠ [] := by
  have hfin : ∀ d : GenericDissector, d.finish = (.ok none, d') → d'.currentPacketStack ≠ [] := by
    intro d hd he
    unfold finish at hd
    split at hd
    · simp at hd
    · rename_i hs
      simp only [Prod.mk.injEq, true_and] at hd
      exact hs (by rw [hd, stackIsEmpty, he]; rfl)
  cases hs : d.currentPacketStack with
  | nil =>
    unfold tryComplete checkField at h
    simp only [hs] at h
    exact hfin d h
  | cons top rest =>
    rw [tryComplete_cons hs] at h
    split at h
    · split at h
      · split at h
        · simp at h
        · simp only [Prod.mk.injEq, true_and] at h
          rw [← h]
          simp [hs]
      · unfold completed at h
        split at h
        · simp at h
        · exact hfin _ h
    · simp only [Prod.mk.injEq, true_and] at h
      rw [← h, hs]
      simp

theorem calculateSize_stack {d : GenericDissector} {o : Option GenericDissector}
    (h : d.calculateSize = .ok o) : d.currentPacketStack ≠ [] := by
  intro he
  simp [calculateSize, he] at h

/-- The callback changes the size of the top and the start of the buffer. -/
theorem calculateSize_frame {d r : GenericDissector} (h : d.calculateSize = .ok (some r)) :
    r.currentPacketStack ≠ [] ∧ r.currentPacket = d.currentPacket ∧
      r.packetTemplate = d.packetTemplate := by
  unfold calculateSize at h
  split at h
  · simp at h
  · rename_i hs
    split at h
    · cases h
      exact ⟨by simp [hs], rfl, rfl⟩
    · split at h
      · simp at h
      · simp only at h
        split at h
        · simp at h
        · split at h
          · simp at h
          · cases h
            exact ⟨by simp, rfl, rfl⟩

theorem calculateSize_error {d : GenericDissector} {e : Fault} (h : d.calculateSize = .error e) :
    e = .undefined .frontOfEmpty ∨ e = .undefined .eraseOutside := by
  unfold calculateSize at h
  split at h
  · cases h
    exact .inl rfl
  · split at h
    · simp at h
    · split at h
      · simp at h
      · simp only at h
        split at h
        · simp at h
        · split at h
          · cases h
            exact .inr rfl
          · simp at h

theorem addByte_none {d d' : GenericDissector} {b : UInt8} (h : d.addByte b = (.ok none, d')) :
    d'.currentPacketStack ≠ [] := by
  rw [addByte_eq] at h
  split at h
  · simp at h
  · rename_i hc
    simp only [Prod.mk.injEq, true_and] at h
    rw [← h]
    exact calculateSize_stack hc
  · exact tryComplete_none h

theorem startPacket_of_empty {d : GenericDissector} (hs : d.currentPacketStack = [])
    (hb : d.currentMessageBuffer = []) : d.startPacket = make d.packetTemplate := by
  simp [startPacket, stackIsEmpty, hs, hb, newPacket, makePacketStack, make]

@[simp] theorem startPacket_make (t : PacketDescriptor) : (make t).startPacket = make t := by
  cases hf : t.fields with
  | nil =>
    refine startPacket_of_empty ?_ rfl
    simpa [make, newPacket, makePacketStack] using hf
  | cons f fs =>
    have hs : (make t).currentPacketStack = f :: fs := by
      simpa [make, newPacket, makePacketStack] using hf
    exact startPacket_of_cons hs

/-- At a packet boundary the next call is the first call of a new object. -/
theorem addByte_of_empty {d : GenericDissector} (hs : d.currentPacketStack = [])
    (hb : d.currentMessageBuffer = []) (b : UInt8) :
    d.addByte b = (make d.packetTemplate).addByte b := by
  have ha : d.arrive b = (make d.packetTemplate).arrive b := by
    unfold arrive
    rw [startPacket_of_empty hs hb, startPacket_make]
  rw [addByte_eq, addByte_eq, ha]

theorem AtBoundary.addByte {t : PacketDescriptor} {d : GenericDissector} (h : AtBoundary t d)
    (b : UInt8) : d.addByte b = (make t).addByte b := by
  rcases h with rfl | ⟨rfl, d₀, b₀, packet, h⟩
  · rfl
  · obtain ⟨h1, h2, -⟩ := addByte_some h
    exact addByte_of_empty h1 h2 b

theorem AtBoundary.packetTemplate {t : PacketDescriptor} {d : GenericDissector}
    (h : AtBoundary t d) : d.packetTemplate = t := by
  rcases h with rfl | ⟨h, -⟩
  · rfl
  · exact h

/-- The calls from a packet boundary are those of a new object. -/
theorem AtBoundary.run {t : PacketDescriptor} {d : GenericDissector} (h : AtBoundary t d)
    {s : Bytes} (hs : s ≠ []) :
    outputs GenericDissector.addByte d s = outputs GenericDissector.addByte (make t) s ∧
      after GenericDissector.addByte d s = after GenericDissector.addByte (make t) s := by
  cases s with
  | nil => exact absurd rfl hs
  | cons b s => simp [h.addByte b]

theorem AtBoundary.outputs_eq {t : PacketDescriptor} {d : GenericDissector} (h : AtBoundary t d)
    (s : Bytes) :
    outputs GenericDissector.addByte d s = outputs GenericDissector.addByte (make t) s := by
  cases s with
  | nil => rfl
  | cons b s => exact (h.run (List.cons_ne_nil b s)).1

/-! ## What a failed call ends with -/

section Faults

variable {d : GenericDissector} {field : FieldDescriptor} {e : Fault}

theorem getSizeFromFieldValue_error (h : d.getSizeFromFieldValue field = .error e) :
    ∃ what, e = .runtimeError what := by
  have hread : ∀ width, d.readSize field.name width = .error e →
      ∃ what, e = .runtimeError what := by
    intro width h
    unfold readSize at h
    split at h
    · rename_i hg
      unfold PacketData.get at hg
      split at hg
      · simp at hg
      · cases hg; cases h; exact ⟨_, rfl⟩
    · split at h
      · rename_i hn
        unfold toNumber at hn
        split at hn
        · cases hn; cases h; exact ⟨_, rfl⟩
        · simp at hn
      · simp at h
  unfold getSizeFromFieldValue at h
  split at h
  · exact hread _ h
  · exact hread _ h
  · exact hread _ h
  · exact hread _ h
  · cases h; exact ⟨_, rfl⟩

theorem applySizeRule_error (h : d.applySizeRule field = .error e) :
    ∃ what, e = .runtimeError what := by
  unfold applySizeRule at h
  split at h
  · simp at h
  · split at h
    · rename_i hg
      unfold getFieldInStack at hg
      split at hg
      · simp at hg
      · cases hg; cases h; exact ⟨_, rfl⟩
    · split at h
      · rename_i hg
        cases h
        exact getSizeFromFieldValue_error hg
      · simp at h

theorem applyExistenceRule_error (h : d.applyExistenceRule field = .error e) :
    ∃ what, e = .runtimeError what := by
  unfold applyExistenceRule at h
  split at h
  · simp at h
  · split at h
    · rename_i hg
      cases h
      exact getSizeFromFieldValue_error hg
    · split at h
      · unfold removeFieldFromStack at h
        split at h
        · simp at h
        · cases h; exact ⟨_, rfl⟩
      · simp at h

theorem finish_ok (d : GenericDissector) : ∃ r, d.finish.1 = .ok r := by
  unfold finish
  split <;> exact ⟨_, rfl⟩

/-- The rules of a completed field fail with an exception. -/
theorem completed_error {top : FieldDescriptor} {rest : List FieldDescriptor}
    (h : (d.completed top rest).1 = .error e) : ∃ what, e = .runtimeError what := by
  rw [completed_eq] at h
  split at h
  · rename_i hs
    cases h
    exact applySizeRule_error hs
  · split at h
    · rename_i he
      cases h
      exact applyExistenceRule_error he
    · obtain ⟨r, hr⟩ := finish_ok (skipEmptyFields ‹_›)
      rw [hr] at h
      cases h

/-- `addByte` has no other undefined step than these two. -/
theorem addByte_undefined {b : UInt8} {u : Undefined}
    (h : (d.addByte b).1 = .error (.undefined u)) : u = .frontOfEmpty ∨ u = .eraseOutside := by
  rw [addByte_eq] at h
  split at h
  · rename_i hc
    cases h
    rcases calculateSize_error hc with h | h <;> cases h
    · exact .inl rfl
    · exact .inr rfl
  · simp at h
  · rename_i r hc
    cases hs : r.currentPacketStack with
    | nil =>
      obtain ⟨o, ho⟩ := finish_ok r
      simp [tryComplete, checkField, hs, ho] at h
    | cons top rest =>
      rw [tryComplete_cons hs] at h
      split at h
      · split at h
        · split at h
          · cases h; exact .inr rfl
          · simp at h
        · obtain ⟨what, hw⟩ := completed_error h
          cases hw
      · simp at h

end Faults

/-! ## Empty fields -/

/-- The empty fields at the top are delivered, the others stay. -/
theorem skipEmpty_eq (fs : List FieldDescriptor) (packet : PacketData) :
    skipEmpty fs packet = (fs.dropWhile (·.isCertainlyZeroSized),
      { packet with fields := packet.fields ++
        (fs.takeWhile (·.isCertainlyZeroSized)).map fun f => ⟨f.name, []⟩ }) := by
  induction fs generalizing packet with
  | nil => simp [skipEmpty]
  | cons f fs ih =>
    rw [skipEmpty]
    split
    · rename_i hz
      rw [ih, List.dropWhile_cons_of_pos hz, List.takeWhile_cons_of_pos hz]
      simp [PacketData.add]
    · rename_i hz
      rw [List.dropWhile_cons_of_neg hz, List.takeWhile_cons_of_neg hz]
      simp

/-- The field after the skipped ones has a callback or a size. -/
theorem skipEmpty_head (fs : List FieldDescriptor) (packet : PacketData) :
    ∀ top ∈ (skipEmpty fs packet).1.head?, top.isCertainlyZeroSized = false := by
  rw [skipEmpty_eq]
  intro top htop
  have := List.head?_dropWhile_not (·.isCertainlyZeroSized) fs
  rw [Option.mem_def.mp htop] at this
  exact this

/-! ## What the rules leave alone -/

theorem map_name_update {name : Str} {change : FieldDescriptor → FieldDescriptor}
    (hc : ∀ f, (change f).name = f.name) (fs : List FieldDescriptor) :
    (PacketDescriptor.update name change fs).map (·.name) = fs.map (·.name) := by
  induction fs with
  | nil => rfl
  | cons f fs ih =>
    rw [PacketDescriptor.update]
    split
    · rw [List.map_cons, List.map_cons, hc]
    · rw [List.map_cons, List.map_cons, ih]

section Frame

variable {d r : GenericDissector} {field : FieldDescriptor}

/-- The size rule changes the stack only, and no name on it. -/
theorem applySizeRule_frame (h : d.applySizeRule field = .ok r) :
    ∃ fs, r = { d with currentPacketStack := fs } ∧
      fs.map (·.name) = d.currentPacketStack.map (·.name) := by
  unfold applySizeRule at h
  split at h
  · cases h
    exact ⟨_, rfl, rfl⟩
  · split at h
    · simp at h
    · split at h
      · simp at h
      · cases h
        refine ⟨_, rfl, map_name_update ?_ _⟩
        exact fun _ => rfl

/-- The existence rule changes the stack only. -/
theorem applyExistenceRule_frame (h : d.applyExistenceRule field = .ok r) :
    ∃ fs, r = { d with currentPacketStack := fs } := by
  unfold applyExistenceRule at h
  split at h
  · cases h
    exact ⟨_, rfl⟩
  · split at h
    · simp at h
    · split at h
      · unfold removeFieldFromStack at h
        split at h
        · cases h
          exact ⟨_, rfl⟩
        · simp at h
      · cases h
        exact ⟨_, rfl⟩

end Frame

/-! ## The template never changes -/

section Template

@[simp] theorem packetTemplate_arrive (d : GenericDissector) (b : UInt8) :
    (d.arrive b).packetTemplate = d.packetTemplate := by
  have hs : d.startPacket.packetTemplate = d.packetTemplate := by
    unfold startPacket
    split <;> rfl
  unfold arrive skipEmptyTop
  split
  · exact hs
  · split <;> exact hs

@[simp] theorem packetTemplate_finish (d : GenericDissector) :
    d.finish.2.packetTemplate = d.packetTemplate := by
  unfold finish
  split <;> rfl

theorem packetTemplate_tryComplete (d : GenericDissector) :
    d.tryComplete.2.packetTemplate = d.packetTemplate := by
  cases hs : d.currentPacketStack with
  | nil => simp [tryComplete, checkField, hs]
  | cons top rest =>
    rw [tryComplete_cons hs, completed_eq]
    split
    · split
      · split <;> rfl
      · split
        · rfl
        · rename_i r hr
          obtain ⟨fs, rfl, -⟩ := applySizeRule_frame hr
          split
          · rfl
          · rename_i r' hr'
            obtain ⟨fs', rfl⟩ := applyExistenceRule_frame hr'
            exact packetTemplate_finish _
    · rfl

@[simp] theorem packetTemplate_addByte (d : GenericDissector) (b : UInt8) :
    (d.addByte b).2.packetTemplate = d.packetTemplate := by
  rw [addByte_eq]
  split
  · exact packetTemplate_arrive d b
  · exact packetTemplate_arrive d b
  · rename_i hc
    rw [packetTemplate_tryComplete, (calculateSize_frame hc).2.2, packetTemplate_arrive]

theorem packetTemplate_after {d : GenericDissector} (s : Bytes) :
    (after addByte d s).packetTemplate = d.packetTemplate := by
  induction s generalizing d with
  | nil => rfl
  | cons b s ih => rw [after_cons, ih, packetTemplate_addByte]

end Template

/-! ## The rules of a completed field -/

/-- The number is read from the first field with the name. -/
theorem getSizeFromFieldValue_of_get {d : GenericDissector} {field : FieldDescriptor}
    {data : FieldData} (hg : d.currentPacket.get field.name = .ok data)
    (hr : Readable field.size) (hl : data.value.length = field.size.toNat) :
    d.getSizeFromFieldValue field = .ok (fieldNumber data.value) := by
  have hread : ∀ width, data.value.length = width →
      d.readSize field.name width = .ok (fieldNumber data.value) := by
    intro width hw
    rw [readSize, hg]
    simp only [toNumber_of_length hw]
    rfl
  unfold getSizeFromFieldValue
  rcases hr with h | h | h | h <;> rw [h] at hl ⊢ <;> exact hread _ hl

/-- A first field of another length makes the look-up fail. -/
theorem getSizeFromFieldValue_of_get_ne {d : GenericDissector} {field : FieldDescriptor}
    {data : FieldData} (hg : d.currentPacket.get field.name = .ok data)
    (hr : Readable field.size) (hl : data.value.length ≠ field.size.toNat) :
    ∃ e, d.getSizeFromFieldValue field = .error e := by
  have hread : ∀ width, data.value.length ≠ width →
      ∃ e, d.readSize field.name width = .error e := by
    intro width hw
    rw [readSize, hg]
    simp only [toNumber, if_pos hw]
    exact ⟨_, rfl⟩
  unfold getSizeFromFieldValue
  rcases hr with h | h | h | h <;> rw [h] at hl ⊢ <;> exact hread _ hl

/-- The field just added is found by its name, when the name is new in the packet. -/
theorem getSizeFromFieldValue_readable {d : GenericDissector} {field : FieldDescriptor}
    {p : PacketData} {v : Bytes} (hp : d.currentPacket = p.add ⟨field.name, v⟩)
    (hn : ∀ g ∈ p.fields, g.name ≠ field.name) (hl : v.length = field.size.toNat)
    (hr : Readable field.size) : d.getSizeFromFieldValue field = .ok (fieldNumber v) := by
  have hg : d.currentPacket.get field.name = .ok ⟨field.name, v⟩ := by
    rw [hp]
    exact PacketData.get_add (f := ⟨field.name, v⟩) hn
  exact getSizeFromFieldValue_of_get hg hr hl

theorem getSizeFromFieldValue_unreadable (d : GenericDissector) {field : FieldDescriptor}
    (hr : ¬ Readable field.size) :
    ∃ what, d.getSizeFromFieldValue field = .error (.runtimeError what) := by
  simp only [Readable, not_or] at hr
  unfold getSizeFromFieldValue
  split
  · exact absurd ‹_› hr.1
  · exact absurd ‹_› hr.2.1
  · exact absurd ‹_› hr.2.2.1
  · exact absurd ‹_› hr.2.2.2
  · exact ⟨_, rfl⟩

/-- The size for a referenced field: the sum modulo `2 ^ 16`. -/
theorem toNat_offsetSize (size : UInt32) (sizeOffset : Int16) :
    ((offsetSize size sizeOffset).toNat : Int) =
      ((size.toNat : Int) + sizeOffset.toInt) % 2 ^ 16 := by
  have ho : (sizeOffset.toInt32.toUInt32.toNat : Int) = sizeOffset.toInt % 2 ^ 32 := by
    have h : sizeOffset.toInt32.toInt = sizeOffset.toInt := by simp
    have hb : sizeOffset.toInt32.toInt =
        Int.bmod (sizeOffset.toInt32.toUInt32.toNat : Int) (2 ^ 32) :=
      BitVec.toInt_eq_toNat_bmod _
    have hlt := sizeOffset.toInt32.toUInt32.toNat_lt
    rw [← h, hb]
    rw [show ((2 : Int) ^ 32) = ((2 ^ 32 : Nat) : Int) by norm_num, Int.bmod_emod]
    exact (Int.emod_eq_of_lt (by omega) (by exact_mod_cast hlt)).symm
  simp only [offsetSize, UInt32.toNat_toUInt16, UInt32.toNat_add]
  push_cast
  rw [ho]
  omega

/-- With distinct names, the replaced field is the one with the name. -/
theorem update_eq_map {name : Str} (change : FieldDescriptor → FieldDescriptor)
    {fs : List FieldDescriptor} (hn : (fs.map (·.name)).Nodup) :
    PacketDescriptor.update name change fs =
      fs.map fun f => if f.name == name then change f else f := by
  induction fs with
  | nil => rfl
  | cons f fs ih =>
    rw [List.map_cons, List.nodup_cons] at hn
    rw [PacketDescriptor.update, List.map_cons]
    by_cases hf : f.name == name
    · have hrest : fs.map (fun f => if f.name == name then change f else f) = fs := by
        refine (List.map_congr_left fun g hg => if_neg fun e => hn.1 ?_).trans (List.map_id fs)
        rw [beq_iff_eq.mp hf, ← beq_iff_eq.mp e]
        exact List.mem_map_of_mem hg
      rw [if_pos hf, if_pos hf, hrest]
    · rw [if_neg hf, if_neg hf, ih hn.2]

/-- With distinct names, the removed field is the one with the name. -/
theorem eraseP_eq_filter {name : Str} {fs : List FieldDescriptor}
    (hn : (fs.map (·.name)).Nodup) :
    fs.eraseP (·.name == name) = fs.filter (·.name != name) := by
  induction fs with
  | nil => rfl
  | cons f fs ih =>
    rw [List.map_cons, List.nodup_cons] at hn
    by_cases hf : f.name == name
    · have hrest : fs.filter (·.name != name) = fs := by
        refine List.filter_eq_self.mpr fun g hg => bne_iff_ne.mpr fun e => hn.1 ?_
        rw [beq_iff_eq.mp hf, ← e]
        exact List.mem_map_of_mem hg
      rw [List.eraseP_cons, List.filter_cons_of_neg (by simpa using hf), hrest]
      simp [hf]
    · rw [List.eraseP_cons, List.filter_cons_of_pos (by simpa using hf), ih hn.2]
      simp [hf]

end GenericDissector

/-! ## Runs without failures -/

/-- No call on the stream throws or goes wrong. -/
def AllReturn (d : GenericDissector) (s : Bytes) : Prop :=
  ∀ o ∈ outputs GenericDissector.addByte d s, ∃ r, o = .ok r

theorem AllReturn.append {d : GenericDissector} {u v : Bytes} (h : AllReturn d (u ++ v)) :
    AllReturn d u ∧ AllReturn (after GenericDissector.addByte d u) v := by
  unfold AllReturn at h ⊢
  rw [outputs_append] at h
  exact ⟨fun o ho => h o (List.mem_append_left _ ho), fun o ho => h o (List.mem_append_right _ ho)⟩

end Protos

import Mathlib.Data.List.TakeWhile
import ProtoTools.Dissection.Moves

/-!
# The arithmetic of size fields

A completed field of 1, 2, 4 or 8 bytes is read as an unsigned number `v`. The code computes with
the low 32 bits of `v`, adds the offset modulo `2 ^ 32` and keeps the low 16 bits.

* `sizedBy`, `droppedBy`: what the rules of a field do to the fields after it, from the number that
  the code reads. `completed_ruled`: a completed field does this.
* `Expects name n d`: the field with the name has, or had, a size of `n`. `Expects.run`: it keeps
  it as long as no other field changes it, up to its delivery.
* `offsetSize_exact`, `fieldNumber_eq_zero`: when the arithmetic is exact.
* `sizes_exact_iff`: in a run, every completed size field sizes and drops as its number says exactly
  when all sums lie in `0..65535`, and no nonzero number has 32 low bits that are zero.
-/

namespace Protos

open Machine GenericDissector Relation

/-! ## The arithmetic -/

/-- The size that the code computes is the sum, when the sum is a size. -/
theorem offsetSize_exact {v : Bytes} {sizeOffset : Int16} :
    ((offsetSize (fieldNumber v) sizeOffset).toNat : Int) =
        (LittleEndian.toNat v : Int) + sizeOffset.toInt ↔
      0 ≤ (LittleEndian.toNat v : Int) + sizeOffset.toInt ∧
        (LittleEndian.toNat v : Int) + sizeOffset.toInt ≤ 65535 := by
  have hsize := toNat_offsetSize (fieldNumber v) sizeOffset
  have hlt := (offsetSize (fieldNumber v) sizeOffset).toNat_lt
  have hnum : (fieldNumber v).toNat = LittleEndian.toNat v % 2 ^ 32 := UInt32.toNat_ofNat'
  have hlow := sizeOffset.le_toInt
  have hhigh := sizeOffset.toInt_lt
  rw [hnum] at hsize
  push_cast at hsize
  constructor
  · intro h
    omega
  · rintro ⟨h0, h1⟩
    omega

/-- The code reads a zero when the low 32 bits are zero. -/
theorem fieldNumber_eq_zero {v : Bytes} :
    fieldNumber v = 0 ↔ LittleEndian.toNat v % 2 ^ 32 = 0 := by
  rw [← UInt32.toNat_inj, fieldNumber, UInt32.toNat_ofNat']
  rfl

/-! ## The rules of a field, from its number -/

/-- The fields after `field`, with the size that the number gives. -/
def sizedBy (field : FieldDescriptor) (number : UInt32) (rest : List FieldDescriptor) :
    List FieldDescriptor :=
  if field.determinesSizeOf = [] then rest
  else PacketDescriptor.update field.determinesSizeOf
    ({ · with size := offsetSize number field.sizeOffset }) rest

/-- The fields after `field`, without the one that a zero drops. -/
def droppedBy (field : FieldDescriptor) (number : UInt32) (fs : List FieldDescriptor) :
    List FieldDescriptor :=
  if field.sizeDeterminesExistenceOf ≠ [] ∧ number = 0 then
    fs.eraseP (·.name == field.sizeDeterminesExistenceOf)
  else fs

/-- The dissector with these fields still to come. -/
def withStack (d : GenericDissector) (fs : List FieldDescriptor) : GenericDissector :=
  { d with currentPacketStack := fs }

section Rules

variable {d r : GenericDissector} {b : UInt8} {top : FieldDescriptor} {rest : List FieldDescriptor}

theorem getFieldInStack_iff {name : Str} : (∃ g, d.getFieldInStack name = .ok g) ↔
    name ∈ d.currentPacketStack.map (·.name) := by
  unfold getFieldInStack
  cases hf : d.currentPacketStack.find? (·.name == name) with
  | none =>
    have hn : name ∉ d.currentPacketStack.map (·.name) := by
      simpa [List.find?_eq_none] using hf
    exact ⟨fun ⟨g, hg⟩ => by simp at hg, fun h => absurd h hn⟩
  | some g =>
    have hg := List.find?_some hf
    exact ⟨fun _ => List.mem_map.mpr ⟨g, List.mem_of_find?_eq_some hf, beq_iff_eq.mp hg⟩,
      fun _ => ⟨g, rfl⟩⟩

/-- The size rule, for a field whose number is read. -/
theorem applySizeRule_read {number : UInt32} (hn : d.getSizeFromFieldValue top = .ok number)
    (ht : top.determinesSizeOf ≠ [] →
      top.determinesSizeOf ∈ d.currentPacketStack.map (·.name)) :
    d.applySizeRule top =
      .ok (withStack d (sizedBy top number d.currentPacketStack)) := by
  unfold applySizeRule sizedBy
  by_cases he : top.determinesSizeOf = []
  · rw [if_pos (by simp [he]), if_pos he]
    rfl
  · obtain ⟨g, hg⟩ := getFieldInStack_iff.mpr (ht he)
    rw [if_neg (by simpa using he), if_neg he, hg, hn]
    rfl

/-- The existence rule, for a field whose number is read. -/
theorem applyExistenceRule_read {number : UInt32} (hn : d.getSizeFromFieldValue top = .ok number)
    (ht : top.sizeDeterminesExistenceOf ≠ [] → number = 0 →
      top.sizeDeterminesExistenceOf ∈ d.currentPacketStack.map (·.name)) :
    d.applyExistenceRule top =
      .ok (withStack d (droppedBy top number d.currentPacketStack)) := by
  unfold applyExistenceRule droppedBy
  by_cases he : top.sizeDeterminesExistenceOf = []
  · rw [if_pos (by simp [he]), if_neg (by simp [he])]
    rfl
  · rw [if_neg (by simpa using he), hn]
    simp only
    by_cases hz : number = 0
    · obtain ⟨g, hg⟩ := getFieldInStack_iff.mpr (ht he hz)
      rw [if_pos hz, if_pos ⟨he, hz⟩]
      unfold getFieldInStack at hg
      unfold removeFieldFromStack
      split at hg
      · rfl
      · simp at hg
    · rw [if_neg hz, if_neg (by simp [hz])]
      rfl

theorem names_sizedBy (top : FieldDescriptor) (number : UInt32) (rest : List FieldDescriptor) :
    (sizedBy top number rest).map (·.name) = rest.map (·.name) := by
  unfold sizedBy
  split
  · rfl
  · rw [map_name_update]
    exact fun _ => rfl

/-- A byte that completes a field leaves its name and the names around it distinct. -/
theorem Reached.names {t : PacketDescriptor} (ht : (t.fields.map (·.name)).Nodup)
    (hd : FromTemplate t d) (hr : Reached d b r top rest) :
    (r.currentPacket.fields.map (·.name) ++ top.name :: rest.map (·.name)).Nodup := by
  have hm : ReflTransGen (Move noTargets) d.startPacket.progress r.progress :=
    (arrive_moves d b).trans (calculateSize_moves hr.size)
  have := ht.sublist ((fieldNames_moves hm).trans hd.startPacket)
  rwa [fieldNames, progress, hr.stack] at this

/-- The number of a field that is just complete is read from its own bytes. -/
theorem Reached.number (hr : Reached d b r top rest)
    (hn : (r.currentPacket.fields.map (·.name) ++ top.name :: rest.map (·.name)).Nodup)
    (hreadable : Readable top.size) (fs : List FieldDescriptor) :
    getSizeFromFieldValue (withStack (r.takeField top rest) fs) top =
      .ok (fieldNumber r.currentMessageBuffer) := by
  refine getSizeFromFieldValue_readable rfl (fun g hg he => ?_) hr.full hreadable
  have hdisj := List.disjoint_of_nodup_append hn
  exact hdisj (List.mem_map_of_mem hg) (he ▸ .head _)

/-- **A completed field** sizes and drops the fields after it by the number that is read. -/
theorem completed_ruled (hr : Reached d b r top rest)
    (hn : (r.currentPacket.fields.map (·.name) ++ top.name :: rest.map (·.name)).Nodup)
    (hreadable : Readable top.size) (hok : ¬ LookupFails (r.takeField top rest) top) :
    d.addByte b = (withStack (r.takeField top rest)
      (droppedBy top (fieldNumber r.currentMessageBuffer)
        (sizedBy top (fieldNumber r.currentMessageBuffer) rest))).skipEmptyFields.finish := by
  have hnum := hr.number hn hreadable
  have hnum' : (r.takeField top rest).getSizeFromFieldValue top =
    .ok (fieldNumber r.currentMessageBuffer) := hnum rest
  have hsize : top.determinesSizeOf ≠ [] → top.determinesSizeOf ∈ rest.map (·.name) :=
    fun hne => by_contra fun hno => hok (.inl ⟨hne, .inl hno⟩)
  have hexist : top.sizeDeterminesExistenceOf ≠ [] → fieldNumber r.currentMessageBuffer = 0 →
      top.sizeDeterminesExistenceOf ∈ rest.map (·.name) := fun hne hz =>
    by_contra fun hno => hok (.inr ⟨hne, .inr ⟨hz ▸ hnum', hno⟩⟩)
  rw [hr.addByte, completed_eq, applySizeRule_read hnum' hsize]
  have hstack : (r.takeField top rest).currentPacketStack = rest := rfl
  simp only [hstack]
  rw [applyExistenceRule_read (hnum _)
    (by rw [withStack, names_sizedBy]; exact hexist)]
  rfl

end Rules

/-! ## What the dissector expects of a field -/

/-- The field with the name has a size of `n`, on the stack or as it was delivered. -/
def Expects (name : Str) (n : Int) (d : GenericDissector) : Prop :=
  FieldsSatisfy (fun g => g.name = name → (g.size.toNat : Int) = n)
    (fun f => f.name = name → (f.value.length : Int) = n) d.progress

/-- The size of the field with the name is not left to a callback. -/
def NoCallback (name : Str) (d : GenericDissector) : Prop :=
  ∀ g ∈ d.currentPacketStack, g.name = name → g.externalSizeCalculation = none

/-- The call is one of the same packet, and gives the field with the name no other size. -/
def KeepsSize (name : Str) (d : GenericDissector) (b : UInt8) : Prop :=
  d.currentPacketStack ≠ [] ∧ ¬ Resizes d b name

section Expects

variable {name : Str} {n : Int} {d : GenericDissector}

theorem Expects.addByte {b : UInt8} (he : Expects name n d) (hc : NoCallback name d)
    (hb : KeepsSize name d b) :
    Expects name n (d.addByte b).2 ∧ NoCallback name (d.addByte b).2 := by
  obtain ⟨top, rest, hs⟩ := List.exists_cons_of_ne_nil hb.1
  have hmoves := addByte_moves d b
  rw [startPacket_of_cons hs] at hmoves
  have hstart : FieldsSatisfy
      (fun g => g.name = name → (g.size.toNat : Int) = n ∧ g.externalSizeCalculation = none)
      (fun f => f.name = name → (f.value.length : Int) = n) d.progress :=
    ⟨fun g hg hname => ⟨he.coming g hg hname, hc g hg hname⟩, he.delivered⟩
  have hresize : ∀ g : FieldDescriptor, Resizes d b g.name → g.name ≠ name :=
    fun g hr hname => hb.2 (hname ▸ hr)
  have hend := hstart.moves (fun g v hg hl hname => by rw [hl]; exact (hg hname).1)
    (fun g size hg hne hname => absurd (hg hname).2 hne)
    (fun g size _ hr hname => absurd hname (hresize g hr)) hmoves
  exact ⟨⟨fun g hg hname => (hend.coming g hg hname).1, hend.delivered⟩,
    fun g hg hname => (hend.coming g hg hname).2⟩

/-- **The size stays**, until the field is delivered with as many bytes. -/
theorem Expects.run {s : Bytes} (he : Expects name n d) (hc : NoCallback name d)
    (h : Along GenericDissector.addByte (KeepsSize name) d s) :
    Expects name n (after GenericDissector.addByte d s) := by
  induction s generalizing d with
  | nil => exact he
  | cons b s ih =>
    obtain ⟨h1, h2⟩ := he.addByte hc h.1
    exact ih h1 h2 h.2

/-- Empty fields are delivered with their size. -/
theorem Expects.skipEmpty (he : Expects name n d) : Expects name n d.skipEmptyFields.finish.2 := by
  rw [Expects, progress_finish, skipEmptyFields, skipEmpty_eq]
  refine ⟨fun g hg => he.coming g ((List.dropWhile_suffix _).subset hg), ?_⟩
  simp only [progress, List.forall_mem_append, List.forall_mem_map]
  refine ⟨he.delivered, fun g hg hname => ?_⟩
  have hz := List.mem_takeWhile_imp hg
  simp only [FieldDescriptor.isCertainlyZeroSized, Bool.and_eq_true, beq_iff_eq] at hz
  rw [← he.coming g ((List.takeWhile_prefix _).subset hg) hname, hz.2]
  rfl

end Expects

/-! ## A completed size field -/

section Completed

variable {d r : GenericDissector} {b : UInt8} {top : FieldDescriptor} {rest : List FieldDescriptor}

/-- The sum that the size field asks for. -/
def sizeSum (top : FieldDescriptor) (v : Bytes) : Int :=
  (LittleEndian.toNat v : Int) + top.sizeOffset.toInt

theorem fieldNames_skipEmpty (d : GenericDissector) :
    fieldNames d.skipEmptyFields.finish.2.progress = fieldNames d.progress := by
  rw [progress_finish, skipEmptyFields, skipEmpty_eq]
  simp only [progress, fieldNames, List.map_append, List.map_map, List.append_assoc]
  congr 1
  rw [show ((fun f : FieldData => f.name) ∘ fun f : FieldDescriptor => ⟨f.name, []⟩) =
    (fun f : FieldDescriptor => f.name) from rfl, ← List.map_append,
    List.takeWhile_append_dropWhile]

/-- After the rules, the target has the size that was computed. -/
theorem expects_ruled (number : UInt32)
    (hn : (r.currentPacket.fields.map (·.name) ++ top.name :: rest.map (·.name)).Nodup)
    (hne : top.determinesSizeOf ≠ []) (hin : top.determinesSizeOf ∈ rest.map (·.name)) :
    Expects top.determinesSizeOf (offsetSize number top.sizeOffset).toNat
      (withStack (r.takeField top rest) (droppedBy top number (sizedBy top number rest))) := by
  have hrest : (rest.map (·.name)).Nodup := (List.nodup_append.mp hn).2.1.of_cons
  constructor
  · intro g hg hname
    have hg : g ∈ sizedBy top number rest := by
      simp only [withStack, progress, droppedBy] at hg
      split at hg
      · exact List.mem_of_mem_eraseP hg
      · exact hg
    rw [sizedBy, if_neg hne, update_eq_map _ hrest] at hg
    obtain ⟨f, -, rfl⟩ := List.mem_map.mp hg
    by_cases hf : f.name = top.determinesSizeOf
    · simp [hf]
    · rw [if_neg (by simpa using hf)] at hname
      exact absurd hname hf
  · intro f hf hname
    have hdisj := List.disjoint_of_nodup_append hn
    have htop := (List.nodup_cons.mp (List.nodup_append.mp hn).2.1).1
    rcases List.mem_append.mp hf with h | h
    · exact absurd (.tail _ (hname ▸ hin)) (hdisj (List.mem_map_of_mem h))
    · have hname : top.name = top.determinesSizeOf := by rwa [List.mem_singleton.mp h] at hname
      exact absurd (hname ▸ hin) htop

/-- After the rules, the second target is gone when the number is zero. -/
theorem mem_names_ruled {number : UInt32} {name : Str}
    (hn : (r.currentPacket.fields.map (·.name) ++ top.name :: rest.map (·.name)).Nodup)
    (hin : name ∈ rest.map (·.name)) :
    name ∈ fieldNames (withStack (r.takeField top rest)
        (droppedBy top number (sizedBy top number rest))).progress ↔
      ¬ (top.sizeDeterminesExistenceOf ≠ [] ∧ number = 0 ∧
        top.sizeDeterminesExistenceOf = name) := by
  have hrest : (rest.map (·.name)).Nodup := (List.nodup_append.mp hn).2.1.of_cons
  have hdisj := List.disjoint_of_nodup_append hn
  have htop := (List.nodup_cons.mp (List.nodup_append.mp hn).2.1).1
  have hold : name ∉ (r.takeField top rest).currentPacket.fields.map (·.name) := by
    simp only [takeField, PacketData.add_fields, List.map_append, List.map_cons, List.map_nil,
      List.mem_append, List.mem_singleton, not_or]
    exact ⟨fun h => hdisj h (.tail _ hin), fun h => htop (h ▸ hin)⟩
  have hstack : name ∈ fieldNames (withStack (r.takeField top rest)
        (droppedBy top number (sizedBy top number rest))).progress ↔
      name ∈ (droppedBy top number (sizedBy top number rest)).map (·.name) := by
    simp only [withStack, progress, fieldNames, List.mem_append, hold, false_or]
  rw [hstack, droppedBy]
  split
  · rename_i hdrop
    rw [eraseP_eq_filter (by rw [names_sizedBy]; exact hrest)]
    have hfilter : ((sizedBy top number rest).filter
        (·.name != top.sizeDeterminesExistenceOf)).map (·.name) =
        (rest.map (·.name)).filter (· != top.sizeDeterminesExistenceOf) := by
      rw [← names_sizedBy top number rest, List.filter_map]
      rfl
    rw [hfilter, List.mem_filter]
    simp only [hin, true_and, bne_iff_ne, ne_eq]
    exact ⟨fun h hc => h hc.2.2.symm, fun h he => h ⟨hdrop.1, hdrop.2, he.symm⟩⟩
  · rename_i hdrop
    rw [names_sizedBy]
    exact ⟨fun _ hc => hdrop ⟨hc.1, hc.2.1⟩, fun _ => hin⟩

/-- A completed size field does what its number says. -/
structure SizesExactly (d : GenericDissector) (b : UInt8) (r : GenericDissector)
    (top : FieldDescriptor) (rest : List FieldDescriptor) : Prop where
  /-- A sum that is no size does not get here: the call throws. -/
  inRange : top.determinesSizeOf ≠ [] →
    0 ≤ sizeSum top r.currentMessageBuffer ∧ sizeSum top r.currentMessageBuffer ≤ 65535
  present : top.determinesSizeOf ≠ [] → top.sizeDeterminesExistenceOf ≠ top.determinesSizeOf →
    top.determinesSizeOf ∈ fieldNames (d.addByte b).2.progress
  expected : top.determinesSizeOf ≠ [] →
    Expects top.determinesSizeOf (sizeSum top r.currentMessageBuffer) (d.addByte b).2
  /-- The bytes of the target, when no other field and no callback changes its size. -/
  delivered : top.determinesSizeOf ≠ [] → NoCallback top.determinesSizeOf (d.addByte b).2 →
    ∀ s, Along addByte (KeepsSize top.determinesSizeOf) (d.addByte b).2 s →
      Expects top.determinesSizeOf (sizeSum top r.currentMessageBuffer)
        (after addByte (d.addByte b).2 s)
  dropped : top.sizeDeterminesExistenceOf ≠ [] →
    top.sizeDeterminesExistenceOf ∈ rest.map (·.name) →
    (top.sizeDeterminesExistenceOf ∉ fieldNames (d.addByte b).2.progress ↔
      LittleEndian.toNat r.currentMessageBuffer = 0)

/-- A size field that the call completes without an exception does what its number says. -/
def ExactSizes (d : GenericDissector) (b : UInt8) : Prop :=
  ∀ r top rest, Reached d b r top rest → Readable top.size → (∃ o, (d.addByte b).1 = .ok o) →
    SizesExactly d b r top rest

/-- A size field that the call completes, and whose rules are looked up, has a sum in `0..65535`,
and its number is zero when its low 32 bits are. -/
def SizesFit (d : GenericDissector) (b : UInt8) : Prop :=
  ∀ r top rest, Reached d b r top rest → Readable top.size →
    ¬ LookupFails (r.takeField top rest) top →
    (top.determinesSizeOf ≠ [] → 0 ≤ sizeSum top r.currentMessageBuffer ∧
      sizeSum top r.currentMessageBuffer ≤ 65535) ∧
    (top.sizeDeterminesExistenceOf ≠ [] → top.sizeDeterminesExistenceOf ∈ rest.map (·.name) →
      LittleEndian.toNat r.currentMessageBuffer = 0 ∨
        LittleEndian.toNat r.currentMessageBuffer % 2 ^ 32 ≠ 0)

theorem Reached.returns_iff (hr : Reached d b r top rest) :
    (∃ o, (d.addByte b).1 = .ok o) ↔ ¬ LookupFails (r.takeField top rest) top := by
  rw [hr.addByte]
  rcases completed_cases r top rest with ⟨hf, what, d', hd, -⟩ | ⟨hno, ho⟩
  · refine ⟨fun ⟨o, ho⟩ => ?_, fun h => absurd hf h⟩
    rw [hd] at ho
    cases ho
  · exact ⟨fun _ => hno, fun _ => ho⟩

/-- A field to come is there after the call, unless the completed field drops it. -/
theorem Reached.mem_names_after (hr : Reached d b r top rest)
    (hn : (r.currentPacket.fields.map (·.name) ++ top.name :: rest.map (·.name)).Nodup)
    (hreadable : Readable top.size) (hok : ¬ LookupFails (r.takeField top rest) top) {name : Str}
    (hin : name ∈ rest.map (·.name)) :
    name ∈ fieldNames (d.addByte b).2.progress ↔
      ¬ (top.sizeDeterminesExistenceOf ≠ [] ∧ fieldNumber r.currentMessageBuffer = 0 ∧
        top.sizeDeterminesExistenceOf = name) := by
  rw [completed_ruled hr hn hreadable hok, fieldNames_skipEmpty, mem_names_ruled hn hin]

/-- The code drops the target when the low 32 bits of the number are zero. -/
theorem Reached.drops_iff (hr : Reached d b r top rest)
    (hn : (r.currentPacket.fields.map (·.name) ++ top.name :: rest.map (·.name)).Nodup)
    (hreadable : Readable top.size) (hok : ¬ LookupFails (r.takeField top rest) top)
    (hne : top.sizeDeterminesExistenceOf ≠ [])
    (hin : top.sizeDeterminesExistenceOf ∈ rest.map (·.name)) :
    top.sizeDeterminesExistenceOf ∉ fieldNames (d.addByte b).2.progress ↔
      LittleEndian.toNat r.currentMessageBuffer % 2 ^ 32 = 0 := by
  rw [hr.mem_names_after hn hreadable hok hin, not_not, fieldNumber_eq_zero]
  exact ⟨fun h => h.2.1, fun h => ⟨hne, h, rfl⟩⟩

/-- The code expects as many bytes for the target as it computes. -/
theorem Reached.expects (hr : Reached d b r top rest)
    (hn : (r.currentPacket.fields.map (·.name) ++ top.name :: rest.map (·.name)).Nodup)
    (hreadable : Readable top.size) (hok : ¬ LookupFails (r.takeField top rest) top)
    (hne : top.determinesSizeOf ≠ []) (hin : top.determinesSizeOf ∈ rest.map (·.name)) :
    Expects top.determinesSizeOf
      (offsetSize (fieldNumber r.currentMessageBuffer) top.sizeOffset).toNat (d.addByte b).2 := by
  rw [completed_ruled hr hn hreadable hok]
  exact (expects_ruled _ hn hne hin).skipEmpty

/-- **One completed field.** -/
theorem Reached.sizesExactly_iff (hr : Reached d b r top rest)
    (hn : (r.currentPacket.fields.map (·.name) ++ top.name :: rest.map (·.name)).Nodup)
    (hreadable : Readable top.size) (hok : ¬ LookupFails (r.takeField top rest) top) :
    SizesExactly d b r top rest ↔
      (top.determinesSizeOf ≠ [] → 0 ≤ sizeSum top r.currentMessageBuffer ∧
        sizeSum top r.currentMessageBuffer ≤ 65535) ∧
      (top.sizeDeterminesExistenceOf ≠ [] →
        top.sizeDeterminesExistenceOf ∈ rest.map (·.name) →
        LittleEndian.toNat r.currentMessageBuffer = 0 ∨
          LittleEndian.toNat r.currentMessageBuffer % 2 ^ 32 ≠ 0) := by
  have hdrops := hr.drops_iff hn hreadable hok
  constructor
  · refine fun h => ⟨h.inRange, fun hne hin => ?_⟩
    by_cases hz : LittleEndian.toNat r.currentMessageBuffer % 2 ^ 32 = 0
    · exact .inl ((h.dropped hne hin).mp ((hdrops hne hin).mpr hz))
    · exact .inr hz
  · rintro ⟨hrange, hzero⟩
    -- the size rule did not throw, so its target is on the stack
    have htarget : top.determinesSizeOf ≠ [] → top.determinesSizeOf ∈ rest.map (·.name) :=
      fun hne => by_contra fun hno => hok (.inl ⟨hne, .inl hno⟩)
    have hexpected : top.determinesSizeOf ≠ [] →
        Expects top.determinesSizeOf (sizeSum top r.currentMessageBuffer) (d.addByte b).2 := by
      intro hne
      have := hr.expects hn hreadable hok hne (htarget hne)
      rwa [offsetSize_exact.mpr (hrange hne)] at this
    exact {
      inRange := hrange
      present := fun hne hdiff =>
        (hr.mem_names_after hn hreadable hok (htarget hne)).mpr fun hc => hdiff hc.2.2
      expected := hexpected
      delivered := fun hne hc s hs => (hexpected hne).run hc hs
      dropped := fun hne hin => by
        rw [hdrops hne hin]
        have := hzero hne hin
        omega }

/-- **One call.** -/
theorem exactSizes_iff {t : PacketDescriptor} (ht : (t.fields.map (·.name)).Nodup)
    (hd : FromTemplate t d) : ExactSizes d b ↔ SizesFit d b := by
  constructor
  · intro h r top rest hr hreadable hok
    apply (hr.sizesExactly_iff (hr.names ht hd) hreadable hok).mp
    exact h r top rest hr hreadable (hr.returns_iff.mpr hok)
  · intro h r top rest hr hreadable ho
    have hok := hr.returns_iff.mp ho
    apply (hr.sizesExactly_iff (hr.names ht hd) hreadable hok).mpr
    exact h r top rest hr hreadable hok

end Completed

/-- **When size fields are exact.** In every run, each size field that completes without an
exception gives its target its number plus the offset, and drops its other target when its number
is zero, exactly when these sums lie in `0..65535` and these numbers are not nonzero multiples of
`2 ^ 32`. -/
theorem sizes_exact_iff {t : PacketDescriptor} (ht : (t.fields.map (·.name)).Nodup) (s : Bytes) :
    Along addByte ExactSizes (make t) s ↔ Along addByte SizesFit (make t) s := by
  constructor
  · refine fun h => (h.mono_inv (I := FromTemplate t) (fun d b hd hg => ?_) (.make t)).1
    exact ⟨(exactSizes_iff ht hd).mp hg, hd.addByte b⟩
  · refine fun h => (h.mono_inv (I := FromTemplate t) (fun d b hd hg => ?_) (.make t)).1
    exact ⟨(exactSizes_iff ht hd).mpr hg, hd.addByte b⟩

/-- A length with an offset, and the data. -/
def lengthTemplate (sizeOffset : Int16) : PacketDescriptor where
  fields := [{ name := lit "L", size := 1, determinesSizeOf := lit "D", sizeOffset },
    { name := lit "D" }]

/-- A length of zero that counts one byte less: the data is 65535 bytes long. -/
theorem length_wraps : ¬ ∀ t : PacketDescriptor, (t.fields.map (·.name)).Nodup → ∀ s,
    Along addByte ExactSizes (make t) s := by
  intro h
  have hexact := (h (lengthTemplate (-1)) (by decide) [0]).1
    ((make (lengthTemplate (-1))).pushByte 0) _ _ ⟨rfl, rfl, rfl, fun h => by cases h⟩ (.inl rfl)
    ⟨_, rfl⟩
  exact absurd (hexact.inRange (by decide)).1 (by decide)

/-- A length of one that counts one byte more, and the data. -/
theorem sizes_exact_length : Along addByte ExactSizes (make (lengthTemplate 1)) [1, 7] := by
  refine (sizes_exact_iff (by decide) _).mpr ⟨?_, ?_, trivial⟩
  · rintro r top rest ⟨hsize, hstack, -, -⟩ - -
    obtain rfl : (make (lengthTemplate 1)).pushByte 1 = r := Option.some.inj (Except.ok.inj hsize)
    cases hstack
    exact ⟨fun _ => by decide, fun hne => absurd rfl hne⟩
  · rintro r top rest ⟨hsize, hstack, hfull, -⟩ - -
    obtain rfl : ((make (lengthTemplate 1)).addByte 1).2.pushByte 7 = r :=
      Option.some.inj (Except.ok.inj hsize)
    cases hstack
    exact absurd hfull (by decide)

end Protos

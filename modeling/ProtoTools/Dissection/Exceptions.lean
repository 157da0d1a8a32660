import ProtoTools.Dissection.Step

/-!
# A caller that goes on after an exception

A completed field leaves the stack for the packet before its rules are looked up, so a lookup that
fails leaves the packet without this field on the stack.

* `Reached d b r top rest`: the byte completes `top`, and `rest` stays on the stack.
  `LookupFails`: a rule of the completed field cannot be looked up. `addByte_throws_iff`: a call
  throws exactly then.
* `Traced`: the dissector with the number of the call that completed each field of the packet in
  progress, and of the calls that threw. `births_length`: one number per field.
  `Traced.Fresh`: the throws are older than these fields.
* `no_stale_packet_iff`: no packet has a field from before an exception, and no exception leaves a
  packet half-way, exactly when each failing lookup is one of the last field on the stack.
-/

namespace Protos

open Machine GenericDissector

/-! ## The lookups -/

/-- The computation does not return. -/
def Fails {ε α : Type} (e : Except ε α) : Prop := ∀ a, e ≠ .ok a

/-- The size rule of the field, just added to the packet, cannot be looked up. -/
def SizeLookupFails (d : GenericDissector) (field : FieldDescriptor) : Prop :=
  field.determinesSizeOf ≠ [] ∧
    (field.determinesSizeOf ∉ d.currentPacketStack.map (·.name) ∨
      Fails (d.getSizeFromFieldValue field))

/-- The existence rule of the field, just added to the packet, cannot be looked up. -/
def ExistenceLookupFails (d : GenericDissector) (field : FieldDescriptor) : Prop :=
  field.sizeDeterminesExistenceOf ≠ [] ∧
    (Fails (d.getSizeFromFieldValue field) ∨ d.getSizeFromFieldValue field = .ok 0 ∧
      field.sizeDeterminesExistenceOf ∉ d.currentPacketStack.map (·.name))

/-- A rule of the field, just added to the packet, cannot be looked up. -/
def LookupFails (d : GenericDissector) (field : FieldDescriptor) : Prop :=
  SizeLookupFails d field ∨ ExistenceLookupFails d field

/-- The byte completes the field `top` of the dissector `r`, and `rest` stays on the stack. -/
structure Reached (d : GenericDissector) (b : UInt8) (r : GenericDissector) (top : FieldDescriptor)
    (rest : List FieldDescriptor) : Prop where
  size : (d.arrive b).calculateSize = .ok (some r)
  stack : r.currentPacketStack = top :: rest
  full : r.currentMessageBuffer.length = top.size.toNat
  header : top.isHeaderValue = true → top.value = r.currentMessageBuffer

/-- Where a byte completes a field whose rules cannot be looked up, it is the last field on the
stack. -/
def LastWhenFails (d : GenericDissector) (b : UInt8) : Prop :=
  ∀ r top rest, Reached d b r top rest → LookupFails (r.takeField top rest) top → rest = []

section Lookups

variable {d : GenericDissector} {field : FieldDescriptor}

private theorem find_none_iff {fs : List FieldDescriptor} {name : Str} :
    fs.find? (·.name == name) = none ↔ name ∉ fs.map (·.name) := by
  simp [List.find?_eq_none]

theorem fails_iff {ε α : Type} {e : Except ε α} : Fails e ↔ ∃ x, e = .error x := by
  cases e with
  | error x => exact ⟨fun _ => ⟨x, rfl⟩, fun _ _ h => by cases h⟩
  | ok a => exact ⟨fun h => absurd rfl (h a), fun ⟨_, h⟩ => by cases h⟩

theorem applySizeRule_fails_iff : Fails (d.applySizeRule field) ↔ SizeLookupFails d field := by
  unfold SizeLookupFails applySizeRule getFieldInStack
  rw [← find_none_iff]
  by_cases hd : field.determinesSizeOf = []
  · rw [if_pos (by simp [hd])]
    simp [Fails, hd]
  · rw [if_neg (by simpa using hd)]
    cases d.currentPacketStack.find? (·.name == field.determinesSizeOf) with
    | none => simp [Fails, hd]
    | some g => cases d.getSizeFromFieldValue field <;> simp [Fails, hd]

theorem applyExistenceRule_fails_iff :
    Fails (d.applyExistenceRule field) ↔ ExistenceLookupFails d field := by
  unfold ExistenceLookupFails applyExistenceRule removeFieldFromStack
  rw [← find_none_iff]
  by_cases hd : field.sizeDeterminesExistenceOf = []
  · rw [if_pos (by simp [hd])]
    simp [Fails, hd]
  · rw [if_neg (by simpa using hd)]
    cases d.getSizeFromFieldValue field with
    | error e => simp [Fails, hd]
    | ok n =>
      by_cases hn : n = 0
      · cases d.currentPacketStack.find? (·.name == field.sizeDeterminesExistenceOf) <;>
          simp [Fails, hd, hn]
      · simp [Fails, hd, hn]

end Lookups

section Throws

variable {d d' r : GenericDissector} {b : UInt8} {top : FieldDescriptor}
  {rest : List FieldDescriptor}

/-- A completed field whose rules fail: the rest of the packet stays on the stack. -/
theorem completed_cases (r : GenericDissector) (top : FieldDescriptor)
    (rest : List FieldDescriptor) :
    (LookupFails (r.takeField top rest) top ∧ ∃ what d',
      r.completed top rest = (.error (.runtimeError what), d') ∧
        d'.currentMessageBuffer = [] ∧ (d'.currentPacketStack = [] ↔ rest = [])) ∨
    (¬ LookupFails (r.takeField top rest) top ∧ ∃ o, (r.completed top rest).1 = .ok o) := by
  rw [completed_eq]
  cases hs : (r.takeField top rest).applySizeRule top with
  | error e =>
    obtain ⟨what, rfl⟩ := applySizeRule_error hs
    have hf := applySizeRule_fails_iff.mp (fails_iff.mpr ⟨_, hs⟩)
    exact .inl ⟨.inl hf, what, _, rfl, rfl, Iff.rfl⟩
  | ok x =>
    obtain ⟨fs, rfl, hnames⟩ := applySizeRule_frame hs
    have hsize : ¬ SizeLookupFails (r.takeField top rest) top := fun hf =>
      applySizeRule_fails_iff.mpr hf _ hs
    -- the size rule changes no name, so the existence rule is looked up as before it
    have hex : ExistenceLookupFails { r.takeField top rest with currentPacketStack := fs } top ↔
        ExistenceLookupFails (r.takeField top rest) top := by
      unfold ExistenceLookupFails
      rw [hnames]
      rfl
    have hempty : fs = [] ↔ rest = [] := by
      rw [← List.map_eq_nil_iff (f := (·.name)), hnames, List.map_eq_nil_iff]
      rfl
    simp only
    cases he : applyExistenceRule { r.takeField top rest with currentPacketStack := fs } top with
    | error e =>
      obtain ⟨what, rfl⟩ := applyExistenceRule_error he
      have hf := hex.mp (applyExistenceRule_fails_iff.mp (fails_iff.mpr ⟨_, he⟩))
      exact .inl ⟨.inr hf, what, _, rfl, rfl, hempty⟩
    | ok y =>
      refine .inr ⟨fun hf => ?_, finish_ok _⟩
      exact hf.elim hsize fun hf => applyExistenceRule_fails_iff.mpr (hex.mpr hf) _ he

theorem Reached.addByte (h : Reached d b r top rest) : d.addByte b = r.completed top rest := by
  rw [addByte_eq, h.size]
  simp only
  rw [tryComplete_cons h.stack, if_pos h.full, if_neg fun hh => hh.2 (h.header hh.1)]

/-- A call that throws completes a field. -/
theorem reached_of_throws {e : Fault} (h : (d.addByte b).1 = .error e) (he : e.isThrow = true) :
    ∃ r top rest, Reached d b r top rest := by
  rw [addByte_eq] at h
  cases hc : (d.arrive b).calculateSize with
  | error e' =>
    rw [hc] at h
    cases h
    rcases calculateSize_error hc with rfl | rfl <;> cases he
  | ok o =>
    rw [hc] at h
    cases o with
    | none => simp at h
    | some r =>
      simp only at h
      cases hs : r.currentPacketStack with
      | nil => exact absurd hs (calculateSize_frame hc).1
      | cons top rest =>
        rw [tryComplete_cons hs] at h
        split at h
        · rename_i hfull
          split at h
          · split at h
            · cases h
              cases he
            · simp at h
          · rename_i hh
            exact ⟨r, top, rest, hc, hs, hfull, fun ht => by_contra fun hv => hh ⟨ht, hv⟩⟩
        · simp at h

/-- **A call throws** exactly when it completes a field whose rules cannot be looked up. -/
theorem addByte_throws_iff : (∃ e, (d.addByte b).1 = .error e ∧ e.isThrow = true) ↔
    ∃ r top rest, Reached d b r top rest ∧ LookupFails (r.takeField top rest) top := by
  constructor
  · rintro ⟨e, h, he⟩
    obtain ⟨r, top, rest, hr⟩ := reached_of_throws h he
    rw [hr.addByte] at h
    rcases completed_cases r top rest with ⟨hf, -⟩ | ⟨-, o, ho⟩
    · exact ⟨r, top, rest, hr, hf⟩
    · rw [ho] at h
      cases h
  · rintro ⟨r, top, rest, hr, hf⟩
    rcases completed_cases r top rest with ⟨-, what, d', hd, -⟩ | ⟨hno, -⟩
    · exact ⟨.runtimeError what, by rw [hr.addByte, hd], rfl⟩
    · exact absurd hf hno

/-- The call does not throw with fields left on the stack. -/
def NotHalfWay (d : GenericDissector) (b : UInt8) : Prop :=
  ∀ e, (d.addByte b).1 = .error e → e.isThrow = true → (d.addByte b).2.currentPacketStack = []

theorem notHalfWay_iff : NotHalfWay d b ↔ LastWhenFails d b := by
  constructor
  · intro h r top rest hr hf
    rcases completed_cases r top rest with ⟨-, what, d', hd, -, hrest⟩ | ⟨hno, -⟩
    · have he : d.addByte b = (.error (.runtimeError what), d') := by rw [hr.addByte, hd]
      have := h (.runtimeError what) (by rw [he]) rfl
      rw [he] at this
      exact hrest.mp this
    · exact absurd hf hno
  · intro h e he ht
    obtain ⟨r, top, rest, hr, hf⟩ := addByte_throws_iff.mp ⟨e, he, ht⟩
    rcases completed_cases r top rest with ⟨-, what, d', hd, -, hrest⟩ | ⟨hno, -⟩
    · rw [hr.addByte, hd]
      exact hrest.mpr (h r top rest hr hf)
    · exact absurd hf hno

/-- A call that throws leaves an empty buffer. -/
theorem buffer_of_throws {e : Fault} (h : (d.addByte b).1 = .error e) (he : e.isThrow = true) :
    (d.addByte b).2.currentMessageBuffer = [] := by
  obtain ⟨r, top, rest, hr, hf⟩ := addByte_throws_iff.mp ⟨e, h, he⟩
  rcases completed_cases r top rest with ⟨-, what, d', hd, hbuf, -⟩ | ⟨hno, -⟩
  · rw [hr.addByte, hd]
    exact hbuf
  · exact absurd hf hno

end Throws

/-! ## Which call completed a field -/

/-- The dissector with the number of the call that completed each field of the packet in progress,
the number of the next call and the calls that threw. -/
structure Traced where
  dissector : GenericDissector
  births : List Nat := []
  call : Nat := 0
  throws : List Nat := []

namespace Traced

/-- The run of a new dissector. -/
def start (t : PacketDescriptor) : Traced := { dissector := make t }

/-- The numbers that stay: a packet that this call starts has none. -/
def kept (r : Traced) : List Nat :=
  if r.dissector.stackIsEmpty && r.dissector.currentMessageBuffer.isEmpty then [] else r.births

def step (r : Traced) (b : UInt8) : Except Fault (Option PacketData) × Traced :=
  let res := r.dissector.addByte b
  (res.1, {
    dissector := res.2
    births := r.kept ++
      List.replicate (res.2.currentPacket.fields.length - r.kept.length) r.call
    call := r.call + 1
    throws := match res.1 with
      | .error e => if e.isThrow then r.call :: r.throws else r.throws
      | .ok _ => r.throws })

/-- No field of a packet that this call delivers is from a call that threw or from before it. -/
def NoStaleField (r : Traced) (b : UInt8) : Prop :=
  ∀ packet, (r.step b).1 = .ok (some packet) →
    (r.step b).2.births.length = packet.fields.length ∧
      ∀ n ∈ (r.step b).2.births, ∀ i ∈ r.throws, i < n

end Traced

section Births

theorem skipEmpty_fields (fs : List FieldDescriptor) (packet : PacketData) :
    packet.fields <+: (skipEmpty fs packet).2.fields := by
  rw [skipEmpty_eq]
  exact List.prefix_append _ _

theorem completed_fields (d : GenericDissector) (top : FieldDescriptor)
    (rest : List FieldDescriptor) :
    d.currentPacket.fields <+: (d.completed top rest).2.currentPacket.fields := by
  have htake : d.currentPacket.fields <+: (d.takeField top rest).currentPacket.fields :=
    List.prefix_append _ _
  have hfin : ∀ x : GenericDissector, x.finish.2.currentPacket = x.currentPacket := by
    intro x
    unfold finish
    split <;> rfl
  rw [completed_eq]
  split
  · exact htake
  · rename_i x hx
    obtain ⟨fs, rfl, -⟩ := applySizeRule_frame hx
    split
    · exact htake
    · rename_i y hy
      obtain ⟨fs', rfl⟩ := applyExistenceRule_frame hy
      rw [hfin]
      exact htake.trans (skipEmpty_fields _ _)

/-- A call only adds fields to the packet in progress. -/
theorem addByte_fields (d : GenericDissector) (b : UInt8) :
    d.startPacket.currentPacket.fields <+: (d.addByte b).2.currentPacket.fields := by
  have harr : d.startPacket.currentPacket.fields <+: (d.arrive b).currentPacket.fields := by
    unfold arrive skipEmptyTop
    split
    · exact List.prefix_rfl
    · split
      · exact List.prefix_append _ _
      · exact List.prefix_rfl
  rw [addByte_eq]
  split
  · exact harr
  · exact harr
  · rename_i r hc
    rw [← (calculateSize_frame hc).2.1] at harr
    cases hs : r.currentPacketStack with
    | nil => exact absurd hs (calculateSize_frame hc).1
    | cons top rest =>
      rw [tryComplete_cons hs]
      split
      · split
        · split <;> exact harr
        · exact harr.trans (completed_fields r top rest)
      · exact harr

/-- **One number per field** of the packet in progress, after each call. -/
theorem births_length {r : Traced}
    (hr : r.births.length = r.dissector.currentPacket.fields.length) (b : UInt8) :
    (r.step b).2.births.length = (r.step b).2.dissector.currentPacket.fields.length := by
  have hkept : r.kept.length = r.dissector.startPacket.currentPacket.fields.length := by
    unfold Traced.kept startPacket
    split
    · rfl
    · exact hr
  have hle := (addByte_fields r.dissector b).length_le
  simp only [Traced.step, List.length_append, List.length_replicate]
  omega

end Births

/-- The throws are older than the fields of the packet in progress, or there is no such packet. -/
def Traced.Fresh (r : Traced) : Prop :=
  r.births.length = r.dissector.currentPacket.fields.length ∧ (∀ i ∈ r.throws, i < r.call) ∧
    ((∀ n ∈ r.births, ∀ i ∈ r.throws, i < n) ∨
      r.dissector.currentPacketStack = [] ∧ r.dissector.currentMessageBuffer = [])

/-- **One call.** A throw that leaves no packet half-way keeps every later packet free of fields
from before it. -/
theorem Traced.Fresh.step {r : Traced} (hr : r.Fresh) {b : UInt8}
    (hb : NotHalfWay r.dissector b) : r.NoStaleField b ∧ (r.step b).2.Fresh := by
  obtain ⟨hlength, hcalls, hfresh⟩ := hr
  have hlength' := births_length hlength b
  have hkept : ∀ n ∈ r.kept, ∀ i ∈ r.throws, i < n := by
    unfold Traced.kept
    split
    · exact fun n hn => absurd hn List.not_mem_nil
    · rename_i hne
      refine hfresh.resolve_right fun he => hne ?_
      simp [stackIsEmpty, he]
  have hbirths : ∀ n ∈ (r.step b).2.births, ∀ i ∈ r.throws, i < n := by
    simp only [Traced.step, List.mem_append, List.mem_replicate]
    rintro n (hn | ⟨-, rfl⟩)
    · exact hkept n hn
    · exact hcalls
  refine ⟨fun packet h => ⟨?_, hbirths⟩, ?_⟩
  · rw [hlength']
    have hpacket : (r.dissector.addByte b).2.currentPacket = packet :=
      (addByte_some (Prod.ext h rfl)).2.2
    exact congrArg (·.fields.length) hpacket
  have hold : (r.step b).2.throws = r.throws → (r.step b).2.Fresh := fun hthrows =>
    ⟨hlength', fun i hi => Nat.lt_succ_of_lt (hcalls i (hthrows ▸ hi)),
      .inl (hthrows ▸ hbirths)⟩
  cases ho : (r.dissector.addByte b).1 with
  | ok o => exact hold (by simp [Traced.step, ho])
  | error e =>
    cases he : e.isThrow with
    | false => exact hold (by simp [Traced.step, ho, he])
    | true =>
      refine ⟨hlength', ?_, .inr ⟨hb e ho he, buffer_of_throws ho he⟩⟩
      simp only [Traced.step, ho, he, if_true, List.mem_cons]
      rintro i (rfl | hi)
      · omega
      · have := hcalls i hi
        omega

/-- **When no packet survives an exception.** In a run that goes on after every exception, no
delivered packet has a field from before one, and no exception leaves a packet half-way, exactly
when each field that completes with a failing lookup is the last one on the stack. -/
theorem no_stale_packet_iff (t : PacketDescriptor) (s : Bytes) :
    Along Traced.step (fun r b => r.NoStaleField b ∧ NotHalfWay r.dissector b)
        (Traced.start t) s ↔
      Along addByte LastWhenFails (make t) s := by
  have hmap : Along Traced.step (fun r b => LastWhenFails r.dissector b) (Traced.start t) s ↔
      Along addByte LastWhenFails (make t) s :=
    along_map Traced.dissector fun r b => rfl
  rw [← hmap]
  constructor
  · exact fun h => h.mono fun r b hg => notHalfWay_iff.mp hg.2
  · have hstart : (Traced.start t).Fresh :=
      ⟨rfl, fun i hi => absurd hi List.not_mem_nil,
        .inl fun n hn => absurd hn List.not_mem_nil⟩
    refine fun h => (h.mono_inv (I := Traced.Fresh) (fun r b hr hg => ?_) hstart).1
    have hb := notHalfWay_iff.mpr hg
    obtain ⟨h1, h2⟩ := hr.step hb
    exact ⟨⟨h1, hb⟩, h2⟩

/-- The second field gives a size to a field that the template does not have. -/
def lostTargetTemplate : PacketDescriptor where
  fields := [
    { name := lit "A", size := 1 },
    { name := lit "L", size := 1, determinesSizeOf := lit "X" },
    { name := lit "D", size := 1 }]

/-- The call on the second byte throws, and the third byte delivers a packet with all fields. -/
theorem stale_packet_delivered :
    ¬ ∀ t s, Along Traced.step Traced.NoStaleField (Traced.start t) s := by
  intro h
  have hlast := (h lostTargetTemplate [5, 1, 2]).2.2.1
  have hdel : ((after Traced.step (Traced.start lostTargetTemplate) [5, 1]).step 2).1 =
    .ok (some { fields := [⟨lit "A", [5]⟩, ⟨lit "L", [1]⟩, ⟨lit "D", [2]⟩] }) := rfl
  exact absurd ((hlast _ hdel).2 0 (by decide) 1 (by decide)) (by decide)

end Protos

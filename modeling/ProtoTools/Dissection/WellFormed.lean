import ProtoTools.Dissection.History

/-!
# Templates whose references resolve

A template is well formed when its references name later fields and the fields that carry them
have a width that can be read. The references are resolved against the stack, from which an
earlier field may have removed their target.

* `At t h fs`: a state within a packet of `t`: `h` delivered, `fs` the rest of the template.
* `fieldOk_iff`: a completed field keeps its rules when no rule names a removed field.
* `addByte_never_fails_iff`: a run has no exception exactly when no byte of it completes a field
  with a rule for a field already removed from the packet.
-/

namespace Protos

open Machine GenericDissector

/-- Each reference names a field later in the list. -/
def ResolvesLater (ref : FieldDescriptor → Str) : List FieldDescriptor → Prop
  | [] => True
  | f :: fs => (ref f ≠ [] → ∃ g ∈ fs, g.name = ref f) ∧ ResolvesLater ref fs

instance decidableResolvesLater (ref : FieldDescriptor → Str) :
    ∀ fs, Decidable (ResolvesLater ref fs)
  | [] => .isTrue trivial
  | _ :: fs => have := decidableResolvesLater ref fs; inferInstanceAs (Decidable (_ ∧ _))

/-- No callback, distinct names, a first field with a size, references to later fields, and
readable fields with the references, whose size no other field changes. -/
structure WellFormed (t : PacketDescriptor) : Prop where
  noCallback : ∀ f ∈ t.fields, f.externalSizeCalculation = none
  distinct : (t.fields.map (·.name)).Nodup
  first : ∃ f fs, t.fields = f :: fs ∧ f.size ≠ 0
  sizeTarget : ResolvesLater (·.determinesSizeOf) t.fields
  existenceTarget : ResolvesLater (·.sizeDeterminesExistenceOf) t.fields
  width : ∀ f ∈ t.fields, f.determinesSizeOf ≠ [] ∨ f.sizeDeterminesExistenceOf ≠ [] →
    Readable f.size ∧ ∀ g ∈ t.fields, g.determinesSizeOf ≠ [] → g.determinesSizeOf ≠ f.name

/-- A field of the packet in progress, by its value, has removed the field with the name. -/
def RemovedIn (d : GenericDissector) (name : Str) : Prop :=
  ∃ f ∈ d.packetTemplate.fields, ∃ data ∈ d.currentPacket.fields, data.name = f.name ∧
    f.sizeDeterminesExistenceOf = name ∧ data.value ≠ [] ∧ fieldNumber data.value = 0

/-- The byte completes the top field, and a rule of this field is for a field that is already
removed. -/
def RuleMeetsRemoved (d : GenericDissector) (b : UInt8) : Prop :=
  ∃ top ∈ d.startPacket.currentPacketStack.head?,
    d.startPacket.currentMessageBuffer.length + 1 = top.size.toNat ∧
    (top.isHeaderValue = true → top.value = d.startPacket.currentMessageBuffer ++ [b]) ∧
    (top.determinesSizeOf ≠ [] ∧ RemovedIn d.startPacket top.determinesSizeOf ∨
      top.sizeDeterminesExistenceOf ≠ [] ∧
        fieldNumber (d.startPacket.currentMessageBuffer ++ [b]) = 0 ∧
        RemovedIn d.startPacket top.sizeDeterminesExistenceOf)

instance (d : GenericDissector) (name : Str) : Decidable (RemovedIn d name) := by
  unfold RemovedIn; infer_instance

instance (d : GenericDissector) (b : UInt8) : Decidable (RuleMeetsRemoved d b) := by
  unfold RuleMeetsRemoved; infer_instance

/-- Within a packet of the template: `h` is delivered, `fs` is the rest of the template. -/
structure At (t : PacketDescriptor) (h : History) (fs : List FieldDescriptor) : Prop where
  layout : Layout h fs
  members : ∀ L ∈ h, L.1 ∈ t.fields
  later : ∀ f ∈ fs, f ∈ t.fields
  sizeTarget : ResolvesLater (·.determinesSizeOf) fs
  existenceTarget : ResolvesLater (·.sizeDeterminesExistenceOf) fs

namespace At

variable {t : PacketDescriptor} {h : History} {f : FieldDescriptor} {fs : List FieldDescriptor}

theorem mem (ha : At t h (f :: fs)) : f ∈ t.fields := ha.later f (.head _)

theorem tail (ha : At t h (f :: fs)) : At t h fs where
  layout := ha.layout.tail
  members := ha.members
  later g hg := ha.later g (.tail _ hg)
  sizeTarget := ha.sizeTarget.2
  existenceTarget := ha.existenceTarget.2

theorem deliver (ha : At t h (f :: fs)) (v : Bytes) : At t ((f, v) :: h) fs where
  layout := ha.layout.deliver v
  members := List.forall_mem_cons.mpr ⟨ha.mem, ha.members⟩
  later := ha.tail.later
  sizeTarget := ha.sizeTarget.2
  existenceTarget := ha.existenceTarget.2

theorem start (ht : WellFormed t) : At t [] t.fields where
  layout := ⟨ht.noCallback, .inr ⟨fun _ hL => absurd hL List.not_mem_nil, ht.distinct⟩⟩
  members := fun _ hL => absurd hL List.not_mem_nil
  later := fun _ hf => hf
  sizeTarget := ht.sizeTarget
  existenceTarget := ht.existenceTarget

end At

section Rules

variable {t : PacketDescriptor} {h : History} {f : FieldDescriptor} {fs : List FieldDescriptor}

/-- `RemovedIn`, of the fields delivered. -/
theorem removedIn_stateOf (ht : WellFormed t) (ha : At t h fs) (bytes : Bytes)
    {g : FieldDescriptor} (hg : g.name ≠ []) :
    RemovedIn (stateOf t h fs bytes) g.name ↔ removed h g = true := by
  simp only [RemovedIn, stateOf, delivered, List.mem_reverse, List.mem_map, removed,
    List.any_eq_true, removes, decide_eq_true_eq]
  constructor
  · rintro ⟨f', hf', _, ⟨L, hL, rfl⟩, hn, he, hv, h0⟩
    have hLf : L.1 = f' := List.inj_on_of_nodup_map ht.distinct (ha.members L hL) hf' hn
    subst hLf
    exact ⟨L, hL, hv, by rw [he]; exact hg, he, h0⟩
  · rintro ⟨L, hL, hv, -, he, h0⟩
    exact ⟨L.1, ha.members L hL, _, ⟨L, hL, rfl⟩, rfl, he, hv, h0⟩

/-- The size of a field with a reference is the template's. -/
theorem effectiveSize_of_reference (ht : WellFormed t) (ha : At t h (f :: fs))
    (hd : f.determinesSizeOf ≠ [] ∨ f.sizeDeterminesExistenceOf ≠ []) :
    effectiveSize h f = f.size.toNat := by
  have hnone : h.find? (sizes · f) = none := by
    simp only [List.find?_eq_none, sizes, decide_eq_true_eq, not_and]
    exact fun L hL _ hne => (ht.width f ha.mem hd).2 L.1 (ha.members L hL) hne
  rw [effectiveSize, hnone]

private theorem target_removed (ht : WellFormed t) (ha : At t h (f :: fs)) (bytes : Bytes)
    {name : Str} (hn : name ≠ []) (hg : ∃ g ∈ fs, g.name = name) :
    (∃ g ∈ fs, g.name = name ∧ removed h g = false) ↔
      ¬ RemovedIn (stateOf t h (f :: fs) bytes) name := by
  obtain ⟨g, hg, rfl⟩ := hg
  rw [removedIn_stateOf ht ha bytes hn, Bool.not_eq_true]
  constructor
  · rintro ⟨g', hg', he, hr⟩
    rwa [← List.inj_on_of_nodup_map ht.distinct (ha.tail.later _ hg') (ha.tail.later _ hg) he]
  · exact fun hr => ⟨g, hg, rfl, hr⟩

/-- **A completed field keeps its rules** when none of them is for a removed field. -/
theorem fieldOk_iff (ht : WellFormed t) (ha : At t h (f :: fs)) {v : Bytes}
    (hv : v.length = effectiveSize h f) (hh : f.isHeaderValue = true → f.value = v)
    (bytes : Bytes) :
    FieldOk h f v fs ↔
      ¬ (f.determinesSizeOf ≠ [] ∧ RemovedIn (stateOf t h (f :: fs) bytes) f.determinesSizeOf ∨
        f.sizeDeterminesExistenceOf ≠ [] ∧ fieldNumber v = 0 ∧
          RemovedIn (stateOf t h (f :: fs) bytes) f.sizeDeterminesExistenceOf) := by
  have hs := fun hd => target_removed ht ha bytes hd (ha.sizeTarget.1 hd)
  have he := fun hd => target_removed ht ha bytes hd (ha.existenceTarget.1 hd)
  constructor
  · rintro hok (⟨hd, hr⟩ | ⟨hd, h0, hr⟩)
    · exact (hs hd).mp (hok.sizeTarget hd) hr
    · exact (he hd).mp (hok.existenceTarget hd h0) hr
  · intro hno
    refine ⟨hh, fun hd => ?_, fun hd => (hs hd).mpr fun hr => hno (.inl ⟨hd, hr⟩),
      fun hd h0 => (he hd).mpr fun hr => hno (.inr ⟨hd, h0, hr⟩)⟩
    rw [hv, effectiveSize_of_reference ht ha hd]
    rcases (ht.width f ha.mem hd).1 with h | h | h | h <;> rw [h] <;> decide

end Rules

/-- Between two calls of a run without exceptions: within a packet, or just after one. -/
def Steady (t : PacketDescriptor) (d : GenericDissector) : Prop :=
  (∃ h f fs bytes, At t h (f :: fs) ∧ removed h f = false ∧ bytes.length < effectiveSize h f ∧
    d = stateOf t h (f :: fs) bytes) ∨
  d.currentPacketStack = [] ∧ d.currentMessageBuffer = [] ∧ d.packetTemplate = t

section Run

variable {t : PacketDescriptor}

theorem settled_steady {h : History} {fs : List FieldDescriptor} (ha : At t h fs) :
    (∃ r, (settled t h fs).1 = .ok r) ∧ Steady t (settled t h fs).2 := by
  induction fs generalizing h with
  | nil =>
    rw [settled_nil]
    exact ⟨⟨_, rfl⟩, .inr ⟨rfl, rfl, rfl⟩⟩
  | cons f fs ih =>
    cases hr : removed h f with
    | true =>
      rw [settled_removed hr]
      exact ih ha.tail
    | false =>
      by_cases hn : effectiveSize h f = 0
      · rw [settled_empty ha.layout hr hn]
        exact ih (ha.deliver [])
      · rw [settled_present hr hn]
        exact ⟨⟨_, rfl⟩, .inl ⟨h, f, fs, [], ha, hr, Nat.pos_of_ne_zero hn, rfl⟩⟩

theorem steady_make (ht : WellFormed t) : Steady t (make t) := by
  obtain ⟨f, fs, hf, hz⟩ := ht.first
  have ha := At.start ht
  rw [make_eq_stateOf]
  rw [hf] at ha ⊢
  refine .inl ⟨[], f, fs, [], ha, rfl, ?_, rfl⟩
  rw [effectiveSize_nil]
  exact Nat.pos_of_ne_zero fun e => hz (UInt16.toNat_inj.mp e)

/-- `RuleMeetsRemoved`, within a packet. -/
private theorem ruleMeetsRemoved_stateOf {h : History} {f : FieldDescriptor}
    {fs : List FieldDescriptor} {bytes : Bytes} (hr : removed h f = false) {b : UInt8} :
    RuleMeetsRemoved (stateOf t h (f :: fs) bytes) b ↔
      bytes.length + 1 = effectiveSize h f ∧ (f.isHeaderValue = true → f.value = bytes ++ [b]) ∧
        (f.determinesSizeOf ≠ [] ∧
            RemovedIn (stateOf t h (f :: fs) bytes) f.determinesSizeOf ∨
          f.sizeDeterminesExistenceOf ≠ [] ∧ fieldNumber (bytes ++ [b]) = 0 ∧
            RemovedIn (stateOf t h (f :: fs) bytes) f.sizeDeterminesExistenceOf) := by
  have hs : (stateOf t h (f :: fs) bytes).currentPacketStack = resize h f :: pending h fs :=
    stack_stateOf hr
  unfold RuleMeetsRemoved
  rw [startPacket_of_cons hs, hs]
  simp only [List.head?_cons, Option.mem_some_iff, exists_eq_left', resize_size]
  rfl

/-- A byte within a packet. -/
private theorem addByte_stateOf (ht : WellFormed t) {h : History} {f : FieldDescriptor}
    {fs : List FieldDescriptor} {bytes : Bytes} (ha : At t h (f :: fs)) (hr : removed h f = false)
    (hlen : bytes.length < effectiveSize h f) (b : UInt8) :
    ((∃ r, ((stateOf t h (f :: fs) bytes).addByte b).1 = .ok r) ↔
      ¬ RuleMeetsRemoved (stateOf t h (f :: fs) bytes) b) ∧
    ((∃ r, ((stateOf t h (f :: fs) bytes).addByte b).1 = .ok r) →
      Steady t ((stateOf t h (f :: fs) bytes).addByte b).2) := by
  rw [ruleMeetsRemoved_stateOf hr]
  by_cases hn : bytes.length + 1 < effectiveSize h f
  · rw [addByte_stateOf_waits ha.layout hr hn]
    refine ⟨⟨fun _ h => absurd h.1 (by omega), fun _ => ⟨_, rfl⟩⟩, fun _ => .inl ?_⟩
    exact ⟨h, f, fs, bytes ++ [b], ha, hr, by simpa using hn, rfl⟩
  · have hn : bytes.length + 1 = effectiveSize h f := by omega
    by_cases hh : f.isHeaderValue = true → f.value = bytes ++ [b]
    · have hv : (bytes ++ [b]).length = effectiveSize h f := by simpa using hn
      have hok := fieldOk_iff ht ha hv hh bytes
      by_cases hf : FieldOk h f (bytes ++ [b]) fs
      · rw [addByte_stateOf_completes ha.layout hr hn hf]
        obtain ⟨h1, h2⟩ := settled_steady (ha.deliver (bytes ++ [b]))
        exact ⟨⟨fun _ hbad => hok.mp hf hbad.2.2, fun _ => h1⟩, fun _ => h2⟩
      · obtain ⟨what, d, hd⟩ := addByte_stateOf_throws (t := t) ha.layout hr hn hh hf
        rw [hd]
        refine ⟨⟨fun ⟨r, h⟩ => (nomatch h), fun hno => ?_⟩, fun ⟨r, h⟩ => (nomatch h)⟩
        exact absurd ⟨hn, hh, not_not.mp (mt hok.mpr hf)⟩ hno
    · obtain ⟨hh1, hh2⟩ := Classical.not_imp.mp hh
      rw [addByte_stateOf_drops ha.layout hr hn hh1 hh2]
      refine ⟨⟨fun _ hbad => hh hbad.2.1, fun _ => ⟨_, rfl⟩⟩, fun _ => .inl ?_⟩
      exact ⟨h, f, fs, _, ha, hr, by simp; omega, rfl⟩

/-- **One call.** It returns exactly when the byte completes no field with a rule for a removed
field. -/
theorem Steady.addByte (ht : WellFormed t) {d : GenericDissector} (hd : Steady t d) (b : UInt8) :
    ((∃ r, (d.addByte b).1 = .ok r) ↔ ¬ RuleMeetsRemoved d b) ∧
      ((∃ r, (d.addByte b).1 = .ok r) → Steady t (d.addByte b).2) := by
  have hin : ∀ {d}, (∃ h f fs bytes, At t h (f :: fs) ∧ removed h f = false ∧
      bytes.length < effectiveSize h f ∧ d = stateOf t h (f :: fs) bytes) →
      ((∃ r, (d.addByte b).1 = .ok r) ↔ ¬ RuleMeetsRemoved d b) ∧
        ((∃ r, (d.addByte b).1 = .ok r) → Steady t (d.addByte b).2) := by
    rintro _ ⟨h, f, fs, bytes, ha, hr, hlen, rfl⟩
    exact addByte_stateOf ht ha hr hlen b
  rcases hd with hd | ⟨h1, h2, h3⟩
  · exact hin hd
  · -- the first byte of the next packet
    rcases steady_make ht with hm | ⟨he, -⟩
    · have hstart : d.startPacket = (make t).startPacket := by
        rw [startPacket_of_empty h1 h2, h3, startPacket_make]
      have hrule : RuleMeetsRemoved d b ↔ RuleMeetsRemoved (make t) b := by
        unfold RuleMeetsRemoved
        rw [hstart]
      rw [addByte_of_empty h1 h2, h3, hrule]
      exact hin hm
    · obtain ⟨f, fs, hf, -⟩ := ht.first
      simp [make, newPacket, makePacketStack, hf] at he

end Run

/-- **When no input makes a well-formed template fail.** A run of `addByte` from the constructor
returns from every call exactly when no byte of it completes a field with a rule for a field that
an earlier field of the same packet has removed. -/
theorem addByte_never_fails_iff {t : PacketDescriptor} (ht : WellFormed t) (s : Bytes) :
    AllReturn (make t) s ↔ Along addByte (fun d b => ¬ RuleMeetsRemoved d b) (make t) s := by
  rw [AllReturn, ← along_output]
  constructor
  · refine fun h => (h.mono_inv (I := Steady t) (fun d b hd hok => ?_) (steady_make ht)).1
    obtain ⟨h1, h2⟩ := hd.addByte ht b
    exact ⟨h1.mp hok, h2 hok⟩
  · refine fun h => (h.mono_inv (I := Steady t) (fun d b hd hno => ?_) (steady_make ht)).1
    obtain ⟨h1, h2⟩ := hd.addByte ht b
    exact ⟨h1.mpr hno, h2 (h1.mpr hno)⟩

/-- `A` removes `X`, and `B` gives `X` its size. -/
def twoRulesTemplate : PacketDescriptor where
  fields := [
    { name := lit "A", size := 1, sizeDeterminesExistenceOf := lit "X" },
    { name := lit "B", size := 1, determinesSizeOf := lit "X" },
    { name := lit "X", size := 1 }]

theorem wellFormed_twoRulesTemplate : WellFormed twoRulesTemplate where
  noCallback := by simp [twoRulesTemplate]
  distinct := by decide
  first := ⟨_, _, rfl, by decide⟩
  sizeTarget := by decide
  existenceTarget := by decide
  width := by decide

/-- On the bytes 0, 1 the second field does not find the field that the first one removed. -/
theorem addByte_fails_on_two_rules :
    ¬ ∀ t, WellFormed t → ∀ s, AllReturn (make t) s := by
  intro h
  have hf : .error (.runtimeError (lit "Field not found")) ∈
      outputs addByte (make twoRulesTemplate) [0, 1] := .tail _ (.head _)
  obtain ⟨r, hr⟩ := h _ wellFormed_twoRulesTemplate _ _ hf
  cases hr

/-- On the bytes 1, 1 no rule meets a removed field. -/
theorem addByte_never_fails_two_rules : AllReturn (make twoRulesTemplate) [1, 1] := by
  apply (addByte_never_fails_iff wellFormed_twoRulesTemplate [1, 1]).mpr
  exact ⟨by decide, by decide, trivial⟩

end Protos

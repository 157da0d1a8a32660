import ProtoTools.Dissection.Streaming

/-!
# Templates of fixed size

The fixed-size path of `addBytes`, against `addByte` and against the length of its span.

* `sliceFields bytes fs`: the fields of a packet, cut from the bytes one after the other.
* `addBytes_fixed`, `addBytes_fixed_undefined`: the path delivers the slices when the span holds
  them all, and takes a step outside it otherwise.
* `addBytes_in_bounds_iff`: when no slice lies outside the span.
* `addBytes_partitions`: the packet is a partition of the start of the span, and the object stays
  as it was.
* `matches_run`, `mismatch_run`: `addByte` on a span of the size of a packet.
* `fast_path_agrees_iff`: when the two paths agree.
-/

namespace Protos

open Machine GenericDissector

/-- The sum of the sizes of the fields. -/
def totalSize (fs : List FieldDescriptor) : Nat := (fs.map (·.size.toNat)).sum

/-- The fields cut from the bytes one after the other. -/
def sliceFields : Bytes → List FieldDescriptor → List FieldData
  | _, [] => []
  | bytes, f :: fs =>
    ⟨f.name, bytes.take f.size.toNat⟩ :: sliceFields (bytes.drop f.size.toNat) fs

@[simp] theorem totalSize_nil : totalSize [] = 0 := rfl

@[simp] theorem totalSize_cons (f : FieldDescriptor) (fs : List FieldDescriptor) :
    totalSize (f :: fs) = f.size.toNat + totalSize fs := by
  simp [totalSize]

theorem FieldDescriptor.hasFixedSize_iff (f : FieldDescriptor) : f.hasFixedSize = true ↔
    f.externalSizeCalculation = none ∧ f.determinesSizeOf = [] ∧
      f.sizeDeterminesExistenceOf = [] := by
  simp [hasFixedSize, and_assoc]

/-! ## The loop -/

section Loop

variable {d : GenericDissector} {bytes : Bytes} {f : FieldDescriptor} {fs : List FieldDescriptor}

/-- The loop has seen no reference. -/
private def noRefs (i : Nat) (packet : PacketData) : FixedState :=
  { currentDataIndex := i, packet }

private theorem fixedStep_fixed (hf : f.hasFixedSize = true) {i : Nat} (packet : PacketData)
    (h1 : i + f.size.toNat ≤ bytes.length) (h2 : i + f.size.toNat ≤ intMax) :
    d.fixedStep bytes (noRefs i packet) f = .ok (noRefs (i + f.size.toNat)
      (packet.add ⟨f.name, (bytes.drop i).take f.size.toNat⟩)) := by
  obtain ⟨-, hd, he⟩ := f.hasFixedSize_iff.mp hf
  unfold fixedStep
  by_cases hz : f.size = 0
  · simp [noRefs, FixedState.fieldSize, hz]
  · simp [noRefs, FixedState.fieldSize, hz, hd, he, Nat.not_lt.mpr h1, Nat.not_lt.mpr h2]

private theorem fixedStep_outside {i : Nat} (packet : PacketData) (h1 : i ≤ bytes.length)
    (h2 : i ≤ intMax) (h : ¬ (i + f.size.toNat ≤ bytes.length ∧ i + f.size.toNat ≤ intMax)) :
    ∃ u, (u = .sliceOutside ∨ u = .intOverflow) ∧
      d.fixedStep bytes (noRefs i packet) f = .error (.undefined u) := by
  have hz : f.size ≠ 0 := by
    intro hz
    rw [hz] at h
    exact h ⟨h1, h2⟩
  unfold fixedStep
  by_cases hl : i + f.size.toNat ≤ bytes.length
  · have hi : intMax < i + f.size.toNat := by omega
    exact ⟨_, .inr rfl, by simp [noRefs, FixedState.fieldSize, hz, Nat.not_lt.mpr hl, hi]⟩
  · have hl : bytes.length < i + f.size.toNat := by omega
    exact ⟨_, .inl rfl, by simp [noRefs, FixedState.fieldSize, hz, hl]⟩

private theorem fixedLoop_fits (hf : ∀ g ∈ fs, g.hasFixedSize = true) {i : Nat}
    (packet : PacketData) (h1 : i + totalSize fs ≤ bytes.length)
    (h2 : i + totalSize fs ≤ intMax) :
    d.fixedLoop bytes (noRefs i packet) fs = .ok (noRefs (i + totalSize fs)
      { packet with fields := packet.fields ++ sliceFields (bytes.drop i) fs }) := by
  induction fs generalizing i packet with
  | nil => simp [fixedLoop, sliceFields]
  | cons f fs ih =>
    rw [totalSize_cons] at h1 h2
    rw [fixedLoop, fixedStep_fixed (hf f (.head _)) packet (by omega) (by omega)]
    simp only
    rw [ih (fun g hg => hf g (.tail _ hg)) _ (by omega) (by omega)]
    simp [sliceFields, Nat.add_assoc]

private theorem fixedLoop_outside (hf : ∀ g ∈ fs, g.hasFixedSize = true) {i : Nat}
    (packet : PacketData) (h1 : i ≤ bytes.length) (h2 : i ≤ intMax)
    (h : ¬ (i + totalSize fs ≤ bytes.length ∧ i + totalSize fs ≤ intMax)) :
    ∃ u, (u = .sliceOutside ∨ u = .intOverflow) ∧
      d.fixedLoop bytes (noRefs i packet) fs = .error (.undefined u) := by
  induction fs generalizing i packet with
  | nil => exact absurd ⟨h1, h2⟩ h
  | cons f fs ih =>
    rw [totalSize_cons] at h
    rw [fixedLoop]
    by_cases hstep : i + f.size.toNat ≤ bytes.length ∧ i + f.size.toNat ≤ intMax
    · rw [fixedStep_fixed (hf f (.head _)) packet hstep.1 hstep.2]
      exact ih (fun g hg => hf g (.tail _ hg)) _ hstep.1 hstep.2 (by omega)
    · obtain ⟨u, hu, he⟩ := fixedStep_outside (d := d) packet h1 h2 hstep
      exact ⟨u, hu, by rw [he]⟩

end Loop

section AddBytes

variable {d : GenericDissector} {s : Bytes}

private theorem fixed_fields {t : PacketDescriptor} (ht : t.isFixedSize = true) :
    ∀ g ∈ t.fields, g.hasFixedSize = true := by
  simpa [PacketDescriptor.isFixedSize] using ht

/-- The fixed-size path on a span that holds a packet. -/
theorem addBytes_fixed (ht : d.packetTemplate.isFixedSize = true)
    (h1 : getPacketSize d.packetTemplate ≤ s.length)
    (h2 : getPacketSize d.packetTemplate ≤ intMax) :
    d.addBytes s =
      (.ok (some ⟨d.packetTemplate.getName, sliceFields s d.packetTemplate.fields⟩), d) := by
  have hloop := fixedLoop_fits (d := d) (fixed_fields ht) (i := 0)
    { name := d.packetTemplate.getName } (by rw [Nat.zero_add]; exact h1)
    (by rw [Nat.zero_add]; exact h2)
  rw [noRefs] at hloop
  rw [addBytes, if_pos ht, hloop]
  simp [noRefs]

/-- The fixed-size path on a span that is too short, or with an index that overflows. -/
theorem addBytes_fixed_undefined (ht : d.packetTemplate.isFixedSize = true)
    (h : ¬ (getPacketSize d.packetTemplate ≤ s.length ∧
      getPacketSize d.packetTemplate ≤ intMax)) :
    ∃ u, (u = .sliceOutside ∨ u = .intOverflow) ∧
      d.addBytes s = (.error (.undefined u), d) := by
  obtain ⟨u, hu, hloop⟩ := fixedLoop_outside (d := d) (fixed_fields ht) (i := 0)
    { name := d.packetTemplate.getName } (Nat.zero_le _) (Nat.zero_le _)
    (by rw [Nat.zero_add]; exact h)
  rw [noRefs] at hloop
  exact ⟨u, hu, by rw [addBytes, if_pos ht, hloop]⟩

theorem streamLoop_undefined {u : Undefined} (h : (d.streamLoop s).1 = .error (.undefined u)) :
    u = .frontOfEmpty ∨ u = .eraseOutside := by
  induction s generalizing d with
  | nil => simp [streamLoop] at h
  | cons b s ih =>
    rw [streamLoop] at h
    split at h
    · rename_i hb
      cases h
      exact addByte_undefined (congrArg Prod.fst hb)
    · simp at h
    · exact ih h

end AddBytes

/-- Every slice that `addBytes` takes lies inside the span (and its index is defined), and a span
shorter than a packet of a fixed-size template gives `nullopt`. -/
def InBounds (d : GenericDissector) (bytes : Bytes) : Prop :=
  (d.addBytes bytes).1 ≠ .error (.undefined .sliceOutside) ∧
  (d.addBytes bytes).1 ≠ .error (.undefined .intOverflow) ∧
  (d.packetTemplate.isFixedSize = true → bytes.length < getPacketSize d.packetTemplate →
    (d.addBytes bytes).1 = .ok none)

/-- **When `addBytes` stays inside its span.** For a template that is not of fixed size always;
for a fixed-size template exactly on the spans that hold a whole packet, of less than `2 ^ 31`
bytes. -/
theorem addBytes_in_bounds_iff (d : GenericDissector) (bytes : Bytes) :
    InBounds d bytes ↔ (d.packetTemplate.isFixedSize = true →
      getPacketSize d.packetTemplate ≤ bytes.length ∧
        getPacketSize d.packetTemplate ≤ intMax) := by
  unfold InBounds
  by_cases ht : d.packetTemplate.isFixedSize = true
  · by_cases hfit : getPacketSize d.packetTemplate ≤ bytes.length ∧
      getPacketSize d.packetTemplate ≤ intMax
    · rw [addBytes_fixed ht hfit.1 hfit.2]
      exact ⟨fun _ _ => hfit, fun _ => ⟨by simp, by simp, fun _ h => absurd hfit.1 (by omega)⟩⟩
    · obtain ⟨u, hu, he⟩ := addBytes_fixed_undefined ht hfit
      rw [he]
      refine ⟨fun h => ?_, fun h => absurd (h ht) hfit⟩
      rcases hu with rfl | rfl
      · exact absurd rfl h.1
      · exact absurd rfl h.2.1
  · have he : d.addBytes bytes = d.streamLoop bytes := by rw [addBytes, if_neg ht]
    rw [he]
    refine ⟨fun _ h => absurd h ht, fun _ => ⟨fun h => ?_, fun h => ?_, fun h => absurd h ht⟩⟩
    · rcases streamLoop_undefined h with h | h <;> cases h
    · rcases streamLoop_undefined h with h | h <;> cases h

/-- One field of one byte. -/
def byteTemplate : PacketDescriptor where
  fields := [{ name := lit "A", size := 1 }]

/-- The empty span for a packet of one byte. -/
theorem addBytes_reads_past_end : ¬ ∀ (d : GenericDissector) (bytes : Bytes), InBounds d bytes := by
  intro h
  exact (h (make byteTemplate) []).1 rfl

/-! ## The span of a packet, cut into its fields -/

section Partition

variable {d : GenericDissector} {bytes : Bytes}

theorem length_sliceFields {fs : List FieldDescriptor} (h : totalSize fs ≤ bytes.length) :
    (sliceFields bytes fs).map (·.value.length) = fs.map (·.size.toNat) := by
  induction fs generalizing bytes with
  | nil => rfl
  | cons f fs ih =>
    rw [totalSize_cons] at h
    have hrest := @ih (bytes.drop f.size.toNat) (by rw [List.length_drop]; omega)
    rw [sliceFields, List.map_cons, List.map_cons, hrest, List.length_take]
    congr 1
    omega

/-- The slices, one after the other, are the start of the bytes. -/
theorem flatMap_sliceFields (bytes : Bytes) (fs : List FieldDescriptor) :
    (sliceFields bytes fs).flatMap (·.value) = bytes.take (totalSize fs) := by
  induction fs generalizing bytes with
  | nil => simp [sliceFields]
  | cons f fs ih => rw [sliceFields, List.flatMap_cons, ih, totalSize_cons, List.take_add]

/-- The loop of the fixed-size path reaches every field without an entry in `field_sizes` or
`removed_fields`, and the field makes none: the branches that track sizes and existence are not
taken. -/
def NothingTracked (d : GenericDissector) (bytes : Bytes) : Prop :=
  ∀ before field rest, d.packetTemplate.fields = before ++ field :: rest →
    ∃ s, d.fixedLoop bytes { packet := { name := d.packetTemplate.getName } } before = .ok s ∧
      s.fieldSizes = [] ∧ s.removedFields = [] ∧ field.determinesSizeOf = [] ∧
      field.sizeDeterminesExistenceOf = []

theorem nothingTracked_of_fixed (ht : d.packetTemplate.isFixedSize = true)
    (h1 : getPacketSize d.packetTemplate ≤ bytes.length)
    (h2 : getPacketSize d.packetTemplate ≤ intMax) : NothingTracked d bytes := by
  intro before field rest hfs
  have hsize : getPacketSize d.packetTemplate = totalSize before + totalSize (field :: rest) := by
    simp [getPacketSize, totalSize, hfs]
  have hfixed := fixed_fields ht
  rw [hfs, List.forall_mem_append, List.forall_mem_cons] at hfixed
  obtain ⟨-, hd, he⟩ := field.hasFixedSize_iff.mp hfixed.2.1
  exact ⟨_, fixedLoop_fits hfixed.1 (i := 0) { name := d.packetTemplate.getName } (by omega)
    (by omega), rfl, rfl, hd, he⟩

/-- `addBytes` returns the packet, made of consecutive slices of the bytes with the sizes of the
template, and leaves the dissector as it was. -/
structure Partitions (d : GenericDissector) (bytes : Bytes) (packet : PacketData) : Prop where
  returns : d.addBytes bytes = (.ok (some packet), d)
  name : packet.name = d.packetTemplate.name
  fields : packet.fields = sliceFields bytes d.packetTemplate.fields
  sizes : packet.fields.map (·.value.length) = d.packetTemplate.fields.map (·.size.toNat)
  buffer : packetDataToBuffer packet = bytes.take (getPacketSize d.packetTemplate)
  untracked : NothingTracked d bytes
  continues : ∀ more, outputs addByte (d.addBytes bytes).2 more = outputs addByte d more ∧
    after addByte (d.addBytes bytes).2 more = after addByte d more

/-- **The fixed-size path partitions its input** and leaves every dissector as it was, one in the
middle of a packet as well. -/
theorem addBytes_partitions (ht : d.packetTemplate.isFixedSize = true)
    (hn : getPacketSize d.packetTemplate < 2 ^ 31)
    (hb : getPacketSize d.packetTemplate ≤ bytes.length) :
    ∃ packet, Partitions d bytes packet := by
  have hmax : getPacketSize d.packetTemplate ≤ intMax := Nat.le_sub_one_of_lt hn
  have hreturns := addBytes_fixed (d := d) ht hb hmax
  exact ⟨_, {
    returns := hreturns
    name := rfl
    fields := rfl
    sizes := length_sliceFields hb
    buffer := (packetDataToBuffer_eq _).trans (flatMap_sliceFields _ _)
    untracked := nothingTracked_of_fixed ht hb hmax
    continues := fun more => by rw [hreturns]; exact ⟨rfl, rfl⟩ }⟩

/-- A field of two bytes, an empty one and a field of one byte. -/
def twoOneTemplate : PacketDescriptor where
  fields := [{ name := lit "A", size := 2 }, { name := lit "E" }, { name := lit "B", size := 1 }]
  name := lit "P"

/-- In the middle of the first field, with a span that is longer than a packet. -/
theorem addBytes_partitions_two_one :
    ∃ packet, Partitions ((make twoOneTemplate).addByte 9).2 [1, 2, 3, 4] packet :=
  addBytes_partitions (by decide) (by decide) (by decide)

end Partition

/-! ## The two paths -/

/-- The value of every header field of at least one byte is in its place in the bytes. -/
def HeadersMatch : Bytes → List FieldDescriptor → Prop
  | _, [] => True
  | bytes, f :: fs => (f.isHeaderValue = true → f.size ≠ 0 → f.value = bytes.take f.size.toNat) ∧
      HeadersMatch (bytes.drop f.size.toNat) fs

instance decidableHeadersMatch : ∀ bytes fs, Decidable (HeadersMatch bytes fs)
  | _, [] => .isTrue trivial
  | bytes, f :: fs =>
    have := decidableHeadersMatch (bytes.drop f.size.toNat) fs
    inferInstanceAs (Decidable (_ ∧ _))

section Paths

variable {t : PacketDescriptor} {h : History} {f : FieldDescriptor} {fs : List FieldDescriptor}

/-- The fields still to come and those delivered are of fixed size. -/
structure AllFixed (h : History) (fs : List FieldDescriptor) : Prop where
  past : ∀ L ∈ h, L.1.hasFixedSize = true
  coming : ∀ g ∈ fs, g.hasFixedSize = true

namespace AllFixed

theorem tail (ha : AllFixed h (f :: fs)) : AllFixed h fs :=
  ⟨ha.past, fun g hg => ha.coming g (.tail _ hg)⟩

theorem deliver (ha : AllFixed h (f :: fs)) (v : Bytes) : AllFixed ((f, v) :: h) fs :=
  ⟨List.forall_mem_cons.mpr ⟨ha.coming f (.head _), ha.past⟩, ha.tail.coming⟩

theorem layout (ha : AllFixed h fs) : Layout h fs where
  plain g hg := (g.hasFixedSize_iff.mp (ha.coming g hg)).1
  names := .inl fun g hg => (g.hasFixedSize_iff.mp (ha.coming g hg)).2

theorem removed (ha : AllFixed h fs) (g : FieldDescriptor) : removed h g = false := by
  simp only [Protos.removed, List.any_eq_false, removes, decide_eq_true_eq, not_and]
  exact fun L hL _ hne => absurd (L.1.hasFixedSize_iff.mp (ha.past L hL)).2.2 hne

theorem effectiveSize (ha : AllFixed h fs) (g : FieldDescriptor) :
    effectiveSize h g = g.size.toNat := by
  have hnone : h.find? (sizes · g) = none := by
    simp only [List.find?_eq_none, sizes, decide_eq_true_eq, not_and]
    exact fun L hL _ hne => absurd (L.1.hasFixedSize_iff.mp (ha.past L hL)).2.1 hne
  rw [Protos.effectiveSize, hnone]

/-- A field without references keeps its rules when it is no header, or the header. -/
theorem fieldOk (ha : AllFixed h (f :: fs)) {v : Bytes}
    (hh : f.isHeaderValue = true → f.value = v) : FieldOk h f v fs := by
  obtain ⟨-, hd, he⟩ := f.hasFixedSize_iff.mp (ha.coming f (.head _))
  exact ⟨hh, fun hr => by simp [hd, he] at hr, fun hr => absurd hd hr, fun hr => absurd he hr⟩

end AllFixed

/-- The slices of matching bytes conform to the fields. -/
theorem conforms_sliceFields (ha : AllFixed h fs) {s : Bytes} (hs : s.length = totalSize fs)
    (hm : HeadersMatch s fs) : Conforms h fs (sliceFields s fs) := by
  induction fs generalizing h s with
  | nil => exact .nil h
  | cons f fs ih =>
    rw [totalSize_cons] at hs
    have hv : (s.take f.size.toNat).length = f.size.toNat := by rw [List.length_take]; omega
    have hrest := ih (ha.deliver (s.take f.size.toNat)) (by rw [List.length_drop]; omega) hm.2
    refine .present (ha.removed f) (by rw [ha.effectiveSize, hv])
      (fun hne => ha.fieldOk fun hh => ?_) hrest
    exact hm.1 hh fun hz => hne (by rw [hz]; rfl)

theorem encode_sliceFields {s : Bytes} (hs : s.length = totalSize fs) :
    encode (sliceFields s fs) = s := by
  induction fs generalizing s with
  | nil => exact (List.length_eq_zero_iff.mp hs).symm
  | cons f fs ih =>
    rw [totalSize_cons] at hs
    rw [sliceFields, encode_cons, ih (by rw [List.length_drop]; omega), List.take_append_drop]

/-- A field that needs bytes comes after the empty ones. -/
theorem settled_short (ha : AllFixed h fs) (hpos : 0 < totalSize fs) :
    ∃ h' f' fs', AllFixed h' (f' :: fs') ∧ 0 < f'.size.toNat ∧
      totalSize (f' :: fs') = totalSize fs ∧
      settled t h fs = (.ok none, stateOf t h' (f' :: fs') []) := by
  induction fs generalizing h with
  | nil => exact absurd hpos (Nat.lt_irrefl 0)
  | cons f fs ih =>
    by_cases hz : f.size.toNat = 0
    · rw [totalSize_cons, hz, Nat.zero_add] at hpos
      obtain ⟨h', f', fs', h1, h2, h3, h4⟩ := ih (ha.deliver []) hpos
      refine ⟨h', f', fs', h1, h2, by rw [h3, totalSize_cons, hz, Nat.zero_add], ?_⟩
      rw [settled_empty ha.layout (ha.removed f) (by rw [ha.effectiveSize, hz]), h4]
    · refine ⟨h, f, fs, ha, Nat.pos_of_ne_zero hz, rfl, ?_⟩
      exact settled_present (ha.removed f) (by rwa [ha.effectiveSize])

/-- **Fewer bytes than the packet still needs** deliver nothing. -/
theorem run_short {s bytes : Bytes} (ha : AllFixed h (f :: fs))
    (hb : bytes.length < f.size.toNat) (hs : bytes.length + s.length < totalSize (f :: fs)) :
    ∀ o ∈ outputs addByte (stateOf t h (f :: fs) bytes) s, o = .ok none := by
  induction s generalizing h f fs bytes with
  | nil => exact fun o ho => absurd ho List.not_mem_nil
  | cons b s ih =>
    have hsize := ha.effectiveSize f
    rw [List.length_cons] at hs
    rw [outputs_cons, List.forall_mem_cons]
    by_cases hn : bytes.length + 1 < f.size.toNat
    · rw [addByte_stateOf_waits ha.layout (ha.removed f) (by rwa [hsize])]
      refine ⟨rfl, ih ha (by simpa using hn) ?_⟩
      rw [List.length_append, List.length_singleton]
      omega
    · have hn : bytes.length + 1 = effectiveSize h f := by omega
      by_cases hh : f.isHeaderValue = true → f.value = bytes ++ [b]
      · rw [addByte_stateOf_completes ha.layout (ha.removed f) hn (ha.fieldOk hh)]
        rw [totalSize_cons] at hs
        obtain ⟨h', f', fs', h1, h2, h3, h4⟩ :=
          settled_short (t := t) (ha.deliver (bytes ++ [b])) (by omega)
        rw [h4]
        exact ⟨rfl, ih h1 h2 (by rw [h3]; simp; omega)⟩
      · obtain ⟨hh1, hh2⟩ := Classical.not_imp.mp hh
        rw [addByte_stateOf_drops ha.layout (ha.removed f) hn hh1 hh2]
        have hlen : (bytes ++ [b]).tail.length = bytes.length := by simp
        exact ⟨rfl, ih ha (by rwa [hlen]) (by rw [hlen]; omega)⟩

/-- **A header that does not match**: the span of a packet does not deliver one. -/
theorem mismatch_run {s : Bytes} (ha : AllFixed h fs) (hs : s.length = totalSize fs)
    (hm : ¬ HeadersMatch s fs) :
    ∀ o ∈ (settled t h fs).1 :: outputs addByte (settled t h fs).2 s, o = .ok none := by
  induction fs generalizing h s with
  | nil => exact absurd trivial hm
  | cons f fs ih =>
    have hsize := ha.effectiveSize f
    rw [totalSize_cons] at hs
    by_cases hz : f.size.toNat = 0
    · have hz' : f.size = 0 := UInt16.toNat_inj.mp hz
      rw [settled_empty ha.layout (ha.removed f) (by rw [hsize, hz])]
      refine ih (ha.deliver []) (by omega) fun hrest => hm ⟨fun _ hne => absurd hz' hne, ?_⟩
      rwa [hz, List.drop_zero]
    · obtain ⟨v, s', rfl, hv⟩ : ∃ v s', s = v ++ s' ∧ v.length = f.size.toNat :=
        ⟨_, _, (List.take_append_drop f.size.toNat s).symm, by rw [List.length_take]; omega⟩
      have htake : (v ++ s').take f.size.toNat = v := by rw [← hv]; exact List.take_left
      have hdrop : (v ++ s').drop f.size.toNat = s' := by rw [← hv]; exact List.drop_left
      have hne : v ≠ [] := by rintro rfl; exact hz hv.symm
      rw [List.length_append, hv] at hs
      rw [settled_present (ha.removed f) (by rwa [hsize]), outputs_append, List.forall_mem_cons,
        List.forall_mem_append]
      by_cases hh : f.isHeaderValue = true → f.value = v
      · -- this field is in order: the mismatch comes later
        obtain ⟨h1, h2⟩ := run_field (t := t) ha.layout (ha.removed f) (by rw [hsize, hv]) hne
          (ha.fieldOk hh)
        have hrest : ¬ HeadersMatch s' fs := fun hrest =>
          hm ⟨fun hhd _ => by rw [htake]; exact hh hhd, by rwa [hdrop]⟩
        obtain ⟨q1, q2⟩ := List.forall_mem_cons.mp (ih (ha.deliver v) (by omega) hrest)
        rw [h1, h2, q1, List.forall_mem_append]
        exact ⟨rfl, ⟨fun o ho => List.eq_of_mem_replicate ho, List.forall_mem_singleton.mpr rfl⟩,
          q2⟩
      · -- one byte is dropped, so the rest of the span is too short
        obtain ⟨hh1, hh2⟩ := Classical.not_imp.mp hh
        obtain ⟨h1, h2⟩ := run_drops (t := t) ha.layout (ha.removed f) (by rw [hsize, hv]) hne hh1
          hh2
        have hpos := List.length_pos_iff.mpr hne
        rw [h1, h2]
        refine ⟨rfl, fun o ho => List.eq_of_mem_replicate ho, run_short ha ?_ ?_⟩
        · rw [List.length_tail]; omega
        · rw [List.length_tail, totalSize_cons]; omega

/-- **Headers that match**: the span of a packet delivers its slices. -/
theorem matches_run {s : Bytes} (ha : AllFixed h fs) (hs : s.length = totalSize fs)
    (hm : HeadersMatch s fs) :
    (settled t h fs).1 :: outputs addByte (settled t h fs).2 s =
      List.replicate s.length (.ok none) ++
        [.ok (some { fields := delivered h ++ sliceFields s fs })] := by
  have hrun := (conforms_run (t := t) ha.layout (conforms_sliceFields ha hs hm)).1
  rwa [encode_sliceFields hs] at hrun

end Paths

/-- A template of fixed size whose first field is not empty. -/
structure FixedTemplate (t : PacketDescriptor) : Prop where
  fixed : t.isFixedSize = true
  first : ∃ f fs, t.fields = f :: fs ∧ f.size ≠ 0

/-- The last answer of `addByte` on the bytes. -/
def lastAnswer (d : GenericDissector) (bytes : Bytes) :
    Option (Except Fault (Option PacketData)) := (outputs addByte d bytes).getLast?

/-- `addBytes` takes only steps with a meaning, it returns a packet exactly when `addByte` does on
the last byte, and the two packets have the same fields. -/
def PathsAgree (d : GenericDissector) (bytes : Bytes) : Prop :=
  (∀ u, (d.addBytes bytes).1 ≠ .error (.undefined u)) ∧
  ((∃ p, (d.addBytes bytes).1 = .ok (some p)) ↔
    ∃ q, lastAnswer d bytes = some (.ok (some q))) ∧
  ∀ p q, (d.addBytes bytes).1 = .ok (some p) → lastAnswer d bytes = some (.ok (some q)) →
    p.fields = q.fields

namespace FixedTemplate

variable {t : PacketDescriptor}

theorem allFixed (ht : FixedTemplate t) : AllFixed [] t.fields :=
  ⟨fun _ hL => absurd hL List.not_mem_nil, fixed_fields ht.fixed⟩

theorem getPacketSize_pos (ht : FixedTemplate t) : 0 < getPacketSize t := by
  obtain ⟨f, fs, hf, hz⟩ := ht.first
  have hpos : f.size.toNat ≠ 0 := fun e => hz (UInt16.toNat_inj.mp e)
  rw [getPacketSize, hf, List.map_cons, List.sum_cons]
  omega

/-- Headers that match, from the constructor on: `nullopt` up to the last byte. -/
theorem outputs_of_match (ht : FixedTemplate t) {s : Bytes} (hs : s.length = getPacketSize t)
    (hm : HeadersMatch s t.fields) : outputs addByte (make t) s =
      List.replicate (s.length - 1) (.ok none) ++
        [.ok (some { fields := sliceFields s t.fields })] := by
  have hrun := matches_run (t := t) ht.allFixed hs hm
  obtain ⟨n, hn⟩ : ∃ n, s.length = n + 1 :=
    ⟨_, (Nat.succ_pred_eq_of_pos (hs ▸ ht.getPacketSize_pos)).symm⟩
  rw [settled_make ht.first, hn, List.replicate_succ, List.cons_append, List.cons.injEq] at hrun
  rw [hrun.2, hn]
  rfl

/-- The last answer of `addByte` on the span of a packet. -/
theorem lastAnswer_eq (ht : FixedTemplate t) {d : GenericDissector} (hd : AtBoundary t d)
    {s : Bytes} (hs : s.length = getPacketSize t) :
    lastAnswer d s =
      if HeadersMatch s t.fields then some (.ok (some { fields := sliceFields s t.fields }))
      else some (.ok none) := by
  have hne : s ≠ [] := by
    rintro rfl
    exact absurd hs (Nat.ne_of_lt ht.getPacketSize_pos)
  have ho : outputs addByte d s = outputs addByte (make t) s := (hd.run hne).1
  have hone : outputs addByte (make t) s ≠ [] := by
    rw [Ne, ← List.length_eq_zero_iff, length_outputs, List.length_eq_zero_iff]
    exact hne
  rw [lastAnswer, ho]
  by_cases hm : HeadersMatch s t.fields
  · rw [if_pos hm, ht.outputs_of_match hs hm, List.getLast?_concat]
  · have hrun := mismatch_run (t := t) ht.allFixed hs hm
    rw [settled_make ht.first, List.forall_mem_cons] at hrun
    rw [if_neg hm, List.getLast?_eq_some_getLast hone, hrun.2 _ (List.getLast_mem hone)]

end FixedTemplate

/-- **When the fixed-size path agrees with `addByte`.** On the span of a packet, from a packet
boundary: exactly when every header field of the span has its value, and the size of the packet is
less than `2 ^ 31`. -/
theorem fast_path_agrees_iff {t : PacketDescriptor} (ht : FixedTemplate t) {d : GenericDissector}
    (hd : AtBoundary t d) {s : Bytes} (hs : s.length = getPacketSize t) :
    PathsAgree d s ↔ HeadersMatch s t.fields ∧ getPacketSize t ≤ intMax := by
  have hdt : d.packetTemplate = t := hd.packetTemplate
  have hfixed : d.packetTemplate.isFixedSize = true := by rw [hdt]; exact ht.fixed
  unfold PathsAgree
  rw [ht.lastAnswer_eq hd hs]
  by_cases hsize : getPacketSize t ≤ intMax
  · rw [addBytes_fixed hfixed (by rw [hdt, hs]) (by rwa [hdt]), hdt]
    by_cases hm : HeadersMatch s t.fields
    · simp [hm, hsize]
    · simp [hm]
  · obtain ⟨u, -, hu⟩ := addBytes_fixed_undefined (d := d) (s := s) hfixed
      (by rw [hdt]; exact fun h => hsize h.2)
    rw [hu]
    exact ⟨fun h => absurd rfl (h.1 u), fun h => absurd h.2 hsize⟩

/-- One header field of one byte. -/
def headerTemplate : PacketDescriptor where
  fields := [{ name := lit "H", size := 1, value := [0xAA], isHeaderValue := true }]

theorem fixedTemplate_headerTemplate : FixedTemplate headerTemplate where
  fixed := rfl
  first := ⟨_, _, rfl, by decide⟩

/-- A byte that is not the header is a packet of `addBytes` and none of `addByte`. -/
theorem fast_path_ignores_header :
    ¬ ∀ (t : PacketDescriptor) (d : GenericDissector) (s : Bytes), FixedTemplate t →
      AtBoundary t d → s.length = getPacketSize t →
      ((∃ p, (d.addBytes s).1 = .ok (some p)) ↔ ∃ q, lastAnswer d s = some (.ok (some q))) := by
  intro h
  obtain ⟨q, hq⟩ := (h headerTemplate (make headerTemplate) [0] fixedTemplate_headerTemplate
    (.inl rfl) rfl).mp ⟨_, rfl⟩
  cases hq

/-- A header field of two bytes, and a data field. -/
def headerDataTemplate : PacketDescriptor where
  fields := [{ name := lit "H", size := 2, value := [0xAA, 0x55], isHeaderValue := true },
    { name := lit "D", size := 3 }]

theorem fast_path_agrees_header :
    PathsAgree (make headerDataTemplate) [0xAA, 0x55, 1, 2, 3] :=
  (fast_path_agrees_iff ⟨rfl, _, _, rfl, by decide⟩ (.inl rfl) rfl).mpr ⟨by decide, by decide⟩

end Protos

import ProtoTools.Dissection.Encoding
import ProtoTools.Interpretation.PacketInterpreter

/-!
# Set, encode, dissect, interpret

A number set into each field of a descriptor, encoded, dissected by the descriptor itself and
interpreted.

* `Plain pd`: a descriptor of fields of 1, 2, 4 or 8 bytes without rules. `Assigns`: numbers for
  its fields that fit. `Interprets`: one leaf for each field.
* `RoundTrips`: the numbers come back, by `addByte` and by `addBytes`.
* `set_encode_dissect_interpret_iff`: this holds exactly for packets of less than `2 ^ 31` bytes.
-/

namespace Protos

open Machine GenericDissector

/-- At least one field, distinct names, no rules, no callbacks, sizes of 1, 2, 4 or 8 bytes. -/
structure Plain (pd : PacketDescriptor) : Prop where
  nonempty : pd.fields ≠ []
  distinct : (pd.fields.map (·.name)).Nodup
  fixed : ∀ f ∈ pd.fields, f.hasFixedSize = true
  width : ∀ f ∈ pd.fields, NumberWidth f.size.toNat

/-- What the fields with the names are set to, in the order of the calls: the size of the integer
type of the call, the number, and whether the field is interpreted as a signed number. -/
structure Assignment where
  order : List Str
  sizeofT : Str → Nat
  value : Str → Int
  signed : Str → Bool

/-- Each field is set once, by a type that is wide enough, to a number that fits. -/
structure Assigns (a : Assignment) (pd : PacketDescriptor) : Prop where
  order : a.order.Perm (pd.fields.map (·.name))
  wide : ∀ f ∈ pd.fields, f.size.toNat ≤ a.sizeofT f.name
  fits : ∀ f ∈ pd.fields, FitsIn (a.signed f.name) f.size.toNat (a.value f.name)

/-- Each field has a leaf without mapper, of the type of its number. -/
def Interprets (g : GenericPacketInterpreter) (a : Assignment) (pd : PacketDescriptor) : Prop :=
  ∀ f ∈ pd.fields, ∃ fi, g.fields.lookup f.name = some fi ∧ fi.IsPlainLeaf ∧
    fi.type = if a.signed f.name then .integer else .unsignedInteger

/-- The number assigned to the name, as a value. -/
def Assignment.variant (a : Assignment) (name : Str) : Variant :=
  if a.signed name then .int64 (Int64.ofInt (a.value name))
  else .uint64 (UInt64.ofNat (a.value name).toNat)

/-- The interpretation of the packet is the numbers assigned, one per field, in field order. -/
def ReadsBack (g : GenericPacketInterpreter) (a : Assignment) (pd : PacketDescriptor)
    (packet : PacketData) : Prop :=
  ∀ o, ∃ results, g.interpretPacketData packet o = (.ok results, o) ∧
    results.map (·.name) = pd.fields.map (·.name) ∧
    results.map (·.value) = pd.fields.map fun f => a.variant f.name

/-- The numbers set and encoded are dissected, by `addByte` at the last byte and by one call of
`addBytes`, and interpreted as what they were. -/
def RoundTrips (pd : PacketDescriptor) (a : Assignment) (g : GenericPacketInterpreter) : Prop :=
  ∃ pd' buffer packet packet',
    setEach a.sizeofT a.value a.order pd = .ok pd' ∧
    packetDescriptorToBuffer pd' false = .ok buffer ∧
    outputs addByte (make pd') buffer =
      List.replicate (buffer.length - 1) (.ok none) ++ [.ok (some packet)] ∧
    ((make pd').addBytes buffer).1 = .ok (some packet') ∧
    ReadsBack g a pd packet ∧ ReadsBack g a pd packet'

/-- The descriptor with the numbers set. -/
def assigned (pd : PacketDescriptor) (a : Assignment) : PacketDescriptor :=
  { pd with fields := pd.fields.map (withNumber a.value) }

section Assigned

variable {pd : PacketDescriptor} {a : Assignment}

theorem setEach_assigned (hp : Plain pd) (ha : Assigns a pd) :
    setEach a.sizeofT a.value a.order pd = .ok (assigned pd a) := by
  rw [setEach_ok hp.distinct ha.wide fun name h => ha.order.mem_iff.mp h, assigned]
  congr 2
  refine List.map_congr_left fun f hf => if_pos ?_
  exact ha.order.mem_iff.mpr (List.mem_map_of_mem hf)

theorem hasValues_assigned : HasValues (assigned pd a).fields := by
  intro f hf
  obtain ⟨g, -, rfl⟩ := List.mem_map.mp hf
  exact LittleEndian.length_ofInt _ _

theorem getPacketSize_assigned : getPacketSize (assigned pd a) = getPacketSize pd := by
  simp only [getPacketSize, assigned, List.map_map]
  rfl

theorem isFixedSize_assigned (hp : Plain pd) : (assigned pd a).isFixedSize = true := by
  simp only [PacketDescriptor.isFixedSize, assigned, List.all_eq_true, List.mem_map]
  rintro _ ⟨f, hf, rfl⟩
  exact hp.fixed f hf

theorem fixedTemplate_assigned (hp : Plain pd) : FixedTemplate (assigned pd a) where
  fixed := isFixedSize_assigned hp
  first := by
    obtain ⟨f, fs, hf⟩ := List.exists_cons_of_ne_nil hp.nonempty
    refine ⟨withNumber a.value f, fs.map (withNumber a.value), by simp [assigned, hf], fun hz => ?_⟩
    have hz' : f.size.toNat = 0 := by
      rw [show f.size = 0 from hz]
      rfl
    have := hp.width f (by rw [hf]; exact .head _)
    rw [hz'] at this
    rcases this with h | h | h | h <;> cases h

/-- The bytes of the numbers set, under the names of the fields. -/
theorem readsBack (hp : Plain pd) (ha : Assigns a pd) {g : GenericPacketInterpreter}
    (hg : Interprets g a pd) (name : Str) : ReadsBack g a pd
      ⟨name, (assigned pd a).fields.map fun f => ⟨f.name, f.value⟩⟩ := by
  have hds : (assigned pd a).fields.map (fun f => (⟨f.name, f.value⟩ : FieldData)) =
      pd.fields.map fun f => ⟨f.name, LittleEndian.ofInt f.size.toNat (a.value f.name)⟩ := by
    rw [assigned, List.map_map]
    rfl
  have hleaves : ∀ d ∈ pd.fields.map (fun f =>
      (⟨f.name, LittleEndian.ofInt f.size.toNat (a.value f.name)⟩ : FieldData)),
      ∃ fi, g.fields.lookup d.name = some fi ∧ fi.IsPlainLeaf ∧
        asVariant fi.type d.value = .ok (a.variant d.name) := by
    intro d hd
    obtain ⟨f, hf, rfl⟩ := List.mem_map.mp hd
    obtain ⟨fi, hlook, hleaf, htype⟩ := hg f hf
    refine ⟨fi, hlook, hleaf, ?_⟩
    have hfits := ha.fits f hf
    simp only [Assignment.variant, htype]
    unfold FitsIn at hfits
    cases hs : a.signed f.name with
    | true =>
      rw [hs, if_pos rfl] at hfits
      exact asVariant_integer (hp.width f hf) hfits.1 hfits.2
    | false =>
      rw [hs, if_neg (by simp)] at hfits
      exact asVariant_unsignedInteger (hp.width f hf) hfits.1 hfits.2
  intro o
  rw [hds]
  obtain ⟨res, h1, h2, h3⟩ := interpretFields_leaves hleaves [] o
  refine ⟨res, by simpa [GenericPacketInterpreter.interpretPacketData] using h1, ?_, ?_⟩
  · rw [h2, List.map_map]
    rfl
  · rw [h3, List.map_map]
    rfl

/-- A packet of `2 ^ 31` bytes or more: the index of the fixed-size path overflows. -/
theorem not_roundTrips (hp : Plain pd) (ha : Assigns a pd) {g : GenericPacketInterpreter}
    (hsize : intMax < getPacketSize pd) : ¬ RoundTrips pd a g := by
  rintro ⟨pd', buffer, packet, packet', h1, -, -, h4, -⟩
  rw [setEach_assigned hp ha] at h1
  cases h1
  obtain ⟨u, -, hu⟩ := addBytes_fixed_undefined (d := make (assigned pd a)) (s := buffer)
    (isFixedSize_assigned hp) (fun h => absurd (getPacketSize_assigned ▸ h.2) (by omega))
  rw [hu] at h4
  cases h4

end Assigned

/-- **When set, encode, dissect and interpret compose to the identity.** Exactly when the packet has
less than `2 ^ 31` bytes. -/
theorem set_encode_dissect_interpret_iff {pd : PacketDescriptor} {a : Assignment}
    {g : GenericPacketInterpreter} (hp : Plain pd) (ha : Assigns a pd) (hg : Interprets g a pd) :
    RoundTrips pd a g ↔ getPacketSize pd ≤ intMax := by
  constructor
  · intro h
    by_contra hsize
    exact not_roundTrips hp ha (Nat.lt_of_not_le hsize) h
  · intro hsize
    have hv : HasValues (assigned pd a).fields := hasValues_assigned
    have ht := fixedTemplate_assigned (a := a) hp
    have hlen : ((assigned pd a).fields.flatMap (·.value)).length =
        getPacketSize (assigned pd a) := length_values hv
    have hencode : packetDescriptorToBuffer (assigned pd a) false =
        .ok ((assigned pd a).fields.flatMap (·.value)) := encodeFields_ok hv _ _
    have hbytewise := ht.outputs_of_match hlen (headersMatch_values hv)
    have hspan := addBytes_fixed (d := make (assigned pd a)) ht.fixed hlen.ge
      (by rw [← getPacketSize_assigned (a := a)] at hsize; exact hsize)
    have hslice := sliceFields_values hv
    refine ⟨_, _, _, _, setEach_assigned hp ha, hencode, hbytewise, congrArg Prod.fst hspan, ?_, ?_⟩
    · rw [hslice]
      exact readsBack hp ha hg _
    · rw [show (make (assigned pd a)).packetTemplate = assigned pd a from rfl, hslice]
      exact readsBack hp ha hg _

/-! ## A descriptor that is too long, and one that is not -/

/-- A field of 8 bytes, named after its number. -/
def numberedField (i : Nat) : FieldDescriptor := { name := LittleEndian.ofInt 4 i, size := 8 }

def manyFields (n : Nat) : PacketDescriptor where
  fields := (List.range n).map numberedField

/-- Every field is set to zero. -/
def allZero (pd : PacketDescriptor) : Assignment where
  order := pd.fields.map (·.name)
  sizeofT := fun _ => 8
  value := fun _ => 0
  signed := fun _ => false

/-- One unsigned leaf for each field. -/
def allUnsigned (pd : PacketDescriptor) : GenericPacketInterpreter where
  fields := pd.fields.map fun f => (f.name, { name := f.name, type := .unsignedInteger })

theorem lookup_allUnsigned {fs : List FieldDescriptor} {f : FieldDescriptor} (hf : f ∈ fs) :
    (fs.map fun f => (f.name, ({ name := f.name, type := .unsignedInteger } :
      FieldInterpretation))).lookup f.name =
        some { name := f.name, type := .unsignedInteger } := by
  induction fs with
  | nil => exact absurd hf List.not_mem_nil
  | cons g fs ih =>
    rw [List.map_cons, List.lookup_cons]
    by_cases he : f.name = g.name
    · rw [he, beq_self_eq_true]
    · rw [beq_eq_false_iff_ne.mpr he]
      exact ih ((List.mem_cons.mp hf).resolve_left fun e => he (by rw [e]))

theorem interprets_allUnsigned (pd : PacketDescriptor) :
    Interprets (allUnsigned pd) (allZero pd) pd := fun _ hf =>
  ⟨_, lookup_allUnsigned hf, ⟨rfl, rfl⟩, rfl⟩

theorem forall_manyFields {n : Nat} {P : FieldDescriptor → Prop} (h : ∀ i, P (numberedField i)) :
    ∀ f ∈ (manyFields n).fields, P f := by
  intro f hf
  obtain ⟨i, -, rfl⟩ := List.mem_map.mp hf
  exact h i

theorem plain_manyFields {n : Nat} (h0 : 0 < n) (hn : n ≤ 256 ^ 4) : Plain (manyFields n) where
  nonempty he := by
    rw [manyFields, List.map_eq_nil_iff, List.range_eq_nil] at he
    omega
  distinct := by
    rw [manyFields, List.map_map]
    refine List.Nodup.map_on (fun i hi j hj h => ?_) List.nodup_range
    -- the bytes of a name give its number back
    have hread : ∀ k ∈ List.range n, (LittleEndian.toNat (numberedField k).name : Int) = k :=
      fun k hk => LittleEndian.toNat_ofInt_of_lt (by omega)
        (by have := List.mem_range.mp hk; norm_num at hn ⊢; omega)
    have hij : (i : Int) = j := by
      rw [← hread i hi, ← hread j hj]
      exact congrArg (fun v => ((LittleEndian.toNat v : Nat) : Int)) h
    exact_mod_cast hij
  fixed := forall_manyFields fun _ => rfl
  width := forall_manyFields fun _ => .inr (.inr (.inr rfl))

theorem assigns_manyFields (n : Nat) : Assigns (allZero (manyFields n)) (manyFields n) where
  order := List.Perm.refl _
  wide := forall_manyFields fun _ => Nat.le_refl 8
  fits := forall_manyFields fun _ => ⟨Int.le_refl 0, show (0 : Int) < 256 ^ 8 by norm_num⟩

theorem getPacketSize_manyFields (n : Nat) : getPacketSize (manyFields n) = n * 8 := by
  have hmap : (manyFields n).fields.map (·.size.toNat) = List.replicate n 8 := by
    rw [List.eq_replicate_iff]
    refine ⟨by simp [manyFields], fun x hx => ?_⟩
    obtain ⟨f, hf, rfl⟩ := List.mem_map.mp hx
    exact forall_manyFields (P := fun f => f.size.toNat = 8) (fun _ => rfl) f hf
  rw [getPacketSize, hmap, List.sum_replicate_nat]

/-- `2 ^ 28` fields of 8 bytes do not come back. -/
theorem round_trip_overflows : ¬ ∀ pd a g, Plain pd → Assigns a pd → Interprets g a pd →
    RoundTrips pd a g := by
  intro h
  have hp := plain_manyFields (n := 2 ^ 28) (by norm_num) (by norm_num)
  refine not_roundTrips hp (assigns_manyFields _) ?_
    (h _ _ _ hp (assigns_manyFields _) (interprets_allUnsigned _))
  rw [getPacketSize_manyFields, intMax]
  norm_num

/-- Two fields, set in the other order: a header of two bytes, and a signed byte. -/
def headerAndByte : PacketDescriptor where
  fields := [{ name := lit "H", size := 2, isHeaderValue := true }, { name := lit "B", size := 1 }]

/-- The least number of the byte, from an `int`. -/
def leastByte : Assignment where
  order := [lit "B", lit "H"]
  sizeofT := fun _ => 4
  value := fun name => if name = lit "B" then -128 else 513
  signed := fun name => name = lit "B"

/-- A signed leaf for the byte and an unsigned one for the header. -/
def byteInterpreter : GenericPacketInterpreter :=
  ({} : GenericPacketInterpreter).addField { name := lit "B", type := .integer } |>.addField
    { name := lit "H", type := .unsignedInteger }

theorem round_trip_headerAndByte : RoundTrips headerAndByte leastByte byteInterpreter := by
  have hp : Plain headerAndByte := by
    refine ⟨by simp [headerAndByte], by decide, ?_, ?_⟩
    · simp [headerAndByte, FieldDescriptor.hasFixedSize]
    · simp [headerAndByte, NumberWidth]
  have ha : Assigns leastByte headerAndByte := ⟨by decide, by decide, by decide⟩
  have hg : Interprets byteInterpreter leastByte headerAndByte := by
    intro f hf
    simp only [headerAndByte, List.mem_cons, List.not_mem_nil, or_false] at hf
    rcases hf with rfl | rfl
    · exact ⟨_, rfl, ⟨rfl, rfl⟩, rfl⟩
    · exact ⟨_, rfl, ⟨rfl, rfl⟩, rfl⟩
  exact (set_encode_dissect_interpret_iff hp ha hg).mpr (by decide)

end Protos

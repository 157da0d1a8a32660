import ProtoTools.Interpretation.Leaves

/-!
# Numbers and the bytes they are read from

* `declaredResults`: a leaf that is a number, in the byte order that `littleEndian` declares.
  `interpret_declared_iff`: the code reads it exactly when the order is little endian, or does not
  matter for the bytes.
* `ReadsAs`: the result of an unsigned leaf. `zero_fills_iff`: it is the number of the bytes, and
  that of no other bytes of their width, exactly for the widths of an integer type.
-/

namespace Protos

/-! ## Byte order -/

/-- A leaf without mapper, of an integer type. -/
def FieldInterpretation.IsNumber (leaf : FieldInterpretation) : Prop :=
  leaf.mapper.isNone = true ∧ (leaf.type = .integer ∨ leaf.type = .unsignedInteger)

/-- The bytes, least significant first when they are in the declared order. -/
def FieldInterpretation.ordered (leaf : FieldInterpretation) (data : Bytes) : Bytes :=
  if leaf.littleEndian then data else data.reverse

/-- The two's-complement or the unsigned number of the bytes, least significant first. -/
def numberOf (type : ValueType) (data : Bytes) : Variant :=
  match type with
  | .integer => .int64 (Int64.ofInt (LittleEndian.toInt data))
  | _ => .uint64 (UInt64.ofNat (LittleEndian.toNat data))

instance (leaf : FieldInterpretation) : Decidable leaf.IsNumber :=
  inferInstanceAs (Decidable (_ ∧ _))

/-- The results of a leaf, a number in the declared order. -/
def declaredResults (data : Bytes) (leaf : FieldInterpretation) : InterpretationResults :=
  if leaf.IsNumber then
    [{ name := leaf.name, value := numberOf leaf.type (leaf.ordered data), format := leaf.format,
       hidden := leaf.hidden }]
  else leafResults data leaf

section ByteOrder

variable {data bs bs' : Bytes} {leaf fi : FieldInterpretation}

theorem NumberWidth.bounds {w : Nat} (h : NumberWidth w) : 0 < w ∧ w ≤ 8 := by
  rcases h with h | h | h | h <;> omega

/-- The signed number of a word of at most 8 bytes is one of 64 bits. -/
theorem toInt_int64 (hw : NumberWidth bs.length) :
    (Int64.ofInt (LittleEndian.toInt bs)).toInt = LittleEndian.toInt bs := by
  obtain ⟨h0, h8⟩ := hw.bounds
  have hlo := LittleEndian.le_toInt bs
  have hhi := LittleEndian.toInt_lt (List.ne_nil_of_length_pos h0)
  have hpow : (256 ^ bs.length : Int) ≤ 256 ^ 8 := pow_le_pow_right₀ (by decide) h8
  apply Int64.toInt_ofInt_of_le
  · omega
  · omega

/-- So is the unsigned number. -/
theorem toNat_uint64 (h : bs.length ≤ 8) :
    (UInt64.ofNat (LittleEndian.toNat bs)).toNat = LittleEndian.toNat bs := by
  have hlt := LittleEndian.toNat_lt bs
  have hpow : 256 ^ bs.length ≤ 256 ^ 8 := Nat.pow_le_pow_right (by decide) h
  apply UInt64.toNat_ofNat_of_lt'
  exact Nat.lt_of_lt_of_le hlt hpow

theorem asVariant_number (hw : NumberWidth data.length) (hn : leaf.IsNumber) :
    asVariant leaf.type data = .ok (numberOf leaf.type data) := by
  rcases hn.2 with h | h
  · rw [h, asVariant, convertInteger_of_width hw, numberOf]
  · rw [h, asVariant, convertUnsignedInteger_of_width hw]
    rfl

/-- A number of 64 bits gives the bytes of its word. -/
theorem numberOf_inj (hw : NumberWidth bs.length) (hlen : bs.length = bs'.length)
    (hn : leaf.IsNumber) : numberOf leaf.type bs = numberOf leaf.type bs' ↔ bs = bs' := by
  have hw' : NumberWidth bs'.length := hlen ▸ hw
  refine ⟨fun h => ?_, fun h => h ▸ rfl⟩
  rcases hn.2 with ht | ht
  · rw [ht] at h
    have heq := congrArg Int64.toInt (Variant.int64.inj h)
    rw [toInt_int64 hw, toInt_int64 hw'] at heq
    exact (LittleEndian.toInt_inj hlen).mp heq
  · rw [ht] at h
    have heq := congrArg UInt64.toNat (Variant.uint64.inj h)
    rw [toNat_uint64 hw.bounds.2, toNat_uint64 hw'.bounds.2] at heq
    exact (LittleEndian.toNat_inj hlen).mp heq

/-- **One leaf.** The bytes decide whether the order that was not asked for matters. -/
theorem leafResults_declared_iff (hw : NumberWidth data.length) :
    leafResults data leaf = declaredResults data leaf ↔
      (leaf.IsNumber → leaf.littleEndian = true ∨ data.reverse = data) := by
  unfold declaredResults
  by_cases hn : leaf.IsNumber
  · have hmap : leaf.mapper = none := Option.isNone_iff_eq_none.mp hn.1
    have hlen : data.length = (leaf.ordered data).length := by
      unfold FieldInterpretation.ordered
      split <;> simp
    have horder : data = leaf.ordered data ↔ leaf.littleEndian = true ∨ data.reverse = data := by
      unfold FieldInterpretation.ordered
      cases leaf.littleEndian <;> simp [eq_comm]
    rw [if_pos hn, forall_prop_of_true hn, ← horder, ← numberOf_inj hw hlen hn, leafResults,
      asVariant_number hw hn]
    simp [FieldInterpretation.results, hmap]
  · rw [if_neg hn]
    exact iff_of_true rfl fun h => absurd h hn

/-- Lists of pieces with the same lengths. -/
theorem flatMap_inj {α β : Type*} {f g : α → List β} {l : List α}
    (hlen : ∀ x ∈ l, (f x).length = (g x).length) :
    l.flatMap f = l.flatMap g ↔ ∀ x ∈ l, f x = g x := by
  induction l with
  | nil => simp
  | cons x l ih =>
    rw [List.flatMap_cons, List.flatMap_cons, List.forall_mem_cons,
      ← ih fun y hy => hlen y (.tail _ hy)]
    exact ⟨fun h => List.append_inj h (hlen x (.head _)), fun h => by rw [h.1, h.2]⟩

theorem length_declaredResults (hw : NumberWidth data.length) (leaf : FieldInterpretation) :
    (leafResults data leaf).length = (declaredResults data leaf).length := by
  unfold declaredResults
  by_cases hn : leaf.IsNumber
  · rw [if_pos hn, leafResults, asVariant_number hw hn]
    simp [FieldInterpretation.results, Option.isNone_iff_eq_none.mp hn.1]
  · rw [if_neg hn]

/-- **When numbers are read in the declared order.** In a tree that can be interpreted, the results
are those that the leaves declare exactly when the order of the bytes is little endian or does not
matter. -/
theorem interpret_declared_iff (hw : NumberWidth data.length)
    {context results : InterpretationResults}
    (h : interpret fi.name data fi context = .ok results) :
    results = fi.leaves.flatMap (declaredResults data) ↔ ∀ leaf ∈ fi.leaves, leaf.IsNumber →
      leaf.littleEndian = true ∨ data.reverse = data := by
  rw [← (interpret_ok_iff.mp h).2, flatMap_inj fun leaf _ => length_declaredResults hw leaf]
  exact forall₂_congr fun _ _ => leafResults_declared_iff hw

/-- A tree with a number in either order. -/
def bothOrders : FieldInterpretation where
  name := lit "N"
  subFields := [{ name := lit "L", type := .integer },
    { name := lit "B", type := .unsignedInteger, littleEndian := false }]

/-- A palindrome has one reading. -/
theorem interpret_declared_palindrome :
    [({ name := lit "L", value := .int64 257 } : InterpretationResult),
      { name := lit "B", value := .uint64 257 }] =
        bothOrders.leaves.flatMap (declaredResults [1, 1]) := by
  have hread : interpret bothOrders.name [1, 1] bothOrders [] = .ok
      [{ name := lit "L", value := .int64 257 }, { name := lit "B", value := .uint64 257 }] := by
    have hl : convertInteger [1, 1] = 257 := by decide
    have hb : convertUnsignedInteger [1, 1] = 257 := by decide
    simp [interpret, handleSubFields, bothOrders, asVariant, hl, hb]
  exact (interpret_declared_iff (.inr (.inl rfl)) hread).mpr fun _ _ _ => .inr rfl

/-- A big-endian 256 is read as 1. -/
theorem big_endian_ignored : ¬ ∀ (fi : FieldInterpretation) (data : Bytes)
    (context results : InterpretationResults), NumberWidth data.length →
      interpret fi.name data fi context = .ok results →
        results = fi.leaves.flatMap (declaredResults data) := by
  intro h
  have hread := h { name := lit "B", type := .unsignedInteger, littleEndian := false } [1, 0] []
    [{ name := lit "B", value := .uint64 1 }] (.inr (.inl rfl)) rfl
  have hvalue := congrArg (List.map fun r => r.value) hread
  have hnumber : (1 : UInt64) = 256 := Variant.uint64.inj (List.cons.inj hvalue).1
  exact absurd hnumber (by decide)

end ByteOrder

/-! ## Width -/

/-- The leaf reads the bytes as `n`. -/
def ReadsAs (leaf : FieldInterpretation) (data : Bytes) (n : UInt64) : Prop :=
  ∀ name context, interpret name data leaf context =
    .ok [{ name, value := .uint64 n, format := leaf.format, hidden := leaf.hidden }]

/-- The leaf reads the bytes as their number, and no other bytes of the width as this number. -/
structure ZeroFills (leaf : FieldInterpretation) (data : Bytes) : Prop where
  number : ∃ n, ReadsAs leaf data n ∧ n.toNat = LittleEndian.toNat data
  distinct : ∀ data' n, data'.length = data.length → ReadsAs leaf data n → ReadsAs leaf data' n →
    data' = data

section Width

variable {data : Bytes} {leaf : FieldInterpretation} {n : UInt64}

theorem convertUnsignedInteger_of_not_width (h : ¬ NumberWidth data.length) :
    convertUnsignedInteger data = 0 := by
  unfold convertUnsignedInteger
  unfold NumberWidth at h
  split
  · omega
  · omega
  · omega
  · omega
  · rfl

theorem readsAs_iff (hleaf : leaf.IsPlainLeaf) (ht : leaf.type = .unsignedInteger) :
    ReadsAs leaf data n ↔ n = convertUnsignedInteger data := by
  have hread : ∀ name context, interpret name data leaf context =
      .ok [{ name, value := .uint64 (convertUnsignedInteger data), format := leaf.format,
             hidden := leaf.hidden }] :=
    fun name context => interpret_plainLeaf hleaf (by rw [ht, asVariant]) context
  constructor
  · intro h
    have heq := (hread [] []).symm.trans (h [] [])
    simpa using heq.symm
  · rintro rfl
    exact hread

/-- The number is lost for every other width, zero apart. -/
theorem readsAs_number_iff (hleaf : leaf.IsPlainLeaf) (ht : leaf.type = .unsignedInteger)
    (h8 : data.length ≤ 8) : (∃ n, ReadsAs leaf data n ∧ n.toNat = LittleEndian.toNat data) ↔
      NumberWidth data.length ∨ LittleEndian.toNat data = 0 := by
  simp only [readsAs_iff hleaf ht, exists_eq_left]
  by_cases hw : NumberWidth data.length
  · rw [convertUnsignedInteger_of_width hw, toNat_uint64 h8]
    exact iff_of_true rfl (.inl hw)
  · rw [convertUnsignedInteger_of_not_width hw, or_iff_right hw]
    exact eq_comm

/-- **When odd widths are zero-filled.** Never: only the widths of an integer type are read. -/
theorem zero_fills_iff (hleaf : leaf.IsPlainLeaf) (ht : leaf.type = .unsignedInteger)
    (h0 : 0 < data.length) (h8 : data.length ≤ 8) :
    ZeroFills leaf data ↔ NumberWidth data.length := by
  constructor
  · intro h
    by_contra hw
    -- the bytes, each one higher, give zero as well
    have hlen : (data.map (· + 1)).length = data.length := List.length_map _
    have hother := h.distinct (data.map (· + 1)) 0 hlen
      ((readsAs_iff hleaf ht).mpr (convertUnsignedInteger_of_not_width hw).symm)
      ((readsAs_iff hleaf ht).mpr (convertUnsignedInteger_of_not_width (hlen ▸ hw)).symm)
    obtain ⟨b, bs, rfl⟩ := List.exists_cons_of_length_pos h0
    have hb : b + 1 = b := (List.cons.inj hother).1
    grind
  · intro hw
    refine ⟨(readsAs_number_iff hleaf ht h8).mpr (.inl hw), fun data' n hlen h h' => ?_⟩
    have hw' : NumberWidth data'.length := hlen ▸ hw
    rw [readsAs_iff hleaf ht, convertUnsignedInteger_of_width hw] at h
    rw [readsAs_iff hleaf ht, convertUnsignedInteger_of_width hw'] at h'
    have heq := congrArg UInt64.toNat (h'.symm.trans h)
    rw [toNat_uint64 (hlen ▸ h8), toNat_uint64 h8] at heq
    exact (LittleEndian.toNat_inj hlen).mp heq

/-- A counter. -/
def counter : FieldInterpretation where
  name := lit "C"
  type := .unsignedInteger

theorem zero_fills_counter : ZeroFills counter [0, 255, 0, 1] :=
  (zero_fills_iff ⟨rfl, rfl⟩ rfl (by decide) (by decide)).mpr (.inr (.inr (.inl rfl)))

/-- A counter of 24 bits is read as 0. -/
theorem counter_of_24_bits : ¬ ∀ (leaf : FieldInterpretation) (data : Bytes), leaf.IsPlainLeaf →
    leaf.type = .unsignedInteger → 0 < data.length → data.length ≤ 8 → ZeroFills leaf data := by
  intro h
  obtain ⟨n, hn, hnumber⟩ := (h counter [1, 0, 0] ⟨rfl, rfl⟩ rfl (by decide) (by decide)).number
  rw [readsAs_iff ⟨rfl, rfl⟩ rfl] at hn
  subst hn
  exact absurd hnumber (by decide)

end Width

end Protos

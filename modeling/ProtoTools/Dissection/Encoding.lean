import ProtoTools.Dissection.FixedSize

/-!
# Encoding a descriptor

* `HasValues fs`: every field has a value of its size. `encodeFields_ok`: the encoder does not
  throw on such fields, and writes the values one after the other.
* `sliceFields_values`, `headersMatch_values`: cut at the sizes, the encoding gives the values back,
  and every header field is in its place.
* `setEach_ok`: numbers set into distinct fields.
-/

namespace Protos

open Machine GenericDissector

/-- Every field has a value of its size. -/
def HasValues (fs : List FieldDescriptor) : Prop := ∀ f ∈ fs, f.value.length = f.size.toNat

section Values

variable {f : FieldDescriptor} {fs : List FieldDescriptor}

/-- In either byte order. -/
theorem encodeFields_values (hv : HasValues fs) (pdName : Str) (swapEndian : Bool)
    (buffer : Bytes) : encodeFields pdName swapEndian fs buffer =
      .ok (buffer ++ fs.flatMap fun f => if swapEndian then f.value.reverse else f.value) := by
  induction fs generalizing buffer with
  | nil => simp [encodeFields]
  | cons f fs ih =>
    have hf := hv f (.head _)
    have hfs : HasValues fs := fun g hg => hv g (.tail _ hg)
    unfold encodeFields
    by_cases hz : f.size = 0
    · rw [hz] at hf
      have he : f.value = [] := List.length_eq_zero_iff.mp hf
      simp [hz, ih hfs, he]
    · simp [hz, hf, ih hfs]

theorem encodeFields_ok (hv : HasValues fs) (pdName : Str) (buffer : Bytes) :
    encodeFields pdName false fs buffer = .ok (buffer ++ fs.flatMap (·.value)) :=
  encodeFields_values hv pdName false buffer

theorem length_values (hv : HasValues fs) : (fs.flatMap (·.value)).length = totalSize fs := by
  induction fs with
  | nil => rfl
  | cons f fs ih =>
    rw [List.flatMap_cons, List.length_append, totalSize_cons, hv f (.head _),
      ih fun g hg => hv g (.tail _ hg)]

theorem sliceFields_values (hv : HasValues fs) :
    sliceFields (fs.flatMap (·.value)) fs = fs.map fun f => ⟨f.name, f.value⟩ := by
  induction fs with
  | nil => rfl
  | cons f fs ih =>
    rw [sliceFields, List.flatMap_cons, ← hv f (.head _), List.take_left, List.drop_left,
      ih fun g hg => hv g (.tail _ hg), List.map_cons]

theorem headersMatch_values (hv : HasValues fs) : HeadersMatch (fs.flatMap (·.value)) fs := by
  induction fs with
  | nil => trivial
  | cons f fs ih =>
    rw [HeadersMatch, List.flatMap_cons, ← hv f (.head _), List.take_left, List.drop_left]
    exact ⟨fun _ _ => rfl, ih fun g hg => hv g (.tail _ hg)⟩

end Values

/-! ## Setting numbers -/

/-- The number is one of `w` bytes. -/
def FitsIn (signed : Bool) (w : Nat) (z : Int) : Prop :=
  if signed then -(256 ^ w : Int) ≤ 2 * z ∧ 2 * z < 256 ^ w else 0 ≤ z ∧ z < 256 ^ w

instance (signed : Bool) (w : Nat) (z : Int) : Decidable (FitsIn signed w z) := by
  unfold FitsIn; infer_instance

/-- `set` on the fields with the names, one after the other. -/
def setEach (sizeofT : Str → Nat) (value : Str → Int) :
    List Str → PacketDescriptor → Except Fault PacketDescriptor
  | [], pd => .ok pd
  | name :: names, pd =>
    match pd.set name (sizeofT name) (value name) with
    | .error e => .error e
    | .ok pd => setEach sizeofT value names pd

/-- The field with the bytes of the number of its name. -/
def withNumber (value : Str → Int) (f : FieldDescriptor) : FieldDescriptor :=
  { f with value := LittleEndian.ofInt f.size.toNat (value f.name) }

section Set

variable {pd : PacketDescriptor} {f : FieldDescriptor}

theorem get_of_mem (hn : (pd.fields.map (·.name)).Nodup) (hf : f ∈ pd.fields) :
    pd.get f.name = .ok f := by
  unfold PacketDescriptor.get
  cases hfind : pd.fields.find? (·.name == f.name) with
  | none => exact absurd hf fun h => by simpa using List.find?_eq_none.mp hfind f h
  | some g =>
    have hg : g.name = f.name := by simpa using List.find?_some hfind
    rw [List.inj_on_of_nodup_map hn (List.mem_of_find?_eq_some hfind) hf hg]

theorem set_ok (hn : (pd.fields.map (·.name)).Nodup) (hf : f ∈ pd.fields) {sizeofT : Nat}
    (hw : f.size.toNat ≤ sizeofT) (z : Int) : pd.set f.name sizeofT z = .ok { pd with
      fields := pd.fields.map fun g => if g.name == f.name then
        { g with value := LittleEndian.ofInt f.size.toNat z } else g } := by
  rw [PacketDescriptor.set, get_of_mem hn hf]
  simp only [toBytes_of_le hw, update_eq_map _ hn]

/-- `set` of the number of its name: the other fields stay. -/
theorem set_withNumber (hn : (pd.fields.map (·.name)).Nodup) (hf : f ∈ pd.fields) {sizeofT : Nat}
    (hw : f.size.toNat ≤ sizeofT) (value : Str → Int) :
    pd.set f.name sizeofT (value f.name) = .ok { pd with
      fields := pd.fields.map fun g => if g.name = f.name then withNumber value g else g } := by
  rw [set_ok hn hf hw]
  congr 2
  apply List.map_congr_left
  intro g hg
  by_cases he : g.name = f.name
  · rw [List.inj_on_of_nodup_map hn hg hf he]
    simp [withNumber]
  · simp [he]

theorem map_name_withNumber (value : Str → Int) (name : Str) (fs : List FieldDescriptor) :
    (fs.map fun g => if g.name = name then withNumber value g else g).map (·.name) =
      fs.map (·.name) := by
  rw [List.map_map]
  apply List.map_congr_left
  intro g _
  simp only [Function.comp]
  split <;> rfl

/-- Numbers set into fields of a descriptor with distinct names, in any order. -/
theorem setEach_ok {sizeofT : Str → Nat} {value : Str → Int}
    (hn : (pd.fields.map (·.name)).Nodup)
    (hw : ∀ f ∈ pd.fields, f.size.toNat ≤ sizeofT f.name) {names : List Str}
    (hmem : ∀ name ∈ names, name ∈ pd.fields.map (·.name)) :
    setEach sizeofT value names pd = .ok { pd with
      fields := pd.fields.map fun f => if f.name ∈ names then withNumber value f else f } := by
  induction names generalizing pd with
  | nil => simp [setEach]
  | cons name names ih =>
    obtain ⟨f, hf, rfl⟩ := List.mem_map.mp (hmem name (.head _))
    have hnames := map_name_withNumber value f.name pd.fields
    rw [setEach, set_withNumber hn hf (hw f hf) value]
    simp only
    rw [ih (by rw [hnames]; exact hn) ?_ (by rw [hnames]; exact fun n h => hmem n (.tail _ h))]
    · rw [List.map_map]
      congr 2
      apply List.map_congr_left
      intro g _
      by_cases he : g.name = f.name <;> by_cases hin : g.name ∈ names <;>
        simp [Function.comp, he, hin, withNumber]
    · intro g hg
      obtain ⟨g', hg', rfl⟩ := List.mem_map.mp hg
      have := hw g' hg'
      split <;> exact this

end Set

end Protos

import ProtoTools.Dissection.Encoding

/-!
# Edits of a descriptor

* `Edit`: a call of `set`, with a number or with a byte vector. `PacketDescriptor.edit` is the
  call; when it throws, the descriptor stays.
* `Encodable`: what makes a descriptor one that can be encoded. `encodable_iff`: this is that every
  field has a value of its size.
* `hasValues_edit_iff`: an edit keeps it exactly when the size of its value is one of a field
  (`Edit.Fits`).
* `edits_encodable_iff`: so does every sequence of edits.
* `set_never_refuses`: a number that cannot be read back from its field is set all the same.
-/

namespace Protos

open Machine

/-- A call of `set`. The number of a floating-point type is the one with its bytes. -/
inductive Edit where
  | number (fieldName : Str) (sizeofT : Nat) (value : Int)
  | bytes (fieldName : Str) (value : Bytes)

namespace PacketDescriptor

/-- The call, to the exception that it throws. -/
def edit (pd : PacketDescriptor) (e : Edit) : Except Fault Unit × PacketDescriptor :=
  let called :=
    match e with
    | .number fieldName sizeofT value => pd.set fieldName sizeofT value
    | .bytes fieldName value => pd.setBytes fieldName value
  match called with
  | .error err => (.error err, pd)
  | .ok pd' => (.ok (), pd')

end PacketDescriptor

/-- The field has the value that `make` gives to one of its size. -/
def FieldDescriptor.Made (f : FieldDescriptor) : Prop :=
  f.value = (FieldDescriptor.make f.name f.size).value

/-- Both encoders write the values of all fields, and the sizes are those of the values. -/
structure Encodable (pd : PacketDescriptor) : Prop where
  sizes : ∀ f ∈ pd.fields, f.value.length = f.size.toNat
  encodes : packetDescriptorToBuffer pd false = .ok (pd.fields.flatMap (·.value))
  swaps : packetDescriptorToBuffer pd true = .ok (pd.fields.flatMap (·.value.reverse))
  agrees : packetDataToBuffer (packetFromDescriptor pd) = pd.fields.flatMap (·.value)
  length : (pd.fields.flatMap (·.value)).length = getPacketSize pd

/-- The value does not get a size that a field cannot have. -/
def Edit.Fits (e : Edit) (pd : PacketDescriptor) : Prop :=
  match e with
  | .number _ _ _ => True
  | .bytes fieldName value =>
    ∀ field, pd.get fieldName = .ok field → field.size = 0 → value.length < 2 ^ 16

section Edits

variable {pd : PacketDescriptor} {f : FieldDescriptor} {fs : List FieldDescriptor}

theorem encodable_iff : Encodable pd ↔ HasValues pd.fields := by
  refine ⟨fun h => h.sizes, fun hv => ⟨hv, ?_, ?_, ?_, length_values hv⟩⟩
  · exact encodeFields_ok hv _ _
  · exact encodeFields_values hv _ _ _
  · rw [packetDataToBuffer_eq, packetFromDescriptor, List.flatMap_map]

theorem hasValues_made (h : ∀ f ∈ pd.fields, f.Made) : HasValues pd.fields := by
  intro f hf
  rw [show f.value = List.replicate f.size.toNat 0 from h f hf, List.length_replicate]

theorem find_of_get {name : Str} (h : pd.get name = .ok f) :
    pd.fields.find? (·.name == name) = some f := by
  unfold PacketDescriptor.get at h
  split at h
  · cases h
    assumption
  · cases h

/-- The field that changes is the first one with the name. -/
theorem update_of_find {name : Str} (h : fs.find? (·.name == name) = some f)
    (change : FieldDescriptor → FieldDescriptor) : ∃ before rest, fs = before ++ f :: rest ∧
      f.name = name ∧ (∀ g ∈ before, g.name ≠ name) ∧
        PacketDescriptor.update name change fs = before ++ change f :: rest := by
  induction fs with
  | nil => cases h
  | cons g gs ih =>
    rw [PacketDescriptor.update]
    by_cases hn : g.name = name
    · rw [List.find?_cons_of_pos (by simpa using hn)] at h
      obtain rfl := Option.some.inj h
      exact ⟨[], gs, rfl, hn, by simp, if_pos (by simpa using hn)⟩
    · rw [List.find?_cons_of_neg (by simpa using hn)] at h
      obtain ⟨before, rest, rfl, hname, hbefore, hupdate⟩ := ih h
      refine ⟨g :: before, rest, rfl, hname, List.forall_mem_cons.mpr ⟨hn, hbefore⟩, ?_⟩
      rw [if_neg (by simpa using hn), hupdate]
      rfl

/-- Only the field that changes matters. -/
theorem hasValues_update_iff {name : Str} {change : FieldDescriptor → FieldDescriptor}
    (hv : HasValues fs) (hf : fs.find? (·.name == name) = some f) :
    HasValues (PacketDescriptor.update name change fs) ↔
      (change f).value.length = (change f).size.toNat := by
  obtain ⟨before, rest, rfl, -, -, hupdate⟩ := update_of_find hf change
  rw [hupdate]
  constructor
  · intro h
    exact h _ (by simp)
  · intro h g hg
    simp only [List.mem_append, List.mem_cons] at hg
    rcases hg with hg | rfl | hg
    · exact hv g (by simp [hg])
    · exact h
    · exact hv g (by simp [hg])

/-- A number gets as many bytes as its field has. -/
theorem hasValues_set (hv : HasValues pd.fields) {name : Str} {sizeofT : Nat} {z : Int}
    {pd' : PacketDescriptor} (h : pd.set name sizeofT z = .ok pd') : HasValues pd'.fields := by
  unfold PacketDescriptor.set at h
  split at h
  · cases h
  · rename_i field hget
    unfold toBytes at h
    split at h
    · cases h
    · rename_i bytes hbytes
      split at hbytes
      · cases hbytes
      · rename_i hwide
        cases h
        cases hbytes
        apply (hasValues_update_iff hv (find_of_get hget)).mpr
        rw [List.length_take, LittleEndian.length_ofInt]
        exact Nat.min_eq_left (Nat.le_of_not_lt hwide)

/-- A byte vector gets a size modulo `2 ^ 16`. -/
theorem hasValues_setBytes_iff (hv : HasValues pd.fields) {name : Str} {value : Bytes}
    {pd' : PacketDescriptor} (h : pd.setBytes name value = .ok pd') :
    HasValues pd'.fields ↔ (Edit.bytes name value).Fits pd := by
  unfold PacketDescriptor.setBytes at h
  split at h
  · cases h
  · rename_i field hget
    split at h
    · cases h
    · rename_i hsize
      cases h
      rw [hasValues_update_iff hv (find_of_get hget)]
      simp only [Edit.Fits, hget, Except.ok.injEq, forall_eq', UInt16.toNat_ofNat']
      have hlt := field.size.toNat_lt
      constructor
      · intro hmod _
        omega
      · intro hfits
        by_cases hz : field.size = 0
        · have := hfits hz
          omega
        · have hlen : field.size.toNat = value.length :=
            by_contra fun hne => hsize ⟨hne, hz⟩
          omega

/-- **One edit.** -/
theorem hasValues_edit_iff (hv : HasValues pd.fields) (e : Edit) :
    HasValues (pd.edit e).2.fields ↔ e.Fits pd := by
  cases e with
  | number name sizeofT z =>
    refine iff_of_true ?_ trivial
    simp only [PacketDescriptor.edit]
    cases h : pd.set name sizeofT z with
    | error err => exact hv
    | ok pd' => exact hasValues_set hv h
  | bytes name value =>
    simp only [PacketDescriptor.edit]
    cases h : pd.setBytes name value with
    | error err =>
      refine iff_of_true hv fun field hget hz => ?_
      -- a field without a size takes every vector
      rw [PacketDescriptor.setBytes, hget] at h
      simp [hz] at h
    | ok pd' => exact hasValues_setBytes_iff hv h

/-- **When edits keep a descriptor encodable.** After every part of the edits, exactly when no field
of size 0 gets a vector of `2 ^ 16` bytes or more. -/
theorem edits_encodable_iff (hmade : ∀ f ∈ pd.fields, f.Made) (edits : List Edit) :
    (∀ n, Encodable (after PacketDescriptor.edit pd (edits.take n))) ↔
      Along PacketDescriptor.edit (fun pd e => e.Fits pd) pd edits := by
  have hstart := hasValues_made hmade
  rw [forall_after, and_iff_right (encodable_iff.mpr hstart)]
  constructor
  · intro h
    refine (h.mono_inv (I := fun pd => HasValues pd.fields) (fun pd e hv he => ?_) hstart).1
    have hv' := encodable_iff.mp he
    exact ⟨(hasValues_edit_iff hv e).mp hv', hv'⟩
  · intro h
    refine (h.mono_inv (I := fun pd => HasValues pd.fields) (fun pd e hv he => ?_) hstart).1
    have hv' := (hasValues_edit_iff hv e).mpr he
    exact ⟨encodable_iff.mpr hv', hv'⟩

/-- A number of two bytes, and a field of any size. -/
def numberAndRest : PacketDescriptor where
  fields := [.make (lit "N") 2, .make (lit "V") 0]

theorem made_numberAndRest : ∀ f ∈ numberAndRest.fields, f.Made := by
  simp only [numberAndRest, List.forall_mem_cons]
  exact ⟨rfl, rfl, fun _ h => absurd h List.not_mem_nil⟩

/-- A vector, a negative number, and a vector of another size that throws. -/
theorem edits_encodable_numberAndRest : Encodable (after PacketDescriptor.edit numberAndRest
    ([.bytes (lit "V") [1, 2, 3], .number (lit "N") 4 (-2), .bytes (lit "V") [4]].take 3)) := by
  apply (edits_encodable_iff made_numberAndRest _).mpr
  exact ⟨fun _ _ _ => by decide, trivial, fun _ _ _ => by decide, trivial⟩

/-- A vector of `2 ^ 16` bytes gets the size 0. -/
theorem long_value_not_encodable : ¬ ∀ (pd : PacketDescriptor) (edits : List Edit),
    (∀ f ∈ pd.fields, f.Made) →
      ∀ n, Encodable (after PacketDescriptor.edit pd (edits.take n)) := by
  intro h
  obtain ⟨value, hlen⟩ : ∃ value : Bytes, value.length = 2 ^ 16 :=
    ⟨List.replicate (2 ^ 16) 0, List.length_replicate⟩
  have hlong := encodable_iff.mp (h numberAndRest [.bytes (lit "V") value] made_numberAndRest 1)
  have hfits := (hasValues_edit_iff (hasValues_made made_numberAndRest) _).mp hlong
  have hlt := hfits (.make (lit "V") 0) rfl rfl
  omega

end Edits

/-! ## Numbers that do not fit -/

/-- The number can be read back from a word of `w` bytes. -/
def Recoverable (w : Nat) (z : Int) : Prop :=
  0 < w ∧ ∃ bs : Bytes, bs.length = w ∧ (z = LittleEndian.toNat bs ∨ z = LittleEndian.toInt bs)

/-- The call throws and leaves every field as it was. -/
def Refuses (pd : PacketDescriptor) (e : Edit) : Prop :=
  (∃ err, (pd.edit e).1 = .error err) ∧ (pd.edit e).2.fields = pd.fields

section Refuses

variable {pd : PacketDescriptor} {field : FieldDescriptor} {signed : Bool} {w sizeofT : Nat}
  {z : Int}

theorem recoverable_iff :
    Recoverable w z ↔ 0 < w ∧ -(256 ^ w : Int) ≤ 2 * z ∧ z < 256 ^ w := by
  unfold Recoverable
  refine and_congr_right fun hw => ?_
  constructor
  · rintro ⟨bs, rfl, rfl | rfl⟩
    · have hlt : (LittleEndian.toNat bs : Int) < 256 ^ bs.length := by
        exact_mod_cast LittleEndian.toNat_lt bs
      have hpos : (0 : Int) < 256 ^ bs.length := by positivity
      exact ⟨by omega, hlt⟩
    · have hle := LittleEndian.toInt_le bs
      have hpos : (0 : Int) < 256 ^ bs.length := by positivity
      exact ⟨LittleEndian.le_toInt bs, by omega⟩
  · rintro ⟨hlo, hhi⟩
    refine ⟨LittleEndian.ofInt w z, LittleEndian.length_ofInt w z, ?_⟩
    by_cases h : 2 * z < 256 ^ w
    · exact .inr (LittleEndian.toInt_ofInt hlo h).symm
    · have hpos : (0 : Int) < 256 ^ w := by positivity
      exact .inl (LittleEndian.toNat_ofInt_of_lt (by omega) hhi).symm

/-- A number of a type that is no wider than the field can be read back. -/
theorem recoverable_of_fitsIn (hpos : 0 < sizeofT) (hz : FitsIn signed sizeofT z)
    (hw : sizeofT ≤ w) : Recoverable w z := by
  have hpow : (256 ^ sizeofT : Int) ≤ 256 ^ w := pow_le_pow_right₀ (by decide) hw
  have h0 : (0 : Int) < 256 ^ sizeofT := by positivity
  rw [recoverable_iff]
  unfold FitsIn at hz
  split at hz
  · exact ⟨by omega, by omega, by omega⟩
  · exact ⟨by omega, by omega, by omega⟩

theorem get_update {name : Str} {change : FieldDescriptor → FieldDescriptor}
    (hget : pd.get name = .ok field) (hname : (change field).name = field.name) :
    ({ pd with fields := PacketDescriptor.update name change pd.fields } :
      PacketDescriptor).get name = .ok (change field) := by
  obtain ⟨before, rest, -, hf, hbefore, hupdate⟩ := update_of_find (find_of_get hget) change
  have hnone : before.find? (·.name == name) = none := by
    simpa [List.find?_eq_none] using hbefore
  rw [PacketDescriptor.get, hupdate, List.find?_append, hnone, Option.none_or,
    List.find?_cons_of_pos (by simp [hname, hf])]

/-- A number of a type that is wide enough for the field is set. -/
theorem edit_number {name : Str} (hget : pd.get name = .ok field)
    (hwide : field.size.toNat ≤ sizeofT) (z : Int) :
    pd.edit (.number name sizeofT z) = (.ok (), { pd with
      fields := PacketDescriptor.update name
        ({ · with value := LittleEndian.ofInt field.size.toNat z }) pd.fields }) := by
  simp only [PacketDescriptor.edit, PacketDescriptor.set, hget, toBytes_of_le hwide]

/-- **A number that does not fit** is set all the same: the field gets its low bytes. -/
theorem set_never_refuses {name : Str} (hget : pd.get name = .ok field) (hpos : 0 < sizeofT)
    (hz : FitsIn signed sizeofT z) (hno : ¬ Recoverable field.size.toNat z) :
    ¬ Refuses pd (.number name sizeofT z) ∧
      (pd.edit (.number name sizeofT z)).2.get name = .ok
        { field with value := LittleEndian.ofInt field.size.toNat z } := by
  have hwide : field.size.toNat ≤ sizeofT := by
    by_contra hlt
    exact hno (recoverable_of_fitsIn hpos hz (by omega))
  have hset := edit_number hget hwide z
  rw [hset]
  refine ⟨?_, get_update hget rfl⟩
  rintro ⟨⟨err, herr⟩, -⟩
  rw [hset] at herr
  cases herr

/-- A field of one byte. -/
def byteField : PacketDescriptor where
  fields := [.make (lit "B") 1]

/-- No word of one byte is 300. -/
theorem not_recoverable_300 : ¬ Recoverable 1 300 := by
  rw [recoverable_iff]
  decide

theorem set_never_refuses_byte : ¬ Refuses byteField (.number (lit "B") 4 300) ∧
    (byteField.edit (.number (lit "B") 4 300)).2.get (lit "B") =
      .ok { FieldDescriptor.make (lit "B") 1 with value := LittleEndian.ofInt 1 300 } := by
  have hget : byteField.get (lit "B") = .ok (.make (lit "B") 1) := rfl
  have hint : FitsIn true 4 300 := by decide
  exact set_never_refuses hget (by decide) hint not_recoverable_300

/-- The `int` 300 becomes 44 in a field of one byte. -/
theorem low_byte_of_300 : ¬ ∀ pd name field signed sizeofT z, pd.get name = .ok field →
    0 < sizeofT → FitsIn signed sizeofT z → ¬ Recoverable field.size.toNat z →
      Refuses pd (.number name sizeofT z) := by
  intro h
  have hget : byteField.get (lit "B") = .ok (.make (lit "B") 1) := rfl
  obtain ⟨⟨err, herr⟩, -⟩ := h byteField (lit "B") (.make (lit "B") 1) true 4 300 hget
    (by decide) (by decide) not_recoverable_300
  rw [edit_number hget (by decide)] at herr
  cases herr

end Refuses

end Protos

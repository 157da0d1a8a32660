import ProtoTools.Dissection.Step

/-!
# The grammar of a template

What a template without size callbacks describes, stated over its fields and their values alone.

* `Conforms h fs ds`: after the fields of the history `h`, the field list `ds` conforms to the
  fields `fs` of the template. `removed h f` and `effectiveSize h f` are what the delivered fields
  say about a later field `f`; `FieldOk` is what a delivered field with a value must satisfy.
* `Conforming t ds`: `ds` conforms to the whole template.
-/

namespace Protos

/-- The fields delivered so far, the latest first: the field of the template and its value. -/
abbrev History := List (FieldDescriptor × Bytes)

/-- The delivered field `L` gives `f` its size. -/
def sizes (L : FieldDescriptor × Bytes) (f : FieldDescriptor) : Bool :=
  decide (L.2 ≠ [] ∧ L.1.determinesSizeOf ≠ [] ∧ L.1.determinesSizeOf = f.name)

/-- The delivered field `L` removes `f`. -/
def removes (L : FieldDescriptor × Bytes) (f : FieldDescriptor) : Bool :=
  decide (L.2 ≠ [] ∧ L.1.sizeDeterminesExistenceOf ≠ [] ∧
    L.1.sizeDeterminesExistenceOf = f.name ∧ fieldNumber L.2 = 0)

/-- A delivered field removes `f`. -/
def removed (h : History) (f : FieldDescriptor) : Bool := h.any (removes · f)

/-- The size of `f`: what the last delivered field that gives it one says, else the template's. -/
def effectiveSize (h : History) (f : FieldDescriptor) : Nat :=
  match h.find? (sizes · f) with
  | some L => (((fieldNumber L.2).toNat + L.1.sizeOffset.toInt) % 2 ^ 16).toNat
  | none => f.size.toNat

/-- What a field delivered with the value `v ≠ []` after `h`, with `fs` to come, must satisfy. -/
structure FieldOk (h : History) (f : FieldDescriptor) (v : Bytes) (fs : List FieldDescriptor) :
    Prop where
  header : f.isHeaderValue = true → f.value = v
  width : f.determinesSizeOf ≠ [] ∨ f.sizeDeterminesExistenceOf ≠ [] →
    v.length = 1 ∨ v.length = 2 ∨ v.length = 4 ∨ v.length = 8
  sizeTarget : f.determinesSizeOf ≠ [] →
    ∃ g ∈ fs, g.name = f.determinesSizeOf ∧ removed h g = false
  existenceTarget : f.sizeDeterminesExistenceOf ≠ [] → fieldNumber v = 0 →
    ∃ g ∈ fs, g.name = f.sizeDeterminesExistenceOf ∧ removed h g = false

/-- After the fields of `h`, the field list conforms to the fields of the template. -/
inductive Conforms : History → List FieldDescriptor → List FieldData → Prop
  | nil (h : History) : Conforms h [] []
  | removed {h : History} {f : FieldDescriptor} {fs : List FieldDescriptor} {ds : List FieldData} :
      removed h f = true → Conforms h fs ds → Conforms h (f :: fs) ds
  | present {h : History} {f : FieldDescriptor} {v : Bytes} {fs : List FieldDescriptor}
      {ds : List FieldData} :
      removed h f = false → v.length = effectiveSize h f → (v ≠ [] → FieldOk h f v fs) →
      Conforms ((f, v) :: h) fs ds → Conforms h (f :: fs) (⟨f.name, v⟩ :: ds)

/-- The field list conforms to the template. -/
def Conforming (t : PacketDescriptor) (ds : List FieldData) : Prop := Conforms [] t.fields ds

end Protos

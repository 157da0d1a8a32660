import ProtoTools.Common.Basic

/-!
# Templates and packets (`dissection/*Descriptor.hpp`, `*Data.hpp`, `PacketHelper.hpp`)

* `FieldDescriptor`: one field of a template, with the rules for later fields. Its size callback
  gets the descriptor without the callback (`FieldSpec`); a callback is a total, pure function.
* `PacketDescriptor`: a template; `PacketData`: a packet, its fields in order.
* `getPacketSize`, `packetDataToBuffer`, `packetFromDescriptor`, `packetDescriptorToBuffer`,
  `packetDescriptorToBufferExcluding`: the helpers of `PacketHelper.hpp`.

`FieldDescriptor::description` is left out: no modelled function reads it.
-/

namespace Protos

/-- `FieldDescriptor::SizeCallCallbackResult`. -/
structure SizeCallCallbackResult where
  /-- More bytes are needed to determine the size. -/
  needMoreBytes : Bool
  resultValue : UInt16
  /-- The bytes at the start of the buffer that are no part of the value. -/
  bytesConsumed : UInt8
  deriving DecidableEq, Repr

/-- `FieldDescriptor` without its size callback. -/
structure FieldSpec where
  name : Str
  size : UInt16 := 0
  value : Bytes := []
  /-- The field whose size the value of this one is (empty: none). -/
  determinesSizeOf : Str := []
  /-- The field that is left out when the value of this one is zero (empty: none). -/
  sizeDeterminesExistenceOf : Str := []
  isHeaderValue : Bool := false
  sizeOffset : Int16 := 0

abbrev SizeCalcCallback := FieldSpec → Bytes → SizeCallCallbackResult

structure FieldDescriptor extends FieldSpec where
  externalSizeCalculation : Option SizeCalcCallback := none

namespace FieldDescriptor

/-- `FieldDescriptor::make`. -/
def make (name : Str) (size : UInt16) : FieldDescriptor :=
  { name, size, value := List.replicate size.toNat 0 }

def hasFixedSize (f : FieldDescriptor) : Bool :=
  f.externalSizeCalculation.isNone && f.determinesSizeOf.isEmpty &&
    f.sizeDeterminesExistenceOf.isEmpty

end FieldDescriptor

structure PacketDescriptor where
  fields : List FieldDescriptor
  name : Str := []

structure FieldData where
  name : Str
  value : Bytes
  deriving DecidableEq, Repr

structure PacketData where
  name : Str := []
  fields : List FieldData := []
  deriving DecidableEq, Repr

namespace PacketData

def add (p : PacketData) (field : FieldData) : PacketData :=
  { p with fields := p.fields ++ [field] }

/-- `PacketData::get`: the first field with the name. -/
def get (p : PacketData) (fieldName : Str) : Except Fault FieldData :=
  match p.fields.find? (·.name == fieldName) with
  | some field => .ok field
  | none => .error (.runtimeError
      (lit "Field " ++ fieldName ++ lit " not found in PacketData " ++ p.name))

def has (p : PacketData) (fieldName : Str) : Bool := p.fields.any (·.name == fieldName)

@[simp] theorem add_fields (p : PacketData) (f : FieldData) :
    (p.add f).fields = p.fields ++ [f] := rfl

@[simp] theorem add_name (p : PacketData) (f : FieldData) : (p.add f).name = p.name := rfl

/-- The field just added is the one that `get` finds, when its name is new. -/
theorem get_add {p : PacketData} {f : FieldData} (h : ∀ g ∈ p.fields, g.name ≠ f.name) :
    (p.add f).get f.name = .ok f := by
  have hn : p.fields.find? (·.name == f.name) = none := by
    simpa [List.find?_eq_none] using h
  simp [get, List.find?_append, hn]

end PacketData

namespace PacketDescriptor

def isFixedSize (t : PacketDescriptor) : Bool := t.fields.all (·.hasFixedSize)

def getName (t : PacketDescriptor) : Str := t.name

/-- Replace the first field with the name, as an assignment through `get`'s reference does. -/
def update (fieldName : Str) (change : FieldDescriptor → FieldDescriptor) :
    List FieldDescriptor → List FieldDescriptor
  | [] => []
  | f :: fs => if f.name == fieldName then change f :: fs else f :: update fieldName change fs

/-- `PacketDescriptor::get`: the first field with the name. -/
def get (t : PacketDescriptor) (fieldName : Str) : Except Fault FieldDescriptor :=
  match t.fields.find? (·.name == fieldName) with
  | some field => .ok field
  | none => .error (.runtimeError (lit "Field not found: " ++ fieldName))

/-- `PacketDescriptor::set<T>` for an integer type `T` of `sizeofT` bytes. A call that throws
changes nothing. -/
def set (t : PacketDescriptor) (fieldName : Str) (sizeofT : Nat) (value : Int) :
    Except Fault PacketDescriptor :=
  match t.get fieldName with
  | .error e => .error e
  | .ok field =>
    match toBytes sizeofT value field.size.toNat with
    | .error e => .error e
    | .ok bytes => .ok { t with fields := update fieldName ({ · with value := bytes }) t.fields }

/-- `PacketDescriptor::set` of a byte vector. The size of a `vector` becomes one of a field, which
is a `uint16_t`. -/
def setBytes (t : PacketDescriptor) (fieldName : Str) (value : Bytes) :
    Except Fault PacketDescriptor :=
  match t.get fieldName with
  | .error e => .error e
  | .ok field =>
    if field.size.toNat ≠ value.length ∧ field.size ≠ 0 then
      .error (.runtimeError (lit "Size mismatch"))
    else .ok { t with
      fields := update fieldName ({ · with value, size := UInt16.ofNat value.length }) t.fields }

end PacketDescriptor

/-! ## `PacketHelper.hpp` -/

/-- `getPacketSize` of a descriptor. -/
def getPacketSize (pd : PacketDescriptor) : Nat := (pd.fields.map (·.size.toNat)).sum

def packetDataToBuffer (pd : PacketData) : Bytes :=
  pd.fields.flatMap fun field => if field.value.isEmpty then [] else field.value

def packetFromDescriptor (pd : PacketDescriptor) : PacketData :=
  { name := pd.name, fields := pd.fields.map fun field => ⟨field.name, field.value⟩ }

/-- `packetDescriptorToBuffer`, with the fields before the current one written to `buffer`. -/
def encodeFields (pdName : Str) (swapEndian : Bool) :
    List FieldDescriptor → Bytes → Except Fault Bytes
  | [], buffer => .ok buffer
  | field :: fields, buffer =>
    if field.size = 0 then encodeFields pdName swapEndian fields buffer
    else if field.size.toNat ≠ field.value.length then
      .error (.runtimeError (lit "Field " ++ pdName ++ lit "::" ++ field.name ++
        lit " size mismatch. field size " ++ (toString field.size.toNat).toUTF8.data.toList ++
        lit " vs. field value size " ++ (toString field.value.length).toUTF8.data.toList))
    else encodeFields pdName swapEndian fields
      (buffer ++ if swapEndian then field.value.reverse else field.value)

def packetDescriptorToBuffer (pd : PacketDescriptor) (swapEndian : Bool) :
    Except Fault Bytes :=
  encodeFields pd.name swapEndian pd.fields []

/-- `packetDescriptorToBufferExcluding`. The size of a value is not checked. -/
def packetDescriptorToBufferExcluding (pd : PacketDescriptor) (excluded : Str) : Bytes :=
  pd.fields.flatMap fun field =>
    if field.name = excluded then [] else if field.size = 0 then [] else field.value

/-- The buffer of a packet is the concatenation of its values. -/
theorem packetDataToBuffer_eq (pd : PacketData) :
    packetDataToBuffer pd = pd.fields.flatMap (·.value) := by
  unfold packetDataToBuffer
  congr 1
  funext f
  split
  · rename_i h
    exact (List.isEmpty_iff.mp h).symm
  · rfl

end Protos

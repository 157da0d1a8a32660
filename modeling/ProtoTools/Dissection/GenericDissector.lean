import ProtoTools.Dissection.Packet

/-!
# The dissector (`dissection/GenericDissector.cpp`)

`GenericDissector` is the object: the stack of the fields still to come (its head is the top), the
bytes of the field in progress, the packet in progress and the template. A call returns what the
member function returns, or the `Fault` that ended it, with the object as the call left it: a call
that throws keeps the changes made before the throw.

`addByte` is cut along the source's comments: a new packet (`startPacket`), the byte
(`pushByte`), an empty field at the top (`skipEmptyTop`), the size callback (`calculateSize`), the
completion test (`checkField`) with the rules of the completed field (`completeField`), and the
test for a complete packet (`finish`).
-/

namespace Protos

structure GenericDissector where
  currentPacketStack : List FieldDescriptor
  currentMessageBuffer : Bytes
  /-- The packet currently being built. -/
  currentPacket : PacketData
  packetTemplate : PacketDescriptor

/-- What a member function returns or ends with, and the object after the call. -/
abbrev Called (α : Type) := Except Fault α × GenericDissector

/-- `stackTopIsCertainlyZeroSized`, of the field at the top. -/
def FieldDescriptor.isCertainlyZeroSized (f : FieldDescriptor) : Bool :=
  f.externalSizeCalculation.isNone && f.size == 0

namespace GenericDissector

def stackIsEmpty (d : GenericDissector) : Bool := d.currentPacketStack.isEmpty

/-- All fields of the template go on top of the stack, the first one last. -/
def makePacketStack (d : GenericDissector) : GenericDissector :=
  { d with currentPacketStack := d.packetTemplate.fields ++ d.currentPacketStack }

def newPacket (d : GenericDissector) : GenericDissector :=
  { d with currentPacket := {} }.makePacketStack

/-- The constructor. -/
def make (packetTemplate : PacketDescriptor) : GenericDissector :=
  newPacket ⟨[], [], {}, packetTemplate⟩

def getFieldInStack (d : GenericDissector) (name : Str) : Except Fault FieldDescriptor :=
  match d.currentPacketStack.find? (·.name == name) with
  | some f => .ok f
  | none => .error (.runtimeError (lit "Field not found"))

def removeFieldFromStack (d : GenericDissector) (name : Str) : Except Fault GenericDissector :=
  match d.currentPacketStack.find? (·.name == name) with
  | some _ => .ok { d with
      currentPacketStack := d.currentPacketStack.eraseP (·.name == name) }
  | none => .error (.runtimeError (lit "Field not found"))

/-- `to_number` of the value that the packet in progress has under the name, as `uint32_t`. -/
def readSize (d : GenericDissector) (name : Str) (width : Nat) : Except Fault UInt32 :=
  match d.currentPacket.get name with
  | .error e => .error e
  | .ok data =>
    match toNumber width data.value with
    | .error e => .error e
    | .ok n => .ok (UInt32.ofNat n)

def getSizeFromFieldValue (d : GenericDissector) (field : FieldDescriptor) : Except Fault UInt32 :=
  match field.size with
  | 1 => d.readSize field.name 1
  | 2 => d.readSize field.name 2
  | 4 => d.readSize field.name 4
  | 8 => d.readSize field.name 8
  | _ => .error (.runtimeError (lit "Unsupported size for field describing a size in field '" ++
      field.name ++ lit "' of GenericDissector '" ++ d.packetTemplate.getName ++ lit "' "))

/-- The size for the referenced field: `uint32_t` arithmetic (the `int16_t` offset is converted),
stored in a `uint16_t`. -/
def offsetSize (size : UInt32) (sizeOffset : Int16) : UInt16 :=
  (size + sizeOffset.toInt32.toUInt32).toUInt16

/-- The rule of `determinesSizeOf` of a completed field. -/
def applySizeRule (d : GenericDissector) (field : FieldDescriptor) :
    Except Fault GenericDissector :=
  if field.determinesSizeOf.isEmpty then .ok d
  else
    match d.getFieldInStack field.determinesSizeOf with
    | .error e => .error e
    | .ok _ =>
      match d.getSizeFromFieldValue field with
      | .error e => .error e
      | .ok size => .ok { d with
          currentPacketStack := PacketDescriptor.update field.determinesSizeOf
            ({ · with size := offsetSize size field.sizeOffset }) d.currentPacketStack }

/-- The rule of `sizeDeterminesExistenceOf` of a completed field. -/
def applyExistenceRule (d : GenericDissector) (field : FieldDescriptor) :
    Except Fault GenericDissector :=
  if field.sizeDeterminesExistenceOf.isEmpty then .ok d
  else
    match d.getSizeFromFieldValue field with
    | .error e => .error e
    | .ok size =>
      if size = 0 then d.removeFieldFromStack field.sizeDeterminesExistenceOf else .ok d

/-- While the top is a zero size field, consider it handled. -/
def skipEmpty : List FieldDescriptor → PacketData → List FieldDescriptor × PacketData
  | [], packet => ([], packet)
  | top :: rest, packet =>
    if top.isCertainlyZeroSized then skipEmpty rest (packet.add ⟨top.name, []⟩)
    else (top :: rest, packet)

def skipEmptyFields (d : GenericDissector) : GenericDissector :=
  let r := skipEmpty d.currentPacketStack d.currentPacket
  { d with currentPacketStack := r.1, currentPacket := r.2 }

/-- The field leaves the stack for the packet, with the bytes of the buffer. -/
def takeField (d : GenericDissector) (field : FieldDescriptor) (rest : List FieldDescriptor) :
    GenericDissector :=
  { d with
    currentPacketStack := rest
    currentPacket := d.currentPacket.add ⟨field.name, d.currentMessageBuffer⟩
    currentMessageBuffer := [] }

/-- We have a complete field: it is taken, then its rules are applied. -/
def completeField (d : GenericDissector) (field : FieldDescriptor) (rest : List FieldDescriptor) :
    Called Unit :=
  let d := d.takeField field rest
  match d.applySizeRule field with
  | .error e => (.error e, d)
  | .ok d =>
    match d.applyExistenceRule field with
    | .error e => (.error e, d)
    | .ok d => (.ok (), d.skipEmptyFields)

/-- The completion test. `false`: the header does not match, the call returns `nullopt`. -/
def checkField (d : GenericDissector) : Called Bool :=
  match d.currentPacketStack with
  | [] => (.ok true, d)
  | top :: rest =>
    if d.currentMessageBuffer.length = top.size.toNat then
      if top.isHeaderValue && top.value != d.currentMessageBuffer then
        match d.currentMessageBuffer with
        | [] => (.error (.undefined .eraseOutside), d)
        | _ :: bytes => (.ok false, { d with currentMessageBuffer := bytes })
      else
        match d.completeField top rest with
        | (.error e, d) => (.error e, d)
        | (.ok _, d) => (.ok true, d)
    else (.ok true, d)

/-- The size callback of the top, when it has one. `none`: more bytes are needed, the call returns
`nullopt`. -/
def calculateSize (d : GenericDissector) : Except Fault (Option GenericDissector) :=
  match d.currentPacketStack with
  | [] => .error (.undefined .frontOfEmpty)
  | top :: rest =>
    match top.externalSizeCalculation with
    | none => .ok (some d)
    | some callback =>
      if d.currentMessageBuffer.length < top.size.toNat then .ok none
      else
        let res := callback top.toFieldSpec d.currentMessageBuffer
        if res.needMoreBytes then .ok none
        else if d.currentMessageBuffer.length < res.bytesConsumed.toNat then
          .error (.undefined .eraseOutside)
        else .ok (some { d with
          currentPacketStack :=
            { top with size := res.resultValue, externalSizeCalculation := none } :: rest
          currentMessageBuffer := d.currentMessageBuffer.drop res.bytesConsumed.toNat })

def startPacket (d : GenericDissector) : GenericDissector :=
  if d.stackIsEmpty && d.currentMessageBuffer.isEmpty then d.newPacket else d

def pushByte (d : GenericDissector) (b : UInt8) : GenericDissector :=
  { d with currentMessageBuffer := d.currentMessageBuffer ++ [b] }

/-- Don't process an empty field at the top. -/
def skipEmptyTop (d : GenericDissector) : GenericDissector :=
  match d.currentPacketStack with
  | [] => d
  | top :: rest =>
    if top.isCertainlyZeroSized then
      { d with currentPacket := d.currentPacket.add ⟨top.name, []⟩, currentPacketStack := rest }
    else d

/-- The test for a complete packet. -/
def finish (d : GenericDissector) : Called (Option PacketData) :=
  if d.stackIsEmpty then (.ok (some d.currentPacket), { d with currentMessageBuffer := [] })
  else (.ok none, d)

def addByte (d : GenericDissector) (b : UInt8) : Called (Option PacketData) :=
  let d := (d.startPacket.pushByte b).skipEmptyTop
  match d.calculateSize with
  | .error e => (.error e, d)
  | .ok none => (.ok none, d)
  | .ok (some d) =>
    match d.checkField with
    | (.error e, d) => (.error e, d)
    | (.ok false, d) => (.ok none, d)
    | (.ok true, d) => d.finish

def matchesHeader (d : GenericDissector) (header : Bytes) : Except Fault Bool :=
  match d.packetTemplate.fields with
  | [] => .error (.undefined .frontOfEmpty)
  | top :: _ =>
    if header.length < top.size.toNat then .ok false
    else if top.isHeaderValue then .ok (header.take top.size.toNat == top.value)
    else .ok false

/-! ## `addBytes` -/

/-- The local variables of the fixed-size path: `current_data_index`, the packet, `field_sizes`
(the latest entry of a name first) and `removed_fields`. -/
structure FixedState where
  currentDataIndex : Nat := 0
  packet : PacketData
  fieldSizes : List (Str × UInt32) := []
  removedFields : List Str := []

/-- The largest `int`. -/
def intMax : Nat := 2 ^ 31 - 1

/-- `field_size` of a field in the fixed-size path. -/
def FixedState.fieldSize (s : FixedState) (field : FieldDescriptor) : UInt16 :=
  match s.fieldSizes.lookup field.name with
  | some size => size.toUInt16
  | none => field.size

/-- The body of the loop of the fixed-size path. -/
def fixedStep (d : GenericDissector) (bytes : Bytes) (s : FixedState) (field : FieldDescriptor) :
    Except Fault FixedState :=
  let fieldSize := s.fieldSize field
  if fieldSize = 0 then .ok { s with packet := s.packet.add ⟨field.name, []⟩ }
  else if s.removedFields.contains field.name then .ok s
  else
    let currentEnd := s.currentDataIndex + fieldSize.toNat
    if bytes.length < currentEnd then .error (.undefined .sliceOutside)
    else if intMax < currentEnd then .error (.undefined .intOverflow)
    else
      let value := (bytes.drop s.currentDataIndex).take fieldSize.toNat
      let s := { s with currentDataIndex := currentEnd, packet := s.packet.add ⟨field.name, value⟩ }
      let sized : Except Fault FixedState :=
        if field.determinesSizeOf.isEmpty then .ok s
        else
          match d.getSizeFromFieldValue field with
          | .error e => .error e
          | .ok size => .ok { s with fieldSizes := (field.determinesSizeOf, size) :: s.fieldSizes }
      match sized with
      | .error e => .error e
      | .ok s =>
        if field.sizeDeterminesExistenceOf.isEmpty then .ok s
        else
          match d.getSizeFromFieldValue field with
          | .error e => .error e
          | .ok size =>
            if size = 0 then
              .ok { s with removedFields := field.sizeDeterminesExistenceOf :: s.removedFields }
            else .ok s

/-- The loop of the fixed-size path. -/
def fixedLoop (d : GenericDissector) (bytes : Bytes) :
    FixedState → List FieldDescriptor → Except Fault FixedState
  | s, [] => .ok s
  | s, field :: fields =>
    match d.fixedStep bytes s field with
    | .error e => .error e
    | .ok s => fixedLoop d bytes s fields

/-- The loop of the streaming path: the first packet ends it. -/
def streamLoop (d : GenericDissector) : Bytes → Called (Option PacketData)
  | [] => (.ok none, d)
  | b :: bytes =>
    match d.addByte b with
    | (.error e, d) => (.error e, d)
    | (.ok (some packet), d) => (.ok (some packet), d)
    | (.ok none, d) => streamLoop d bytes

def addBytes (d : GenericDissector) (bytes : Bytes) : Called (Option PacketData) :=
  if d.packetTemplate.isFixedSize then
    match d.fixedLoop bytes { packet := { name := d.packetTemplate.getName } }
        d.packetTemplate.fields with
    | .error e => (.error e, d)
    | .ok s => (.ok (some s.packet), d)
  else d.streamLoop bytes

end GenericDissector

end Protos

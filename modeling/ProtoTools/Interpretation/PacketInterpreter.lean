import ProtoTools.Interpretation.Values
import ProtoTools.Dissection.Packet

/-!
# Interpretation of packets (`FieldInterpreter.cpp`, `GenericPacketInterpreter.cpp`)

* `interpret`, `handleSubFields`: one field, and the tree of its subfields. The context is the
  results so far, which the source passes on.
* `interpretPacketData`: the fields of a packet, in order. `OnceSets` is the state that outlives a
  call: the keys that `protos::utils::once` has seen.
* `interpretFields_leaves`: a packet whose fields have leaves without mapper.
-/

namespace Protos

structure NamedValue where
  name : Str
  value : Variant

structure InterpretationResult extends NamedValue where
  format : Str := lit "{}"
  hidden : Bool := false

abbrev InterpretationResults := List InterpretationResult

structure FieldInterpretation where
  name : Str
  type : ValueType := .undefined
  format : Str := lit "{}"
  /-- The function that maps the value of the field (a pure one). -/
  mapper : Option (Variant → InterpretationResults) := none
  subFields : List FieldInterpretation := []
  littleEndian : Bool := true
  hidden : Bool := false

mutual

/-- `FieldInterpreter::interpret`. -/
def interpret (name : Str) (data : Bytes) :
    FieldInterpretation → InterpretationResults → Except Fault InterpretationResults
  | ⟨_, type, format, mapper, [], _, hidden⟩, _ =>
    match asVariant type data with
    | .error e => .error e
    | .ok result =>
      match mapper with
      | some map => .ok (map result)
      | none => .ok [{ name, value := result, format, hidden }]
  | ⟨_, _, _, _, sub :: subs, _, _⟩, context => handleSubFields data (sub :: subs) context []

/-- The loop of `handleSubFields`, with its two lists. -/
def handleSubFields (data : Bytes) :
    List FieldInterpretation → InterpretationResults → InterpretationResults →
      Except Fault InterpretationResults
  | [], _, result => .ok result
  | sub :: subs, internalContext, result =>
    match interpret sub.name data sub internalContext with
    | .error e => .error e
    | .ok res => handleSubFields data subs (internalContext ++ res) (result ++ res)

end

/-! ## `GenericPacketInterpreter` -/

inductive EmptyFieldBehavior where
  | skip | skipAndWarnOnce | emptyString | dash | throwOnce | callBack
  deriving DecidableEq, Repr

structure Behaviors where
  emptyFieldBehavior : EmptyFieldBehavior := .skipAndWarnOnce
  emptyFieldCallback : Option (Str → Except Fault Unit) := none

structure GenericPacketInterpreter where
  /-- The map of the interpretations, by name. -/
  fields : List (Str × FieldInterpretation) := []
  behaviors : Behaviors := {}
  name : Str := []

/-- The keys that the two calls of `once` have seen: the warning and the exception. -/
structure OnceSets where
  warned : List Str := []
  thrown : List Str := []
  deriving DecidableEq, Repr

namespace GenericPacketInterpreter

def hasField (g : GenericPacketInterpreter) (name : Str) : Bool := (g.fields.lookup name).isSome

def findInterpreterForField (g : GenericPacketInterpreter) (name : Str) :
    Except Fault FieldInterpretation :=
  match g.fields.lookup name with
  | some fi => .ok fi
  | none => .error (.runtimeError (lit "Interpreter for field " ++ name ++
      lit " not found in GenericPacketInterpreter " ++ g.name))

/-- `addField`: `emplace` keeps an interpretation that is there. -/
def addField (g : GenericPacketInterpreter) (fi : FieldInterpretation) :
    GenericPacketInterpreter :=
  if g.hasField fi.name then g else { g with fields := g.fields ++ [(fi.name, fi)] }

/-- `handleMissingField`: the results with those of the missing field. -/
def handleMissingField (g : GenericPacketInterpreter) (name : Str)
    (results : InterpretationResults) (o : OnceSets) :
    Except Fault InterpretationResults × OnceSets :=
  match g.behaviors.emptyFieldBehavior with
  | .skip => (.ok results, o)
  | .skipAndWarnOnce =>
    if o.warned.contains (name ++ g.name) then (.ok results, o)
    else (.ok results, { o with warned := (name ++ g.name) :: o.warned })
  | .emptyString => (.ok (results ++ [{ name, value := .string [] }]), o)
  | .dash => (.ok (results ++ [{ name, value := .string (lit "-") }]), o)
  | .throwOnce =>
    if o.thrown.contains (name ++ g.name) then (.ok results, o)
    else (.error (.runtimeError (lit "Field '" ++ name ++
        lit "' not found in GenericPacketInterpreter '" ++ g.name ++ lit "'")),
      { o with thrown := (name ++ g.name) :: o.thrown })
  | .callBack =>
    match g.behaviors.emptyFieldCallback with
    | none => (.error .badFunctionCall, o)
    | some callback =>
      match callback name with
      | .error e => (.error e, o)
      | .ok () => (.ok results, o)

/-- The loop of `interpretPacketData`. -/
def interpretFields (g : GenericPacketInterpreter) :
    List FieldData → InterpretationResults → OnceSets →
      Except Fault InterpretationResults × OnceSets
  | [], results, o => (.ok results, o)
  | field :: fields, results, o =>
    if g.hasField field.name then
      match g.findInterpreterForField field.name with
      | .error e => (.error e, o)
      | .ok fi =>
        match interpret field.name field.value fi results with
        | .error e => (.error e, o)
        | .ok res => interpretFields g fields (results ++ res) o
    else
      match g.handleMissingField field.name results o with
      | (.error e, o) => (.error e, o)
      | (.ok results, o) => interpretFields g fields results o

def interpretPacketData (g : GenericPacketInterpreter) (data : PacketData) (o : OnceSets) :
    Except Fault InterpretationResults × OnceSets :=
  g.interpretFields data.fields [] o

end GenericPacketInterpreter

/-! ## Leaves without mapper -/

/-- A leaf: the value itself is the result. -/
def FieldInterpretation.IsPlainLeaf (fi : FieldInterpretation) : Prop :=
  fi.subFields = [] ∧ fi.mapper.isNone = true

theorem interpret_plainLeaf {fi : FieldInterpretation} (hfi : fi.IsPlainLeaf) {name : Str}
    {data : Bytes} {v : Variant} (hv : asVariant fi.type data = .ok v)
    (context : InterpretationResults) : interpret name data fi context =
      .ok [{ name, value := v, format := fi.format, hidden := fi.hidden }] := by
  obtain ⟨n, type, format, mapper, subFields, littleEndian, hidden⟩ := fi
  obtain ⟨hsub, hmap⟩ := hfi
  simp only [Option.isNone_iff_eq_none] at hsub hmap
  subst hsub hmap
  simp only at hv
  simp [interpret, hv]

/-- A packet whose fields all have plain leaves: one result per field, in order, with the converted
value. -/
theorem interpretFields_leaves {g : GenericPacketInterpreter} {ds : List FieldData}
    {value : FieldData → Variant}
    (h : ∀ d ∈ ds, ∃ fi, g.fields.lookup d.name = some fi ∧ fi.IsPlainLeaf ∧
      asVariant fi.type d.value = .ok (value d)) (results : InterpretationResults)
    (o : OnceSets) :
    ∃ res, g.interpretFields ds results o = (.ok (results ++ res), o) ∧
      res.map (·.name) = ds.map (·.name) ∧ res.map (·.value) = ds.map value := by
  induction ds generalizing results with
  | nil => exact ⟨[], by simp [GenericPacketInterpreter.interpretFields], rfl, rfl⟩
  | cons d ds ih =>
    obtain ⟨fi, hlook, hleaf, hv⟩ := h d (.head _)
    obtain ⟨res, h1, h2, h3⟩ := ih (fun d' hd' => h d' (.tail _ hd'))
      (results ++ [{ name := d.name, value := value d, format := fi.format, hidden := fi.hidden }])
    refine ⟨{ name := d.name, value := value d, format := fi.format, hidden := fi.hidden } :: res,
      ?_, ?_, ?_⟩
    · have hhas : g.hasField d.name = true := by
        simp [GenericPacketInterpreter.hasField, hlook]
      rw [GenericPacketInterpreter.interpretFields, if_pos hhas,
        GenericPacketInterpreter.findInterpreterForField, hlook]
      simp only [interpret_plainLeaf hleaf hv _, h1, List.append_assoc, List.singleton_append]
    · rw [List.map_cons, List.map_cons, h2]
    · rw [List.map_cons, List.map_cons, h3]

end Protos

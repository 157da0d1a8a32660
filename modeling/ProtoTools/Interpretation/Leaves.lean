import ProtoTools.Interpretation.PacketInterpreter

/-!
# Interpretation as flattening

* `FieldInterpretation.leaves`: the leaves of a tree, left to right. `leafResults`: what a leaf
  makes of the bytes of its field.
* `interpret_eq`, `handleSubFields_eq`: a tree is interpreted as its leaves are, one after the
  other, and the context does not matter.
* `built`: the interpreter after calls of `addField`. `lookup_built`: of several interpretations
  with a name, the first is kept.
* `interpretation_flattens`: the results of a packet are those of its fields, in order.
-/

namespace Protos

mutual

/-- The leaves of a tree, left to right. -/
def FieldInterpretation.leaves : FieldInterpretation → List FieldInterpretation
  | ⟨name, type, format, mapper, [], littleEndian, hidden⟩ =>
    [⟨name, type, format, mapper, [], littleEndian, hidden⟩]
  | ⟨_, _, _, _, sub :: subs, _, _⟩ => leavesOf (sub :: subs)

def leavesOf : List FieldInterpretation → List FieldInterpretation
  | [] => []
  | sub :: subs => sub.leaves ++ leavesOf subs

end

/-- The results of a leaf with the value `v`. -/
def FieldInterpretation.results (leaf : FieldInterpretation) (v : Variant) :
    InterpretationResults :=
  match leaf.mapper with
  | some map => map v
  | none => [{ name := leaf.name, value := v, format := leaf.format, hidden := leaf.hidden }]

/-- The conversion of the leaf has a value. -/
def FieldInterpretation.Converts (leaf : FieldInterpretation) (data : Bytes) : Prop :=
  ∃ v, asVariant leaf.type data = .ok v

/-- The results of a leaf, for bytes that it converts. -/
def leafResults (data : Bytes) (leaf : FieldInterpretation) : InterpretationResults :=
  match asVariant leaf.type data with
  | .ok v => leaf.results v
  | .error _ => []

/-- Leaves one after the other, to the first conversion that fails. -/
def collect (data : Bytes) : List FieldInterpretation → Except Fault InterpretationResults
  | [] => .ok []
  | leaf :: leaves =>
    match asVariant leaf.type data with
    | .error e => .error e
    | .ok v => (collect data leaves).map (leaf.results v ++ ·)

section Trees

variable {data : Bytes} {fi : FieldInterpretation} {leaves : List FieldInterpretation}

/-- Only the conversion to a `bool` has bytes without a value. -/
theorem converts_of_ne_bool {leaf : FieldInterpretation} (h : leaf.type ≠ .bool) (data : Bytes) :
    leaf.Converts data := by
  unfold FieldInterpretation.Converts asVariant
  cases htype : leaf.type with
  | bool => exact absurd htype h
  | _ => exact ⟨_, rfl⟩

theorem collect_append (leaves leaves' : List FieldInterpretation) :
    collect data (leaves ++ leaves') =
      match collect data leaves with
      | .error e => .error e
      | .ok res => (collect data leaves').map (res ++ ·) := by
  induction leaves with
  | nil =>
    show collect data leaves' = (collect data leaves').map ([] ++ ·)
    cases collect data leaves' <;> rfl
  | cons leaf leaves ih =>
    rw [List.cons_append, collect, collect]
    cases asVariant leaf.type data with
    | error e => rfl
    | ok v =>
      rw [ih]
      cases collect data leaves with
      | error e => rfl
      | ok res =>
        cases collect data leaves' with
        | error e => rfl
        | ok res' => exact congrArg Except.ok (List.append_assoc _ _ _).symm

theorem collect_ok (h : ∀ leaf ∈ leaves, leaf.Converts data) :
    collect data leaves = .ok (leaves.flatMap (leafResults data)) := by
  induction leaves with
  | nil => rfl
  | cons leaf leaves ih =>
    obtain ⟨v, hv⟩ := h leaf (.head _)
    rw [collect, List.flatMap_cons, leafResults, hv, ih fun l hl => h l (.tail _ hl)]
    rfl

theorem converts_of_collect {results : InterpretationResults}
    (h : collect data leaves = .ok results) : ∀ leaf ∈ leaves, leaf.Converts data := by
  induction leaves generalizing results with
  | nil => simp
  | cons leaf leaves ih =>
    rw [collect] at h
    cases hv : asVariant leaf.type data with
    | error e => simp [hv] at h
    | ok v =>
      simp only [hv] at h
      cases hrest : collect data leaves with
      | error e => simp [hrest, Except.map] at h
      | ok rest => exact List.forall_mem_cons.mpr ⟨⟨v, hv⟩, ih hrest⟩

/-- Conversions fail in no way that can be caught. -/
theorem collect_error {data : Bytes} {leaves : List FieldInterpretation} {e : Fault}
    (h : collect data leaves = .error e) : ∃ u, e = .undefined u := by
  induction leaves generalizing e with
  | nil => cases h
  | cons leaf leaves ih =>
    rw [collect] at h
    cases hv : asVariant leaf.type data with
    | error e' =>
      simp only [hv] at h
      cases h
      exact asVariant_error hv
    | ok v =>
      simp only [hv] at h
      cases hrest : collect data leaves with
      | error e' =>
        simp only [hrest] at h
        cases h
        exact ih hrest
      | ok rest => simp [hrest, Except.map] at h

mutual

/-- **A tree is its leaves**, whatever the context. -/
theorem interpret_eq (data : Bytes) : ∀ (fi : FieldInterpretation) (context : _),
    interpret fi.name data fi context = collect data fi.leaves
  | ⟨name, type, format, mapper, [], _, hidden⟩, context => by
    rw [interpret, FieldInterpretation.leaves, collect]
    cases asVariant type data with
    | error e => rfl
    | ok v =>
      show _ = Except.ok (_ ++ [])
      rw [List.append_nil, FieldInterpretation.results]
      cases mapper <;> rfl
  | ⟨_, _, _, _, sub :: subs, _, _⟩, context => by
    rw [interpret, FieldInterpretation.leaves, handleSubFields_eq]
    cases collect data (leavesOf (sub :: subs)) <;> rfl

theorem handleSubFields_eq (data : Bytes) :
    ∀ (subs : List FieldInterpretation) (internalContext result : InterpretationResults),
      handleSubFields data subs internalContext result =
        (collect data (leavesOf subs)).map (result ++ ·)
  | [], _, result => congrArg Except.ok (List.append_nil result).symm
  | sub :: subs, internalContext, result => by
    rw [handleSubFields, leavesOf, interpret_eq data sub, collect_append]
    cases collect data sub.leaves with
    | error e => rfl
    | ok res =>
      show handleSubFields data subs (internalContext ++ res) (result ++ res) = _
      rw [handleSubFields_eq data subs]
      cases collect data (leavesOf subs) with
      | error e => rfl
      | ok rest => exact congrArg Except.ok (List.append_assoc _ _ _)

end

/-- The context changes nothing, under any name. -/
theorem interpret_context (name : Str) (data : Bytes) (fi : FieldInterpretation)
    (context context' : InterpretationResults) :
    interpret name data fi context = interpret name data fi context' := by
  obtain ⟨n, type, format, mapper, subFields, littleEndian, hidden⟩ := fi
  cases subFields with
  | nil => rfl
  | cons sub subs => rw [interpret, interpret, handleSubFields_eq, handleSubFields_eq]

/-- An interpretation that returns. -/
theorem interpret_ok_iff {context results : InterpretationResults} :
    interpret fi.name data fi context = .ok results ↔
      (∀ leaf ∈ fi.leaves, leaf.Converts data) ∧
        fi.leaves.flatMap (leafResults data) = results := by
  rw [interpret_eq]
  constructor
  · intro h
    have hconv := converts_of_collect h
    rw [collect_ok hconv] at h
    exact ⟨hconv, Except.ok.inj h⟩
  · rintro ⟨hconv, rfl⟩
    exact collect_ok hconv

end Trees

/-! ## Interpreters and packets -/

section Results

variable {o : OnceSets}

theorem handleMissingField_results (g : GenericPacketInterpreter) (field : Str)
    (results : InterpretationResults) :
    g.handleMissingField field results o =
      ((g.handleMissingField field [] o).1.map (results ++ ·),
        (g.handleMissingField field [] o).2) := by
  unfold GenericPacketInterpreter.handleMissingField
  cases g.behaviors.emptyFieldBehavior with
  | skip => simp [Except.map]
  | emptyString => rfl
  | dash => rfl
  | skipAndWarnOnce => dsimp only; split <;> simp [Except.map]
  | throwOnce => dsimp only; split <;> simp [Except.map]
  | callBack =>
    cases g.behaviors.emptyFieldCallback with
    | none => rfl
    | some callback =>
      dsimp only
      cases callback field <;> simp [Except.map]

/-- The results so far stay in front, and change nothing else. -/
theorem interpretFields_results (g : GenericPacketInterpreter) (fields : List FieldData)
    (results : InterpretationResults) : g.interpretFields fields results o =
      ((g.interpretFields fields [] o).1.map (results ++ ·), (g.interpretFields fields [] o).2) := by
  induction fields generalizing results o with
  | nil => simp [GenericPacketInterpreter.interpretFields, Except.map]
  | cons field fields ih =>
    -- what the rest of the fields adds goes after both
    have hrest : ∀ (res : InterpretationResults) (o : OnceSets),
        g.interpretFields fields (results ++ res) o =
          ((g.interpretFields fields res o).1.map (results ++ ·),
            (g.interpretFields fields res o).2) := by
      intro res o
      rw [ih (results ++ res), ih res]
      cases (g.interpretFields fields [] o).1 <;> simp [Except.map]
    rw [GenericPacketInterpreter.interpretFields, GenericPacketInterpreter.interpretFields]
    split
    · cases g.findInterpreterForField field.name with
      | error e => rfl
      | ok fi =>
        simp only [interpret_context field.name field.value fi results []]
        cases interpret field.name field.value fi [] with
        | error e => rfl
        | ok res => exact hrest ([] ++ res) o
    · rw [handleMissingField_results]
      cases g.handleMissingField field.name [] o with
      | mk r o' =>
        cases r with
        | error e => rfl
        | ok res => exact hrest res o'

end Results

/-- The interpreter after the calls of `addField`. -/
def built (behaviors : Behaviors) (name : Str) (fis : List FieldInterpretation) :
    GenericPacketInterpreter :=
  fis.foldl GenericPacketInterpreter.addField { behaviors, name }

/-- The interpretation that was added first under the name. -/
def firstAdded (fis : List FieldInterpretation) (name : Str) : Option FieldInterpretation :=
  fis.find? (·.name == name)

/-- The results of a field without interpretation. -/
def missingResults (behavior : EmptyFieldBehavior) (name : Str) : InterpretationResults :=
  match behavior with
  | .emptyString => [{ name, value := .string [] }]
  | .dash => [{ name, value := .string (lit "-") }]
  | _ => []

/-- The results of a field. -/
def fieldResults (behavior : EmptyFieldBehavior) (fis : List FieldInterpretation)
    (field : FieldData) : InterpretationResults :=
  match firstAdded fis field.name with
  | some fi => fi.leaves.flatMap (leafResults field.value)
  | none => missingResults behavior field.name

/-- All conversions of the packet have a value. -/
def ConvertsAll (fis : List FieldInterpretation) (fields : List FieldData) : Prop :=
  ∀ field ∈ fields, ∀ fi, firstAdded fis field.name = some fi →
    ∀ leaf ∈ fi.leaves, leaf.Converts field.value

/-- A field without interpretation is reported in the results, or not at all. -/
def Quiet (behavior : EmptyFieldBehavior) : Prop :=
  behavior = .skip ∨ behavior = .emptyString ∨ behavior = .dash

section Built

variable {behaviors : Behaviors} {interpreterName : Str} {fis : List FieldInterpretation}
  {g : GenericPacketInterpreter}

theorem lookup_addField (fi : FieldInterpretation) (name : Str) :
    (g.addField fi).fields.lookup name =
      (g.fields.lookup name).or (if fi.name == name then some fi else none) := by
  unfold GenericPacketInterpreter.addField GenericPacketInterpreter.hasField
  by_cases hn : fi.name = name
  · subst hn
    cases h : g.fields.lookup fi.name <;> simp [h, List.lookup_append]
  · have hne : (fi.name == name) = false := beq_eq_false_iff_ne.mpr hn
    have hne' : (name == fi.name) = false := beq_eq_false_iff_ne.mpr (Ne.symm hn)
    split <;> simp [hne, hne', List.lookup_append, List.lookup_cons]

theorem addField_config (fi : FieldInterpretation) :
    (g.addField fi).behaviors = g.behaviors ∧ (g.addField fi).name = g.name := by
  unfold GenericPacketInterpreter.addField
  split <;> exact ⟨rfl, rfl⟩

theorem lookup_built (name : Str) :
    (built behaviors interpreterName fis).fields.lookup name = firstAdded fis name := by
  have hfold : ∀ g : GenericPacketInterpreter,
      (fis.foldl GenericPacketInterpreter.addField g).fields.lookup name =
        (g.fields.lookup name).or (firstAdded fis name) := by
    induction fis with
    | nil => intro g; exact (Option.or_none).symm
    | cons fi fis ih =>
      intro g
      rw [List.foldl_cons, ih, lookup_addField, Option.or_assoc, firstAdded, firstAdded,
        List.find?_cons]
      cases fi.name == name <;> simp
  exact hfold _

theorem built_config : (built behaviors interpreterName fis).behaviors = behaviors ∧
    (built behaviors interpreterName fis).name = interpreterName := by
  have hfold : ∀ g : GenericPacketInterpreter,
      (fis.foldl GenericPacketInterpreter.addField g).behaviors = g.behaviors ∧
        (fis.foldl GenericPacketInterpreter.addField g).name = g.name := by
    induction fis with
    | nil => exact fun g => ⟨rfl, rfl⟩
    | cons fi fis ih =>
      intro g
      rw [List.foldl_cons, (ih _).1, (ih _).2]
      exact addField_config fi
  exact hfold _

theorem firstAdded_name {name : Str} {fi : FieldInterpretation}
    (h : firstAdded fis name = some fi) : fi.name = name := by
  simpa using List.find?_some h

/-- One field with an interpretation. -/
theorem interpretFields_some {field : FieldData} {fi : FieldInterpretation}
    (h : firstAdded fis field.name = some fi) (fields : List FieldData)
    (results : InterpretationResults) (o : OnceSets) :
    (built behaviors interpreterName fis).interpretFields (field :: fields) results o =
      match collect field.value fi.leaves with
      | .error e => (.error e, o)
      | .ok res =>
        (built behaviors interpreterName fis).interpretFields fields (results ++ res) o := by
  have hlook : (built behaviors interpreterName fis).fields.lookup field.name = some fi :=
    (lookup_built _).trans h
  have hres := interpret_eq field.value fi results
  rw [firstAdded_name h] at hres
  rw [GenericPacketInterpreter.interpretFields, GenericPacketInterpreter.hasField,
    GenericPacketInterpreter.findInterpreterForField, hlook,
    if_pos Option.isSome_some]
  cases hcollect : collect field.value fi.leaves with
  | error e => simp only [hres, hcollect]
  | ok res => simp only [hres, hcollect]

/-- One field without an interpretation. -/
theorem interpretFields_none {field : FieldData} (h : firstAdded fis field.name = none)
    (fields : List FieldData) (results : InterpretationResults) (o : OnceSets) :
    (built behaviors interpreterName fis).interpretFields (field :: fields) results o =
      match (built behaviors interpreterName fis).handleMissingField field.name results o with
      | (.error e, o) => (.error e, o)
      | (.ok results, o) =>
        (built behaviors interpreterName fis).interpretFields fields results o := by
  have hlook : (built behaviors interpreterName fis).fields.lookup field.name = none :=
    (lookup_built _).trans h
  have hhas : (built behaviors interpreterName fis).hasField field.name = false := by
    rw [GenericPacketInterpreter.hasField, hlook]
    rfl
  cases hmiss : (built behaviors interpreterName fis).handleMissingField field.name results o with
  | mk result o' =>
    cases result with
    | error e => simp [GenericPacketInterpreter.interpretFields, hhas, hmiss]
    | ok results' => simp [GenericPacketInterpreter.interpretFields, hhas, hmiss]

theorem handleMissingField_quiet (hq : Quiet behaviors.emptyFieldBehavior) (name : Str)
    (results : InterpretationResults) (o : OnceSets) :
    (built behaviors interpreterName fis).handleMissingField name results o =
      (.ok (results ++ missingResults behaviors.emptyFieldBehavior name), o) := by
  rw [GenericPacketInterpreter.handleMissingField, built_config.1]
  rcases hq with h | h | h
  · simp [h, missingResults]
  · rw [h, missingResults]
  · rw [h, missingResults]

/-- The loop over the fields: the induction is on the fields, with any results before them. -/
theorem interpretFields_ok (hq : Quiet behaviors.emptyFieldBehavior) {fields : List FieldData}
    (h : ConvertsAll fis fields) (results : InterpretationResults) (o : OnceSets) :
    (built behaviors interpreterName fis).interpretFields fields results o =
      (.ok (results ++ fields.flatMap (fieldResults behaviors.emptyFieldBehavior fis)), o) := by
  induction fields generalizing results with
  | nil => rw [List.flatMap_nil, List.append_nil, GenericPacketInterpreter.interpretFields]
  | cons field fields ih =>
    have hrest : ConvertsAll fis fields := fun f hf => h f (.tail _ hf)
    rw [List.flatMap_cons, ← List.append_assoc, fieldResults]
    cases hfi : firstAdded fis field.name with
    | some fi =>
      rw [interpretFields_some hfi, collect_ok (h field (.head _) fi hfi), ← ih hrest]
    | none =>
      rw [interpretFields_none hfi, handleMissingField_quiet hq, ← ih hrest]

end Built

/-- The interpreter with these interpretations flattens packets. -/
structure Flattens (g : GenericPacketInterpreter) (fis : List FieldInterpretation) : Prop where
  results : ∀ p, ConvertsAll fis p.fields → ∀ o, g.interpretPacketData p o =
    (.ok (p.fields.flatMap (fieldResults g.behaviors.emptyFieldBehavior fis)), o)
  context : ∀ name data fi context context', interpret name data fi context =
    interpret name data fi context'
  append : ∀ p q name, ConvertsAll fis p.fields → ConvertsAll fis q.fields → ∀ o, ∃ rp rq,
    g.interpretPacketData p o = (.ok rp, o) ∧ g.interpretPacketData q o = (.ok rq, o) ∧
      g.interpretPacketData ⟨name, p.fields ++ q.fields⟩ o = (.ok (rp ++ rq), o)

/-- **Interpretation is flattening.** -/
theorem interpretation_flattens {behaviors : Behaviors} (hq : Quiet behaviors.emptyFieldBehavior)
    (name : Str) (fis : List FieldInterpretation) :
    Flattens (built behaviors name fis) fis := by
  have hresults : ∀ p : PacketData, ConvertsAll fis p.fields → ∀ o,
      (built behaviors name fis).interpretPacketData p o =
        (.ok (p.fields.flatMap (fieldResults behaviors.emptyFieldBehavior fis)), o) :=
    fun p h o => interpretFields_ok hq h [] o
  refine ⟨?_, interpret_context, ?_⟩
  · rw [built_config.1]
    exact hresults
  · intro p q packetName hp hqq o
    refine ⟨_, _, hresults p hp o, hresults q hqq o, ?_⟩
    rw [← List.flatMap_append]
    exact hresults ⟨packetName, p.fields ++ q.fields⟩
      (fun f hf => (List.mem_append.mp hf).elim (hp f) (hqq f)) o

/-- A tree with an inner node and a mapper, a second interpretation of its name, and no
interpretation of the other field. -/
def treeOfTwo : List FieldInterpretation :=
  [{ name := lit "A", subFields := [
      { name := lit "X", subFields := [{ name := lit "U", type := .unsignedInteger }] },
      { name := lit "Y", type := .bytes, mapper := some fun v => [
        { name := lit "M", value := v }, { name := lit "M", value := v, hidden := true }] }] },
   { name := lit "A", type := .string }]

theorem interpretation_flattens_treeOfTwo :
    (built { emptyFieldBehavior := .dash } (lit "P") treeOfTwo).interpretPacketData
        ⟨lit "P", [⟨lit "A", [7]⟩, ⟨lit "B", []⟩]⟩ {} =
      (.ok [{ name := lit "U", value := .uint64 7 }, { name := lit "M", value := .bytes [7] },
        { name := lit "M", value := .bytes [7], hidden := true },
        { name := lit "B", value := .string (lit "-") }], {}) := by
  refine (interpretation_flattens (.inr (.inr rfl)) (lit "P") treeOfTwo).results _ ?_ {}
  have htypes : ∀ fi ∈ treeOfTwo, ∀ leaf ∈ fi.leaves, leaf.type ≠ .bool := by decide
  intro field _ fi hfi leaf hleaf
  exact converts_of_ne_bool (htypes fi (List.mem_of_find?_eq_some hfi) leaf hleaf) field.value

end Protos

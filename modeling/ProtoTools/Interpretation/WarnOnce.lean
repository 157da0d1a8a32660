import Mathlib.Data.List.Dedup
import ProtoTools.Interpretation.ThrowOnce

/-!
# Fields that are warned about once (`SKIP_AND_WARN_ONCE`, `Once.hpp`)

The default behaviour, among calls of interpreters with any behaviours. The keys of the warnings are
the warnings that were printed, the latest first.

* `warnings`: the keys of the fields that a call is to warn about.
* `interpretFields_warn`: one call. It returns its results, whatever is missing.
* `warned_once`: the warnings of a run are those of its calls, each the first time.
-/

namespace Protos

open Machine GenericPacketInterpreter

/-- The keys of the fields that a call of an interpreter with the default behaviour lacks. -/
def warnings (c : InterpretCall) : List Str :=
  if c.1.behaviors.emptyFieldBehavior = .skipAndWarnOnce then (missing c).map (· ++ c.1.name)
  else []

/-- The keys with others that come later. -/
def insertAll (keys more : List Str) : List Str := more.foldl (fun keys key => keys.insert key) keys

section Warnings

variable {behaviors : Behaviors} {name : Str} {fis : List FieldInterpretation} {o : OnceSets}

theorem insertAll_append (keys more more' : List Str) :
    insertAll keys (more ++ more') = insertAll (insertAll keys more) more' := List.foldl_append ..

/-- The latest first, and each where it came first. -/
theorem insertAll_nil (keys : List Str) : insertAll [] keys = keys.reverse.dedup := by
  induction keys using List.reverseRecOn with
  | nil => rfl
  | append_singleton keys key ih =>
    rw [insertAll_append, ih, List.reverse_append, List.reverse_singleton, List.singleton_append]
    by_cases hmem : key ∈ keys.reverse
    · rw [List.dedup_cons_of_mem hmem]
      exact List.insert_of_mem (List.mem_dedup.mpr hmem)
    · rw [List.dedup_cons_of_notMem hmem]
      exact List.insert_of_not_mem (List.mem_dedup.not.mpr hmem)

/-- Other behaviours warn about nothing. -/
theorem warned_handleMissingField {g : GenericPacketInterpreter}
    (hb : g.behaviors.emptyFieldBehavior ≠ .skipAndWarnOnce) (field : Str)
    (results : InterpretationResults) (o : OnceSets) :
    (g.handleMissingField field results o).2.warned = o.warned := by
  unfold handleMissingField
  cases h : g.behaviors.emptyFieldBehavior with
  | skipAndWarnOnce => exact absurd h hb
  | throwOnce =>
    dsimp only
    split <;> rfl
  | callBack =>
    dsimp only
    split
    · rfl
    · split <;> rfl
  | _ => rfl

theorem warned_interpretFields_other {g : GenericPacketInterpreter}
    (hb : g.behaviors.emptyFieldBehavior ≠ .skipAndWarnOnce) (fields : List FieldData)
    (results : InterpretationResults) (o : OnceSets) :
    (g.interpretFields fields results o).2.warned = o.warned := by
  induction fields generalizing results o with
  | nil => rfl
  | cons field fields ih =>
    rw [interpretFields]
    split
    · split
      · rfl
      · split
        · rfl
        · exact ih _ _
    · have hmissing := warned_handleMissingField hb field.name results o
      split
      · rename_i e o' h
        rw [h] at hmissing
        exact hmissing
      · rename_i results' o' h
        rw [h] at hmissing
        exact (ih _ _).trans hmissing

theorem handleMissingField_warn (hb : behaviors.emptyFieldBehavior = .skipAndWarnOnce) (field : Str)
    (results : InterpretationResults) (o : OnceSets) :
    (built behaviors name fis).handleMissingField field results o =
      (.ok results, { o with warned := o.warned.insert (field ++ name) }) := by
  rw [handleMissingField, built_config.1, built_config.2, hb]
  dsimp only
  split
  · rename_i hmem
    rw [List.insert_of_mem (List.contains_iff_mem.mp hmem)]
  · rename_i hmem
    rw [List.insert_of_not_mem (fun h => hmem (List.contains_iff_mem.mpr h))]

/-- **One call** with the default behaviour returns the results of the fields that have an
interpretation, and warns about the others. -/
theorem interpretFields_warn (hb : behaviors.emptyFieldBehavior = .skipAndWarnOnce)
    (packetName : Str) {fields : List FieldData} {results : InterpretationResults}
    (hdef : ∀ u, ((built behaviors name fis).interpretFields fields results o).1 ≠
      .error (.undefined u)) :
    (built behaviors name fis).interpretFields fields results o =
      (.ok (results ++ fields.flatMap (fieldResults .skipAndWarnOnce fis)), { o with
        warned := insertAll o.warned
          ((missing (built behaviors name fis, ⟨packetName, fields⟩)).map (· ++ name)) }) := by
  induction fields generalizing results o with
  | nil =>
    rw [List.flatMap_nil, List.append_nil]
    rfl
  | cons field fields ih =>
    rw [missing_cons, List.flatMap_cons, ← List.append_assoc, fieldResults]
    cases hfi : firstAdded fis field.name with
    | some fi =>
      rw [if_pos Option.isSome_some]
      rw [interpretFields_some hfi] at hdef ⊢
      cases hres : collect field.value fi.leaves with
      | error e =>
        obtain ⟨u, rfl⟩ := collect_error hres
        exact absurd rfl (hres ▸ hdef u)
      | ok res =>
        simp only [hres] at hdef ⊢
        rw [collect_ok (converts_of_collect hres)] at hres
        cases hres
        exact ih hdef
    | none =>
      rw [if_neg (by simp), List.map_cons]
      rw [interpretFields_none hfi, handleMissingField_warn hb] at hdef ⊢
      have hnone : missingResults .skipAndWarnOnce field.name = [] := rfl
      rw [hnone, List.append_nil]
      exact ih hdef

/-- The warnings of a call, whatever the behaviour. -/
theorem warned_call {c : InterpretCall} (hc : ∃ behaviors name fis, c.1 = built behaviors name fis)
    (hdef : ∀ u, (interpretCall o c).1 ≠ .error (.undefined u)) :
    (interpretCall o c).2.warned = insertAll o.warned (warnings c) := by
  obtain ⟨g, packetName, fields⟩ := c
  obtain ⟨behaviors, name, fis, rfl⟩ := hc
  by_cases hb : behaviors.emptyFieldBehavior = .skipAndWarnOnce
  · rw [warnings, built_config.1, built_config.2, if_pos hb]
    exact congrArg (·.2.warned) (interpretFields_warn hb packetName hdef)
  · rw [warnings, built_config.1, if_neg hb]
    exact warned_interpretFields_other (by rwa [built_config.1]) fields [] o

/-- **Warnings are printed once**, in the order in which their fields came up, whatever the other
calls report and throw, and a call that is to warn about its fields returns the results of the
others. -/
theorem warned_once {calls : List InterpretCall}
    (hcalls : ∀ c ∈ calls, ∃ behaviors name fis, c.1 = built behaviors name fis)
    (hdef : ∀ r ∈ outputs interpretCall {} calls, ∀ u, r ≠ .error (.undefined u)) :
    (after interpretCall {} calls).warned = (calls.flatMap warnings).reverse.dedup ∧
      ∀ r ∈ trace interpretCall {} calls, ∀ behaviors name fis,
        r.1.1 = built behaviors name fis → behaviors.emptyFieldBehavior = .skipAndWarnOnce →
          r.2 = .ok (r.1.2.fields.flatMap (fieldResults .skipAndWarnOnce fis)) := by
  induction calls using List.reverseRecOn with
  | nil => exact ⟨rfl, by simp⟩
  | append_singleton calls c ih =>
    rw [outputs_append, List.forall_mem_append] at hdef
    rw [List.forall_mem_append] at hcalls
    obtain ⟨hwarned, htrace⟩ := ih hcalls.1 hdef.1
    have hc := hcalls.2 c (.head _)
    have hlast := hdef.2 _ (.head _)
    constructor
    · have hcall : (after interpretCall {} (calls ++ [c])).warned =
          insertAll (after interpretCall {} calls).warned (warnings c) := by
        rw [after_append]
        exact warned_call hc hlast
      rw [hcall, hwarned, List.flatMap_append, List.flatMap_singleton, ← insertAll_nil,
        ← insertAll_append, insertAll_nil]
    · rw [trace_append, List.forall_mem_append]
      refine ⟨htrace, ?_⟩
      rintro r (_ | ⟨_, ⟨⟩⟩) behaviors name fis hbuilt hb
      obtain ⟨g, packetName, fields⟩ := c
      obtain rfl : g = built behaviors name fis := hbuilt
      exact congrArg Prod.fst (interpretFields_warn hb packetName hlast)

end Warnings

/-- Two interpreters whose fields share a key, and one that throws for it in between. -/
def sharedCalls : List InterpretCall :=
  [(built {} (lit "c") [{ name := lit "x", type := .bytes }],
      ⟨lit "packet", [⟨lit "ab", []⟩, ⟨lit "x", [7]⟩]⟩),
    onceCall (lit "c") (lit "ab"),
    (built {} (lit "bc") [], ⟨lit "packet", [⟨lit "a", []⟩, ⟨lit "b", []⟩]⟩)]

/-- They warn about it once, and the other field of the first one is interpreted. -/
theorem warned_once_shared :
    (after interpretCall {} sharedCalls).warned = [lit "bbc", lit "abc"] ∧
      (outputs interpretCall {} sharedCalls).head? =
        some (.ok [{ name := lit "x", value := .bytes [7] }]) := by
  have hcalls : ∀ c ∈ sharedCalls, ∃ behaviors name fis, c.1 = built behaviors name fis := by
    simp only [sharedCalls, List.forall_mem_cons]
    exact ⟨⟨_, _, _, rfl⟩, ⟨_, _, _, rfl⟩, ⟨_, _, _, rfl⟩, by simp⟩
  have houtputs : outputs interpretCall {} sharedCalls =
      [.ok [{ name := lit "x", value := .bytes [7] }],
        .error (notFound (lit "c") (lit "ab")), .ok []] := rfl
  obtain ⟨hwarned, hresults⟩ := warned_once hcalls (by rw [houtputs]; simp [notFound])
  have hfirst := hresults _ (.head _) _ _ _ rfl rfl
  exact ⟨hwarned.trans (by decide), congrArg some hfirst⟩

end Protos

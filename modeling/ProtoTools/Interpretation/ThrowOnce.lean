import ProtoTools.Lib.Machine
import ProtoTools.Interpretation.Leaves

/-!
# Fields that are reported once (`TROW_ONCE`, `Once.hpp`)

* `interpretCall`: a call of `interpretPacketData`, from the keys that the process has seen.
* `reported`: a call of the history threw for the field and the interpreter. `Tracks`: a call
  throws for the first field that was not reported.
* `interpretCall_eq`: what a call throws is decided by the keys. `keys_run`: these are the
  concatenations of the reported pairs.
* `throw_once_iff`: the calls of a run track the pairs exactly when no pair that is to be reported
  has the concatenation of one that was.
-/

namespace Protos

open Machine GenericPacketInterpreter

/-- The interpreter and the packet of a call of `interpretPacketData`. -/
abbrev InterpretCall := GenericPacketInterpreter × PacketData

abbrev CallHistory := List (InterpretCall × Except Fault InterpretationResults)

def interpretCall (o : OnceSets) (c : InterpretCall) :
    Except Fault InterpretationResults × OnceSets :=
  c.1.interpretPacketData c.2 o

/-- An interpreter that throws once for a field without interpretation. -/
def ThrowsOnce (g : GenericPacketInterpreter) : Prop :=
  g.behaviors.emptyFieldBehavior = .throwOnce ∧ ∃ behaviors name fis, g = built behaviors name fis

/-- The exception of `handleMissingField`. -/
def notFound (interpreterName field : Str) : Fault :=
  .runtimeError (lit "Field '" ++ field ++ lit "' not found in GenericPacketInterpreter '" ++
    interpreterName ++ lit "'")

/-- The fields of the packet without interpretation, in order. -/
def missing (c : InterpretCall) : List Str :=
  (c.2.fields.map (·.name)).filter fun name => !c.1.hasField name

/-- A call of an interpreter with this name threw for the field. -/
def reported (history : CallHistory) (interpreterName field : Str) : Bool :=
  history.any fun (c, result) => c.1.name == interpreterName &&
    match result with
    | .error e => e == notFound interpreterName field
    | .ok _ => false

/-- The first field to report, when reports are per interpreter name and field name. -/
def firstUnreported (history : CallHistory) (c : InterpretCall) : Option Str :=
  (missing c).find? fun field => !reported history c.1.name field

/-- The call throws exactly for a field that was not reported, and for the first one. -/
structure Tracks (history : CallHistory) (c : InterpretCall)
    (result : Except Fault InterpretationResults) : Prop where
  throws : (∃ e, result = .error e) ↔
    ∃ field ∈ missing c, reported history c.1.name field = false
  reports : ∀ field, firstUnreported history c = some field →
    result = .error (notFound c.1.name field)

/-- A pair was reported whose names, put together, are those of the pair. -/
def Collides (history : CallHistory) (interpreterName field : Str) : Prop :=
  ∃ interpreterName' field', reported history interpreterName' field' = true ∧
    field' ++ interpreterName' = field ++ interpreterName

/-- The keys of `once` are the reported pairs, put together. -/
def Keys (history : CallHistory) (thrown : List Str) : Prop :=
  ∀ key, key ∈ thrown ↔
    ∃ interpreterName field, reported history interpreterName field = true ∧
      field ++ interpreterName = key

/-- Every call of the run tracks the pairs. -/
def TracksAll (calls : List InterpretCall) : Prop :=
  ∀ before c rest, calls = before ++ c :: rest → Tracks (trace interpretCall {} before) c
    (interpretCall (after interpretCall {} before) c).1

/-- No pair that a call is to report has the names of a reported one, put together. -/
def NoCollision (calls : List InterpretCall) : Prop :=
  ∀ before c rest, calls = before ++ c :: rest → ∀ field,
    firstUnreported (trace interpretCall {} before) c = some field →
      ¬ Collides (trace interpretCall {} before) c.1.name field

section Calls

variable {c : InterpretCall} {o : OnceSets} {history : CallHistory}
  {result : Except Fault InterpretationResults}

theorem notFound_inj {interpreterName field field' : Str} :
    notFound interpreterName field = notFound interpreterName field' ↔ field = field' := by
  simp [notFound]

/-- The first field that is thrown for, by the keys. -/
def firstUnseen (o : OnceSets) (c : InterpretCall) : Option Str :=
  (missing c).find? fun field => !o.thrown.contains (field ++ c.1.name)

theorem missing_cons {behaviors : Behaviors} {name packetName : Str}
    {fis : List FieldInterpretation} (field : FieldData) (fields : List FieldData) :
    missing (built behaviors name fis, ⟨packetName, field :: fields⟩) =
      if (firstAdded fis field.name).isSome then
        missing (built behaviors name fis, ⟨packetName, fields⟩)
      else field.name :: missing (built behaviors name fis, ⟨packetName, fields⟩) := by
  simp only [missing, List.map_cons, List.filter_cons, hasField, lookup_built]
  cases firstAdded fis field.name <;> rfl

theorem handleMissingField_throwOnce {g : GenericPacketInterpreter}
    (hb : g.behaviors.emptyFieldBehavior = .throwOnce) (field : Str)
    (results : InterpretationResults) (o : OnceSets) :
    g.handleMissingField field results o =
      if o.thrown.contains (field ++ g.name) then (.ok results, o)
      else (.error (notFound g.name field),
        { o with thrown := (field ++ g.name) :: o.thrown }) := by
  simp only [handleMissingField, hb]
  rfl

/-- The loop over the fields: the induction is on the fields, with any results before them. -/
theorem interpretFields_throwOnce {g : GenericPacketInterpreter} (hg : ThrowsOnce g)
    (packetName : Str) {fields : List FieldData} {results : InterpretationResults}
    (hdef : ∀ u, (g.interpretFields fields results o).1 ≠ .error (.undefined u)) :
    match firstUnseen o (g, ⟨packetName, fields⟩) with
    | some field => g.interpretFields fields results o = (.error (notFound g.name field),
        { o with thrown := (field ++ g.name) :: o.thrown })
    | none => ∃ res, g.interpretFields fields results o = (.ok res, o) := by
  obtain ⟨hb, behaviors, name, fis, rfl⟩ := hg
  induction fields generalizing results with
  | nil => exact ⟨results, by rw [interpretFields]⟩
  | cons field fields ih =>
    rw [firstUnseen, missing_cons]
    cases hfi : firstAdded fis field.name with
    | some fi =>
      rw [if_pos Option.isSome_some]
      rw [interpretFields_some hfi] at hdef ⊢
      cases hres : collect field.value fi.leaves with
      | error e =>
        obtain ⟨u, rfl⟩ := collect_error hres
        exact absurd rfl (hres ▸ hdef u)
      | ok res =>
        simp only [hres] at hdef ⊢
        exact ih hdef
    | none =>
      rw [if_neg (by simp), List.find?_cons]
      rw [interpretFields_none hfi, handleMissingField_throwOnce hb] at hdef ⊢
      cases hseen : o.thrown.contains (field.name ++ (built behaviors name fis).name) with
      | true =>
        simp only [hseen, if_true] at hdef ⊢
        exact ih hdef
      | false => simp

/-- **One call.** What it throws is decided by the keys. -/
theorem interpretCall_eq (hc : ThrowsOnce c.1)
    (hdef : ∀ u, (interpretCall o c).1 ≠ .error (.undefined u)) :
    match firstUnseen o c with
    | some field => interpretCall o c = (.error (notFound c.1.name field),
        { o with thrown := (field ++ c.1.name) :: o.thrown })
    | none => ∃ res, interpretCall o c = (.ok res, o) :=
  interpretFields_throwOnce hc c.2.name hdef

theorem reported_append_ok {results : InterpretationResults} (name field : Str) :
    reported (history ++ [(c, .ok results)]) name field = reported history name field := by
  simp [reported]

theorem reported_append_notFound {field name' field' : Str} :
    reported (history ++ [(c, .error (notFound c.1.name field))]) name' field' = true ↔
      reported history name' field' = true ∨ c.1.name = name' ∧ field = field' := by
  rw [reported, List.any_append, Bool.or_eq_true]
  apply or_congr Iff.rfl
  simp only [List.any_cons, List.any_nil, Bool.or_false, Bool.and_eq_true, beq_iff_eq]
  apply and_congr_right
  rintro rfl
  exact notFound_inj

/-- A call adds what it reports to the keys. -/
theorem keys_call (hk : Keys history o.thrown) (hc : ThrowsOnce c.1)
    (hdef : ∀ u, (interpretCall o c).1 ≠ .error (.undefined u)) :
    Keys (history ++ [(c, (interpretCall o c).1)]) (interpretCall o c).2.thrown := by
  have hcall := interpretCall_eq hc hdef
  intro key
  cases h : firstUnseen o c with
  | none =>
    simp only [h] at hcall
    obtain ⟨res, hres⟩ := hcall
    simp only [hres, reported_append_ok]
    exact hk key
  | some field =>
    simp only [h] at hcall
    simp only [hcall, reported_append_notFound, List.mem_cons, hk key]
    constructor
    · rintro (rfl | ⟨name', field', hrep, rfl⟩)
      · exact ⟨c.1.name, field, .inr ⟨rfl, rfl⟩, rfl⟩
      · exact ⟨name', field', .inl hrep, rfl⟩
    · rintro ⟨name', field', hrep | ⟨rfl, rfl⟩, rfl⟩
      · exact .inr ⟨name', field', hrep, rfl⟩
      · exact .inl rfl

/-- **The keys after a run** are those of the pairs that it reported. -/
theorem keys_run {calls : List InterpretCall} (hcalls : ∀ c ∈ calls, ThrowsOnce c.1)
    (hdef : ∀ r ∈ outputs interpretCall {} calls, ∀ u, r ≠ .error (.undefined u)) :
    Keys (trace interpretCall {} calls) (after interpretCall {} calls).thrown := by
  induction calls using List.reverseRecOn with
  | nil => simp [Keys, reported]
  | append_singleton calls c ih =>
    rw [outputs_append, List.forall_mem_append] at hdef
    rw [List.forall_mem_append] at hcalls
    rw [trace_append, after_append]
    exact keys_call (ih hcalls.1 hdef.1) (hcalls.2 c (.head _)) (hdef.2 _ (.head _))

/-- A field was seen when its names, put together, are those of a reported pair. -/
theorem seen_iff (hk : Keys history o.thrown) (field : Str) :
    o.thrown.contains (field ++ c.1.name) = true ↔ Collides history c.1.name field := by
  rw [List.contains_iff_mem]
  exact hk _

theorem Collides.of_reported {interpreterName field : Str}
    (h : reported history interpreterName field = true) : Collides history interpreterName field :=
  ⟨interpreterName, field, h, rfl⟩

/-- Without a collision, the keys give the field that the pairs give. -/
theorem firstUnseen_eq (hk : Keys history o.thrown)
    (hclear : ∀ field, firstUnreported history c = some field →
      ¬ Collides history c.1.name field) : firstUnseen o c = firstUnreported history c := by
  have hpass : ∀ field, (!reported history c.1.name field) = false →
      (!o.thrown.contains (field ++ c.1.name)) = false := by
    intro field h
    rw [Bool.not_eq_false'] at h ⊢
    exact (seen_iff hk field).mpr (.of_reported h)
  cases hfirst : firstUnreported history c with
  | none =>
    rw [firstUnreported, List.find?_eq_none] at hfirst
    rw [firstUnseen, List.find?_eq_none]
    intro field hf
    rw [hpass field (Bool.eq_false_of_not_eq_true (hfirst field hf))]
    exact Bool.false_ne_true
  | some field =>
    have hunseen : (!o.thrown.contains (field ++ c.1.name)) = true := by
      rw [Bool.not_eq_true']
      exact Bool.eq_false_of_not_eq_true (mt (seen_iff hk field).mp (hclear field hfirst))
    rw [firstUnreported, List.find?_eq_some_iff_append] at hfirst
    obtain ⟨-, before, rest, hsplit, hbefore⟩ := hfirst
    rw [firstUnseen, List.find?_eq_some_iff_append]
    refine ⟨hunseen, before, rest, hsplit, fun field' hf => ?_⟩
    have := hbefore field' hf
    rw [Bool.not_eq_true'] at this ⊢
    exact hpass field' this

/-- A call that throws for the first field that was not reported, and returns without one. -/
theorem tracks_of_first (h : match firstUnreported history c with
    | some field => result = .error (notFound c.1.name field)
    | none => ∃ res, result = .ok res) : Tracks history c result := by
  cases hfirst : firstUnreported history c with
  | none =>
    simp only [hfirst] at h
    obtain ⟨res, rfl⟩ := h
    refine ⟨iff_of_false (fun ⟨e, he⟩ => by cases he) ?_, fun field hf => ?_⟩
    · rintro ⟨field, hf, hnew⟩
      have := List.find?_eq_none.mp hfirst field hf
      rw [hnew] at this
      exact this rfl
    · rw [hfirst] at hf
      cases hf
  | some field =>
    simp only [hfirst] at h
    subst h
    refine ⟨iff_of_true ⟨_, rfl⟩ ⟨field, List.mem_of_find?_eq_some hfirst, ?_⟩, fun field' hf => ?_⟩
    · simpa using List.find?_some hfirst
    · rw [hfirst] at hf
      rw [Option.some.inj hf]

/-- **The next call** tracks the pairs when the one that it is to report has no reported names. -/
theorem tracks_iff (hk : Keys history o.thrown) (hc : ThrowsOnce c.1)
    (hdef : ∀ u, (interpretCall o c).1 ≠ .error (.undefined u)) :
    Tracks history c (interpretCall o c).1 ↔
      ∀ field, firstUnreported history c = some field →
        ¬ Collides history c.1.name field := by
  have hcall := interpretCall_eq hc hdef
  constructor
  · intro ht field hfirst hcol
    have hthrows := ht.reports field hfirst
    cases h : firstUnseen o c with
    | none =>
      simp only [h] at hcall
      obtain ⟨res, hres⟩ := hcall
      rw [hres] at hthrows
      cases hthrows
    | some field' =>
      -- the field that is thrown for is the one, and was not seen
      simp only [h] at hcall
      rw [hcall] at hthrows
      obtain rfl := notFound_inj.mp (Except.error.inj hthrows)
      have hunseen := List.find?_some h
      rw [(seen_iff hk field').mpr hcol] at hunseen
      cases hunseen
  · intro hclear
    rw [firstUnseen_eq hk hclear] at hcall
    apply tracks_of_first
    cases h : firstUnreported history c with
    | none =>
      simp only [h] at hcall ⊢
      obtain ⟨res, hres⟩ := hcall
      exact ⟨res, congrArg Prod.fst hres⟩
    | some field =>
      simp only [h] at hcall ⊢
      exact congrArg Prod.fst hcall

end Calls

/-- **When reports are per pair.** In a run of interpreters that throw once, every call tracks the
pairs exactly when no call is to report a pair with the concatenation of a reported one. -/
theorem throw_once_iff {calls : List InterpretCall} (hcalls : ∀ c ∈ calls, ThrowsOnce c.1)
    (hdef : ∀ r ∈ outputs interpretCall {} calls, ∀ u, r ≠ .error (.undefined u)) :
    TracksAll calls ↔ NoCollision calls := by
  refine forall₄_congr fun before c rest hsplit => ?_
  subst hsplit
  rw [outputs_append, List.forall_mem_append] at hdef
  rw [List.forall_mem_append] at hcalls
  exact tracks_iff (keys_run hcalls.1 hdef.1) (hcalls.2 c (.head _)) (hdef.2 _ (.head _))

/-- Interpreters with one name do not collide. -/
theorem not_collides_of_name {history : CallHistory} {c : InterpretCall} {field : Str}
    (hname : ∀ e ∈ history, e.1.1.name = c.1.name)
    (h : firstUnreported history c = some field) : ¬ Collides history c.1.name field := by
  rintro ⟨name', field', hrep, hkey⟩
  obtain ⟨e, he, hmatch⟩ := List.any_eq_true.mp hrep
  have hname' : name' = c.1.name := by
    rw [Bool.and_eq_true, beq_iff_eq] at hmatch
    rw [← hmatch.1, hname e he]
  subst hname'
  obtain rfl := List.append_cancel_right hkey
  have hnew := List.find?_some h
  rw [hrep] at hnew
  cases hnew

/-- A packet with one field, and an interpreter without interpretations. -/
def onceCall (interpreterName field : Str) : InterpretCall :=
  (built { emptyFieldBehavior := .throwOnce } interpreterName [], ⟨lit "packet", [⟨field, []⟩]⟩)

theorem throwsOnce_onceCall (interpreterName field : Str) :
    ThrowsOnce (onceCall interpreterName field).1 := ⟨rfl, _, _, _, rfl⟩

/-- A call without interpretations converts nothing. -/
theorem defined_onceCall {calls : List InterpretCall}
    (h : ∀ c ∈ calls, ∃ interpreterName field, c = onceCall interpreterName field)
    (o : OnceSets) : ∀ r ∈ outputs interpretCall o calls, ∀ u, r ≠ .error (.undefined u) := by
  induction calls generalizing o with
  | nil => simp
  | cons c calls ih =>
    obtain ⟨name, field, rfl⟩ := h c (.head _)
    refine List.forall_mem_cons.mpr ⟨fun u => ?_, ih (fun c hc => h c (.tail _ hc)) _⟩
    rw [interpretCall, interpretPacketData, onceCall, interpretFields_none rfl]
    intro h
    split at h
    · rename_i e o' he
      rw [handleMissingField_throwOnce rfl] at he
      split at he <;> cases he
      cases h
    · rw [interpretFields] at h
      cases h

/-- One interpreter: a packet is reported once, and one with another field after it. -/
theorem throw_once_one_interpreter : TracksAll
    [onceCall (lit "P") (lit "a"), onceCall (lit "P") (lit "a"), onceCall (lit "P") (lit "b")] := by
  have hcalls : ∀ c ∈ [onceCall (lit "P") (lit "a"), onceCall (lit "P") (lit "a"),
      onceCall (lit "P") (lit "b")], ∃ field, c = onceCall (lit "P") field := by
    simp
  have hname : ∀ c : InterpretCall, (∃ field, c = onceCall (lit "P") field) →
      c.1.name = lit "P" := by
    rintro _ ⟨field, rfl⟩
    rfl
  refine (throw_once_iff (fun c hc => ?_) (defined_onceCall (fun c hc => ⟨_, hcalls c hc⟩) {})).mpr
    fun before c rest hsplit field hfirst => not_collides_of_name (fun e he => ?_) hfirst
  · obtain ⟨field, rfl⟩ := hcalls c hc
    exact throwsOnce_onceCall _ _
  · rw [hsplit, List.forall_mem_append] at hcalls
    rw [hname _ (hcalls.1 _ (List.of_mem_zip he).1), hname _ (hcalls.2 c (.head _))]

/-- The field `ab` of an interpreter `c` is taken for the field `a` of an interpreter `bc`. -/
theorem report_suppressed : ¬ ∀ calls : List InterpretCall, (∀ c ∈ calls, ThrowsOnce c.1) →
    (∀ r ∈ outputs interpretCall {} calls, ∀ u, r ≠ .error (.undefined u)) → TracksAll calls := by
  intro h
  have hcalls : ∀ c ∈ [onceCall (lit "bc") (lit "a"), onceCall (lit "c") (lit "ab")],
      ∃ interpreterName field, c = onceCall interpreterName field := by
    simp
  have ht := h _ (fun c hc => by
      obtain ⟨_, _, rfl⟩ := hcalls c hc
      exact throwsOnce_onceCall _ _) (defined_onceCall hcalls {})
    [onceCall (lit "bc") (lit "a")] (onceCall (lit "c") (lit "ab")) [] rfl
  have hresult : (interpretCall (after interpretCall {} [onceCall (lit "bc") (lit "a")])
    (onceCall (lit "c") (lit "ab"))).1 = .ok [] := rfl
  obtain ⟨e, he⟩ := ht.throws.mpr ⟨lit "ab", by decide, rfl⟩
  rw [hresult] at he
  cases he

end Protos

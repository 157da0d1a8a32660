import ProtoTools.Dissection.Chunks
import ProtoTools.Interpretation.Leaves

/-!
# What the conversions of a packet read

* `bytesRead`: how many bytes a conversion reads from its field. `asVariant_readOutside_iff`: it has
  no meaning when the field has fewer.
* `conversions`: the conversions that `interpretPacketData` performs, in order. `PerformedBy`: it
  stops at the first one without a value, and the call ends there (`interpretFields_error`); when it
  returns, it has performed those of all leaves (`conversions_eq`).
* `Reaches`: the call gets past some fields. `mem_conversions_iff`: the conversions are those of the
  fields that it gets to.
* `Safe`: a conversion that reads inside its field and gives the alternative of its type.
* `conversions_safe_iff`: those of the packets that a dissector delivers are safe (`ReadsInside`)
  exactly when every field with a `bool` that the call gets to starts with 0 or 1 (`BoolsStart`).
-/

namespace Protos

open Machine GenericDissector

/-! ## One conversion -/

/-- The bytes that `convert` reads, from the start of the data. -/
def bytesRead (type : ValueType) (data : Bytes) : Nat :=
  match type with
  | .string | .bytes => data.length
  | .integer | .unsignedInteger =>
    match data.length with
    | 1 | 2 | 4 | 8 => data.length
    | _ => 0
  | .float =>
    match data.length with
    | 4 | 8 => data.length
    | _ => 0
  | .bool => 1
  | .undefined => 0

abbrev Conversion := ValueType × Bytes

/-- The conversion reads inside the bytes of the field and gives the alternative of its type. -/
structure Safe (c : Conversion) : Prop where
  inside : bytesRead c.1 c.2 ≤ c.2.length
  alternative : ∃ v, asVariant c.1 c.2 = .ok v ∧ v.index = typeIndex c.1

/-- The first byte is the representation of a `bool`. -/
def StartsWithBool (data : Bytes) : Prop := data.head? = some 0 ∨ data.head? = some 1

section Conversion

variable {type : ValueType} {data : Bytes}

theorem convertBool_ok_iff : (∃ b, convertBool data = .ok b) ↔ StartsWithBool data := by
  unfold StartsWithBool
  cases data with
  | nil => simp [convertBool]
  | cons b bs =>
    rw [convertBool_cons, List.head?_cons, Option.some.injEq, Option.some.injEq]
    split
    · simp [*]
    · split <;> simp [*]

theorem not_startsWithBool_of_error {e : Fault} (h : asVariant type data = .error e) :
    ¬ StartsWithBool data ∧ type = .bool := by
  cases type with
  | bool =>
    refine ⟨fun hstart => ?_, rfl⟩
    obtain ⟨b, hb⟩ := convertBool_ok_iff.mpr hstart
    rw [asVariant, hb] at h
    cases h
  | _ => cases h

theorem bytesRead_le (h : type ≠ .bool) (data : Bytes) : bytesRead type data ≤ data.length := by
  unfold bytesRead
  split
  · exact Nat.le_refl _
  · exact Nat.le_refl _
  · split <;> omega
  · split <;> omega
  · split <;> omega
  · exact absurd rfl h
  · exact Nat.zero_le _

/-- A conversion that reads outside its field has no meaning. -/
theorem asVariant_readOutside_iff :
    asVariant type data = .error (.undefined .readOutside) ↔ data.length < bytesRead type data := by
  by_cases ht : type = .bool
  · subst ht
    cases data with
    | nil => exact iff_of_true rfl Nat.zero_lt_one
    | cons b bs =>
      refine iff_of_false ?_ (by simp [bytesRead])
      rw [asVariant, convertBool_cons]
      split
      · simp [Except.map]
      · split <;> simp [Except.map]
  · refine iff_of_false (fun h => ?_) (Nat.not_lt.mpr (bytesRead_le ht data))
    have hconv : FieldInterpretation.Converts { name := [], type } data :=
      converts_of_ne_bool ht data
    obtain ⟨v, hv⟩ := hconv
    rw [show asVariant type data = .ok v from hv] at h
    cases h

theorem safe_iff (ht : type ≠ .undefined) :
    Safe (type, data) ↔ (type = .bool → StartsWithBool data) := by
  constructor
  · rintro ⟨-, v, hv, -⟩ rfl
    rw [← convertBool_ok_iff]
    rw [asVariant] at hv
    cases hb : convertBool data with
    | error e => simp [hb, Except.map] at hv
    | ok b => exact ⟨b, rfl⟩
  · intro h
    have halternative : ∃ v, asVariant type data = .ok v ∧ v.index = typeIndex type := by
      cases type with
      | undefined => exact absurd rfl ht
      | bool =>
        obtain ⟨b, hb⟩ := convertBool_ok_iff.mpr (h rfl)
        exact ⟨.bool b, by rw [asVariant, hb]; rfl, rfl⟩
      | _ => exact ⟨_, rfl, rfl⟩
    refine ⟨Nat.le_of_not_lt fun hlt => ?_, halternative⟩
    -- a conversion that has a value does not read outside
    obtain ⟨v, hv, -⟩ := halternative
    rw [asVariant_readOutside_iff.mpr hlt] at hv
    cases hv

end Conversion

/-! ## Packets -/

/-- The conversions of the leaves of a field, as far as they have values. -/
def performed (data : Bytes) : List FieldInterpretation → List Conversion
  | [] => []
  | leaf :: leaves =>
    (leaf.type, data) ::
      match asVariant leaf.type data with
      | .error _ => []
      | .ok _ => performed data leaves

/-- The conversions that `interpretPacketData` performs on the fields, in order. -/
def conversions (g : GenericPacketInterpreter) : List FieldData → OnceSets → List Conversion
  | [], _ => []
  | field :: fields, o =>
    match g.fields.lookup field.name with
    | some fi =>
      performed field.value fi.leaves ++
        match collect field.value fi.leaves with
        | .error _ => []
        | .ok _ => conversions g fields o
    | none =>
      match g.handleMissingField field.name [] o with
      | (.error _, _) => []
      | (.ok _, o) => conversions g fields o

/-- The conversions of all leaves of the field. -/
def leafConversions (fis : List FieldInterpretation) (field : FieldData) : List Conversion :=
  match firstAdded fis field.name with
  | some fi => fi.leaves.map fun leaf => (leaf.type, field.value)
  | none => []

/-- The conversions are those of the call on the fields. -/
structure PerformedBy (g : GenericPacketInterpreter) (fis : List FieldInterpretation)
    (fields : List FieldData) (o : OnceSets) : Prop where
  /-- A conversion without a value ends the call. -/
  ends : ∀ results, ∀ c ∈ conversions g fields o, ∀ e, asVariant c.1 c.2 = .error e →
    (g.interpretFields fields results o).1 = .error e
  /-- When the call returns, it has performed the conversions of all leaves. -/
  all : ∀ results res, (g.interpretFields fields results o).1 = .ok res →
    conversions g fields o = fields.flatMap (leafConversions fis)

/-- What comes before a field leaves the call running, with these once-sets. -/
def Reaches (g : GenericPacketInterpreter) (before : List FieldData) (o o' : OnceSets) : Prop :=
  ∃ results, g.interpretFields before [] o = (.ok results, o')

/-- Every conversion is safe, in the packets that the dissector delivers from the stream. -/
def ReadsInside (g : GenericPacketInterpreter) (t : PacketDescriptor) (s : Bytes) : Prop :=
  ∀ packet ∈ packetsOf (outputs addByte (make t) s), ∀ o,
    ∀ c ∈ conversions g packet.fields o, Safe c

/-- Every field of these packets that a call gets to, and that has a `bool` among its leaves, starts
with one. -/
def BoolsStart (g : GenericPacketInterpreter) (t : PacketDescriptor) (s : Bytes) : Prop :=
  ∀ packet ∈ packetsOf (outputs addByte (make t) s), ∀ o before field rest o',
    packet.fields = before ++ field :: rest → Reaches g before o o' →
      ∀ fi, g.fields.lookup field.name = some fi → (∃ leaf ∈ fi.leaves, leaf.type = .bool) →
        StartsWithBool field.value

section Packets

variable {behaviors : Behaviors} {name : Str} {fis : List FieldInterpretation}
  {fields : List FieldData} {results res : InterpretationResults} {o : OnceSets}

theorem performed_of_ok {data : Bytes} {leaves : List FieldInterpretation}
    (h : collect data leaves = .ok res) :
    performed data leaves = leaves.map fun leaf => (leaf.type, data) := by
  have hconv := converts_of_collect h
  clear h
  induction leaves with
  | nil => rfl
  | cons leaf leaves ih =>
    obtain ⟨v, hv⟩ := hconv leaf (.head _)
    rw [performed, hv, List.map_cons, ih fun l hl => hconv l (.tail _ hl)]

/-- A conversion without a value is the last one of its field. -/
theorem collect_of_performed {data : Bytes} {leaves : List FieldInterpretation} {c : Conversion}
    {e : Fault} (hc : c ∈ performed data leaves) (he : asVariant c.1 c.2 = .error e) :
    collect data leaves = .error e := by
  induction leaves with
  | nil => exact absurd hc List.not_mem_nil
  | cons leaf leaves ih =>
    rw [performed] at hc
    rw [collect]
    cases hv : asVariant leaf.type data with
    | error e' =>
      simp only [hv, List.mem_singleton] at hc
      subst hc
      rw [hv] at he
      cases he
      rfl
    | ok v =>
      simp only [hv, List.mem_cons] at hc
      rcases hc with rfl | hc
      · rw [hv] at he
        cases he
      · simp only [ih hc]
        rfl

/-- When the call returns, it has performed the conversions of all leaves. -/
theorem conversions_eq
    (h : ((built behaviors name fis).interpretFields fields results o).1 = .ok res) :
    conversions (built behaviors name fis) fields o = fields.flatMap (leafConversions fis) := by
  induction fields generalizing results o with
  | nil => rfl
  | cons field fields ih =>
    rw [conversions, lookup_built, List.flatMap_cons, leafConversions]
    cases hfi : firstAdded fis field.name with
    | some fi =>
      rw [interpretFields_some hfi] at h
      cases hres : collect field.value fi.leaves with
      | error e => simp [hres] at h
      | ok res' =>
        simp only [hres] at h ⊢
        rw [performed_of_ok hres, ih h]
    | none =>
      rw [interpretFields_none hfi, handleMissingField_results] at h
      dsimp only
      cases hmiss : (built behaviors name fis).handleMissingField field.name [] o with
      | mk r o' =>
        cases r with
        | error e => simp [hmiss, Except.map] at h
        | ok r =>
          simp only [hmiss, Except.map] at h ⊢
          exact ih h

/-- A conversion without a value ends the call. -/
theorem interpretFields_error {c : Conversion} {e : Fault}
    (hc : c ∈ conversions (built behaviors name fis) fields o)
    (he : asVariant c.1 c.2 = .error e) :
    ((built behaviors name fis).interpretFields fields results o).1 = .error e := by
  induction fields generalizing results o with
  | nil => exact absurd hc List.not_mem_nil
  | cons field fields ih =>
    rw [conversions, lookup_built] at hc
    cases hfi : firstAdded fis field.name with
    | some fi =>
      rw [interpretFields_some hfi]
      simp only [hfi, List.mem_append] at hc
      rcases hc with hc | hc
      · rw [collect_of_performed hc he]
      · cases hres : collect field.value fi.leaves with
        | error e' => simp [hres] at hc
        | ok res' =>
          simp only [hres] at hc ⊢
          exact ih hc
    | none =>
      rw [interpretFields_none hfi, handleMissingField_results]
      simp only [hfi] at hc
      cases hmiss : (built behaviors name fis).handleMissingField field.name [] o with
      | mk r o' =>
        cases r with
        | error e' => simp [hmiss] at hc
        | ok r =>
          simp only [hmiss, Except.map] at hc ⊢
          exact ih hc

/-! ## The fields that a call gets to -/

theorem reaches_nil : Reaches (built behaviors name fis) [] o o := ⟨[], rfl⟩

theorem reaches_some {field : FieldData} {fi : FieldInterpretation} {before : List FieldData}
    {o' : OnceSets} (h : firstAdded fis field.name = some fi) :
    Reaches (built behaviors name fis) (field :: before) o o' ↔
      (∃ res, collect field.value fi.leaves = .ok res) ∧
        Reaches (built behaviors name fis) before o o' := by
  unfold Reaches
  rw [interpretFields_some h]
  cases collect field.value fi.leaves with
  | error e => simp
  | ok res =>
    simp only [interpretFields_results _ before ([] ++ res)]
    cases (built behaviors name fis).interpretFields before [] o with
    | mk r o₁ => cases r <;> simp [Except.map]

theorem reaches_none {field : FieldData} {before : List FieldData} {o' : OnceSets}
    (h : firstAdded fis field.name = none) :
    Reaches (built behaviors name fis) (field :: before) o o' ↔ ∃ r o₁,
      (built behaviors name fis).handleMissingField field.name [] o = (.ok r, o₁) ∧
        Reaches (built behaviors name fis) before o₁ o' := by
  unfold Reaches
  rw [interpretFields_none h]
  cases (built behaviors name fis).handleMissingField field.name [] o with
  | mk r o₁ =>
    cases r with
    | error e => simp
    | ok r =>
      simp only [interpretFields_results _ before r]
      cases hrest : (built behaviors name fis).interpretFields before [] o₁ with
      | mk r' o₂ => cases r' <;> simp [Except.map, hrest]

theorem mem_conversions_some {c : Conversion} {field : FieldData} {fi : FieldInterpretation}
    (h : firstAdded fis field.name = some fi) :
    c ∈ conversions (built behaviors name fis) (field :: fields) o ↔
      c ∈ performed field.value fi.leaves ∨
        (∃ res, collect field.value fi.leaves = .ok res) ∧
          c ∈ conversions (built behaviors name fis) fields o := by
  rw [conversions, lookup_built, h]
  dsimp only
  cases hres : collect field.value fi.leaves with
  | error e => simp
  | ok res => simp

theorem mem_conversions_none {c : Conversion} {field : FieldData}
    (h : firstAdded fis field.name = none) :
    c ∈ conversions (built behaviors name fis) (field :: fields) o ↔ ∃ r o₁,
      (built behaviors name fis).handleMissingField field.name [] o = (.ok r, o₁) ∧
        c ∈ conversions (built behaviors name fis) fields o₁ := by
  rw [conversions, lookup_built, h]
  dsimp only
  cases (built behaviors name fis).handleMissingField field.name [] o with
  | mk r o₁ =>
    cases r with
    | error e => simp
    | ok r => simp

/-- **The conversions** are those of the fields that the call gets to. -/
theorem mem_conversions_iff {c : Conversion} :
    c ∈ conversions (built behaviors name fis) fields o ↔ ∃ before field rest o' fi,
      fields = before ++ field :: rest ∧ Reaches (built behaviors name fis) before o o' ∧
        firstAdded fis field.name = some fi ∧ c ∈ performed field.value fi.leaves := by
  induction fields generalizing o with
  | nil => simp [conversions]
  | cons field fields ih =>
    cases hfi : firstAdded fis field.name with
    | some fi =>
      rw [mem_conversions_some hfi, ih]
      constructor
      · rintro (hc | ⟨hok, before, field', rest, o', fi', rfl, hreach, hfi', hc⟩)
        · exact ⟨[], field, fields, o, fi, rfl, reaches_nil, hfi, hc⟩
        · exact ⟨field :: before, field', rest, o', fi', rfl,
            (reaches_some hfi).mpr ⟨hok, hreach⟩, hfi', hc⟩
      · rintro ⟨before, field', rest, o', fi', hsplit, hreach, hfi', hc⟩
        cases before with
        | nil =>
          obtain ⟨rfl, rfl⟩ := List.cons.inj hsplit
          rw [hfi] at hfi'
          cases hfi'
          exact .inl hc
        | cons first before =>
          obtain ⟨rfl, rfl⟩ := List.cons.inj hsplit
          obtain ⟨hok, hreach⟩ := (reaches_some hfi).mp hreach
          exact .inr ⟨hok, before, field', rest, o', fi', rfl, hreach, hfi', hc⟩
    | none =>
      rw [mem_conversions_none hfi]
      constructor
      · rintro ⟨r, o₁, hmiss, hc⟩
        obtain ⟨before, field', rest, o', fi', rfl, hreach, hfi', hc⟩ := ih.mp hc
        exact ⟨field :: before, field', rest, o', fi', rfl,
          (reaches_none hfi).mpr ⟨r, o₁, hmiss, hreach⟩, hfi', hc⟩
      · rintro ⟨before, field', rest, o', fi', hsplit, hreach, hfi', hc⟩
        cases before with
        | nil =>
          obtain ⟨rfl, rfl⟩ := List.cons.inj hsplit
          rw [hfi] at hfi'
          cases hfi'
        | cons first before =>
          obtain ⟨rfl, rfl⟩ := List.cons.inj hsplit
          obtain ⟨r, o₁, hmiss, hreach⟩ := (reaches_none hfi).mp hreach
          exact ⟨r, o₁, hmiss, ih.mpr ⟨before, field', rest, o', fi', rfl, hreach, hfi', hc⟩⟩

/-- **One field.** Its conversions are safe when its bytes start with a `bool`, or none of them is
one. -/
theorem performed_safe_iff {data : Bytes} {leaves : List FieldInterpretation}
    (h : ∀ leaf ∈ leaves, leaf.type ≠ .undefined) :
    (∀ c ∈ performed data leaves, Safe c) ↔
      ((∃ leaf ∈ leaves, leaf.type = .bool) → StartsWithBool data) := by
  induction leaves with
  | nil => simp [performed]
  | cons leaf leaves ih =>
    rw [performed, List.forall_mem_cons, safe_iff (h leaf (.head _))]
    have ih := ih fun l hl => h l (.tail _ hl)
    cases hv : asVariant leaf.type data with
    | error e =>
      -- the head is a `bool` that the bytes do not start with, and nothing comes after it
      have hunsafe : ¬ StartsWithBool data ∧ leaf.type = .bool := not_startsWithBool_of_error hv
      exact iff_of_false (fun hsafe => hunsafe.1 (hsafe.1 hunsafe.2))
        (fun hstart => hunsafe.1 (hstart ⟨leaf, .head _, hunsafe.2⟩))
    | ok v =>
      dsimp only
      rw [ih, List.exists_mem_cons_iff, or_imp]

end Packets

/-- **When no conversion reads outside its field.** In the packets that a dissector delivers,
exactly when every field with a `bool` that a call gets to starts with 0 or 1. The conversions are
those that the calls perform. -/
theorem conversions_safe_iff {fis : List FieldInterpretation}
    (hfis : ∀ fi ∈ fis, ∀ leaf ∈ fi.leaves, leaf.type ≠ .undefined) (behaviors : Behaviors)
    (name : Str) (t : PacketDescriptor) (s : Bytes) :
    (ReadsInside (built behaviors name fis) t s ↔ BoolsStart (built behaviors name fis) t s) ∧
      ∀ fields o, PerformedBy (built behaviors name fis) fis fields o := by
  refine ⟨forall₃_congr fun packet _ o => ?_, fun fields o =>
    ⟨fun results c hc e he => interpretFields_error hc he, fun results res h => conversions_eq h⟩⟩
  constructor
  · intro hsafe before field rest o' hsplit hreach fi hfi
    rw [lookup_built] at hfi
    refine (performed_safe_iff (hfis fi (List.mem_of_find?_eq_some hfi))).mp fun c hc => ?_
    exact hsafe c (mem_conversions_iff.mpr
      ⟨before, field, rest, o', fi, hsplit, hreach, hfi, hc⟩)
  · intro hbool c hc
    obtain ⟨before, field, rest, o', fi, hsplit, hreach, hfi, hc⟩ := mem_conversions_iff.mp hc
    refine (performed_safe_iff (hfis fi (List.mem_of_find?_eq_some hfi))).mpr ?_ c hc
    exact hbool before field rest o' hsplit hreach fi ((lookup_built _).trans hfi)

/-- A length and the bytes of the length. -/
def lengthAndFlag : PacketDescriptor where
  fields := [{ name := lit "L", size := 1, determinesSizeOf := lit "F" }, { name := lit "F" }]

/-- The bytes are read as a `bool`. -/
def flagInterpretation : List FieldInterpretation := [{ name := lit "F", type := .bool }]

theorem types_flagInterpretation :
    ∀ fi ∈ flagInterpretation, ∀ leaf ∈ fi.leaves, leaf.type ≠ .undefined := by decide

theorem conversions_flag (length value : Bytes) (o : OnceSets) :
    conversions (built { emptyFieldBehavior := .skip } (lit "I") flagInterpretation)
      [⟨lit "L", length⟩, ⟨lit "F", value⟩] o = [(.bool, value)] := by
  have hl : firstAdded flagInterpretation (lit "L") = none := rfl
  have hf : firstAdded flagInterpretation (lit "F") = some { name := lit "F", type := .bool } := rfl
  rw [conversions, lookup_built, hl]
  show conversions _ [⟨lit "F", value⟩] o = _
  rw [conversions, lookup_built, hf]
  cases hv : asVariant .bool value <;>
    simp [FieldInterpretation.leaves, performed, collect, hv, Except.map, conversions]

theorem conversions_safe_flag : ReadsInside
    (built { emptyFieldBehavior := .skip } (lit "I") flagInterpretation) lengthAndFlag [1, 1] := by
  have hpackets : packetsOf (outputs addByte (make lengthAndFlag) [1, 1]) =
      [⟨[], [⟨lit "L", [1]⟩, ⟨lit "F", [1]⟩]⟩] := by decide
  refine (conversions_safe_iff types_flagInterpretation _ _ lengthAndFlag [1, 1]).1.mpr ?_
  rw [BoolsStart, hpackets, List.forall_mem_singleton]
  intro o before field rest o' hsplit _ fi _ _
  -- both fields are the byte 1
  have hvalues : ∀ field ∈ [(⟨lit "L", [1]⟩ : FieldData), ⟨lit "F", [1]⟩],
      StartsWithBool field.value :=
    List.forall_mem_cons.mpr ⟨.inr rfl, List.forall_mem_singleton.mpr (.inr rfl)⟩
  have hmem : field ∈ before ++ field :: rest := List.mem_append_right _ (.head _)
  rw [← hsplit] at hmem
  exact hvalues field hmem

/-- The sender chooses the length 0. -/
theorem empty_flag : ¬ ∀ (fis : List FieldInterpretation) (behaviors : Behaviors) (name : Str)
    (t : PacketDescriptor) (s : Bytes), (∀ fi ∈ fis, ∀ leaf ∈ fi.leaves, leaf.type ≠ .undefined) →
      ReadsInside (built behaviors name fis) t s := by
  intro h
  have hpackets : packetsOf (outputs addByte (make lengthAndFlag) [0]) =
      [⟨[], [⟨lit "L", [0]⟩, ⟨lit "F", []⟩]⟩] := by decide
  have hsafe := h flagInterpretation { emptyFieldBehavior := .skip } (lit "I") lengthAndFlag [0]
    types_flagInterpretation
  rw [ReadsInside, hpackets, List.forall_mem_singleton] at hsafe
  have hflag := hsafe {}
  rw [conversions_flag, List.forall_mem_singleton] at hflag
  exact absurd hflag.inside (by decide)

end Protos

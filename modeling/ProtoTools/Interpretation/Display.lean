import ProtoTools.Dissection.Messages
import ProtoTools.Interpretation.Numbers
import ProtoTools.Interpretation.Text
import ProtoTools.Interpretation.ThrowOnce

/-!
# The texts of packets (`FieldInterpreter::toStringResult`)

* `variantToFormattedString`, `toStringResult`: a line per result.
* `interpretFields_returned`: the results of a call that returns, whatever happens to the fields
  without an interpretation.
* `FieldInterpretation.Tells`: the line of a leaf tells the bytes of the field, once their number is
  known. `Shown`: some leaf of the field does.
* `conforms_texts`: lines that are put together can be taken apart, since the fields that are read
  say which one comes next, and how long it is.
* `displays_iff`: the lines of a stream tell its packets.
-/

namespace Protos

open Machine Numerals GenericDissector

/-- `std::format("{:02x} ", …)`. -/
def formatByte (b : UInt8) : Str := [digitChar (b.toNat / 16), digitChar (b.toNat % 16), 0x20]

/-- `variant_to_formatted_string`, with the format `{}`. The text of a `double` is a parameter. -/
def variantToFormattedString (formatDouble : Float → Str) : Variant → Str
  | .string s => s
  | .int64 n => formatInteger n.toInt
  | .uint64 n => formatInteger n.toNat
  | .double x => formatDouble x
  | .bool b => if b then lit "true" else lit "false"
  | .bytes bytes => bytes.flatMap formatByte

/-- `FieldInterpreter::toStringResult`. -/
def toStringResult (formatDouble : Float → Str) (results : InterpretationResults) : List Str :=
  results.map fun r => variantToFormattedString formatDouble r.value

/-! ## Calls that return -/

section Returned

variable {behaviors : Behaviors} {name : Str} {fis : List FieldInterpretation} {o o' : OnceSets}

theorem handleMissingField_returned {field : Str} {results results' : InterpretationResults}
    (h : (built behaviors name fis).handleMissingField field results o = (.ok results', o')) :
    results' = results ++ missingResults behaviors.emptyFieldBehavior field := by
  rw [GenericPacketInterpreter.handleMissingField, built_config.1] at h
  unfold missingResults
  cases hb : behaviors.emptyFieldBehavior with
  | skip | emptyString | dash =>
    rw [hb] at h
    cases h
    simp
  | skipAndWarnOnce | throwOnce =>
    rw [hb] at h
    dsimp only at h
    split at h <;> cases h <;> simp
  | callBack =>
    rw [hb] at h
    dsimp only at h
    split at h
    · cases h
    · split at h <;> cases h
      simp

/-- **A call that returns** has the results of all fields. -/
theorem interpretFields_returned {fields : List FieldData}
    {results results' : InterpretationResults}
    (h : (built behaviors name fis).interpretFields fields results o = (.ok results', o')) :
    ConvertsAll fis fields ∧
      results' = results ++ fields.flatMap (fieldResults behaviors.emptyFieldBehavior fis) := by
  induction fields generalizing results o with
  | nil =>
    cases h
    exact ⟨fun _ hf => absurd hf List.not_mem_nil, (List.append_nil _).symm⟩
  | cons field fields ih =>
    rw [List.flatMap_cons, ← List.append_assoc, fieldResults]
    cases hfi : firstAdded fis field.name with
    | some fi =>
      rw [interpretFields_some hfi] at h
      split at h
      · cases h
      · rename_i res hcollect
        obtain ⟨hrest, rfl⟩ := ih h
        have hconv := converts_of_collect hcollect
        rw [collect_ok hconv, Except.ok.injEq] at hcollect
        subst hcollect
        refine ⟨List.forall_mem_cons.mpr ⟨fun fi' hfi' => ?_, hrest⟩, rfl⟩
        rw [hfi, Option.some.injEq] at hfi'
        exact hfi' ▸ hconv
    | none =>
      rw [interpretFields_none hfi] at h
      split at h
      · cases h
      · rename_i res o' hmissing
        obtain ⟨hrest, rfl⟩ := ih h
        refine ⟨List.forall_mem_cons.mpr ⟨fun fi hfi' => ?_, hrest⟩, ?_⟩
        · rw [hfi] at hfi'
          cases hfi'
        · rw [handleMissingField_returned hmissing]

/-- Calls that all return. -/
theorem outputs_interpretCall {ps : List PacketData} {rs : List InterpretationResults}
    (h : outputs interpretCall o (ps.map (built behaviors name fis, ·)) = rs.map .ok) :
    (∀ p ∈ ps, ConvertsAll fis p.fields) ∧
      rs = ps.map fun p => p.fields.flatMap (fieldResults behaviors.emptyFieldBehavior fis) := by
  induction ps generalizing o rs with
  | nil =>
    rw [List.map_nil, outputs_nil, List.nil_eq, List.map_eq_nil_iff] at h
    exact ⟨fun _ hp => absurd hp List.not_mem_nil, h⟩
  | cons p ps ih =>
    rw [List.map_cons, outputs_cons] at h
    obtain ⟨r, rs, rfl, hr, hrs⟩ := List.map_eq_cons_iff.mp h.symm
    obtain ⟨hrest, rfl⟩ := ih hrs.symm
    have hcall : (built behaviors name fis).interpretFields p.fields [] o =
        (.ok r, (interpretCall o (built behaviors name fis, p)).2) := Prod.ext hr.symm rfl
    obtain ⟨hconv, rfl⟩ := interpretFields_returned hcall
    exact ⟨List.forall_mem_cons.mpr ⟨hconv, hrest⟩, rfl⟩

end Returned

/-! ## What a line tells -/

/-- The line of the leaf tells the bytes of a field of this size. -/
def FieldInterpretation.Tells (leaf : FieldInterpretation) (size : Nat) : Prop :=
  match leaf.type with
  | .string | .bytes => True
  | .integer | .unsignedInteger => NumberWidth size
  | .bool => size = 1
  | .float | .undefined => False

/-- The lines of the field tell its bytes. -/
def Shown (fis : List FieldInterpretation) (field : FieldData) : Prop :=
  field.value ≠ [] → ∃ fi, firstAdded fis field.name = some fi ∧
    ∃ leaf ∈ fi.leaves, leaf.Tells field.value.length

/-- Every leaf has one result. -/
def NoMappers (fis : List FieldInterpretation) : Prop :=
  ∀ fi ∈ fis, ∀ leaf ∈ fi.leaves, leaf.mapper = none

/-- The lines of a field. -/
def fieldTexts (formatDouble : Float → Str) (behavior : EmptyFieldBehavior)
    (fis : List FieldInterpretation) (field : FieldData) : List Str :=
  toStringResult formatDouble (fieldResults behavior fis field)

section Lines

variable {formatDouble : Float → Str} {behavior : EmptyFieldBehavior}
  {fis : List FieldInterpretation} {bs bs' : Bytes} {leaf : FieldInterpretation}

theorem formatByte_inj {b b' : UInt8} (h : formatByte b = formatByte b') : b = b' := by
  have hb := b.toNat_lt
  have hb' := b'.toNat_lt
  simp only [formatByte, List.cons.injEq, and_true] at h
  have hhigh := congrArg digit h.1
  have hlow := congrArg digit h.2
  rw [digit_digitChar (by omega), digit_digitChar (by omega), Option.some.injEq] at hhigh hlow
  apply UInt8.toNat_inj.mp
  omega

theorem formatBytes_inj (h : bs.flatMap formatByte = bs'.flatMap formatByte) : bs = bs' := by
  induction bs generalizing bs' with
  | nil =>
    cases bs' with
    | nil => rfl
    | cons b' bs' => cases h
  | cons b bs ih =>
    cases bs' with
    | nil => cases h
    | cons b' bs' =>
      rw [List.flatMap_cons, List.flatMap_cons] at h
      obtain ⟨hb, hbs⟩ := List.append_inj h rfl
      rw [formatByte_inj hb, ih hbs]

/-- The value of a line, once its type is known. -/
theorem formatted_inj {v v' : Variant} (hindex : v.index = v'.index) (hv : ∀ x, v ≠ .double x)
    (h : variantToFormattedString formatDouble v = variantToFormattedString formatDouble v') :
    v = v' := by
  cases v with
  | string s =>
    cases v' with
    | string s' => exact congrArg Variant.string h
    | _ => cases hindex
  | int64 n =>
    cases v' with
    | int64 n' =>
      have hn := stoll_format n
      rw [show formatInteger n.toInt = formatInteger n'.toInt from h, stoll_format,
        Except.ok.injEq] at hn
      rw [hn]
    | _ => cases hindex
  | uint64 n =>
    cases v' with
    | uint64 n' =>
      have hn := stoull_format n
      rw [show formatInteger n.toNat = formatInteger n'.toNat from h, stoull_format,
        Except.ok.injEq] at hn
      rw [hn]
    | _ => cases hindex
  | double x => exact absurd rfl (hv x)
  | bool b =>
    cases v' with
    | bool b' => cases b <;> cases b' <;> first | rfl | cases h
    | _ => cases hindex
  | bytes bytes =>
    cases v' with
    | bytes bytes' => exact congrArg Variant.bytes (formatBytes_inj h)
    | _ => cases hindex

theorem index_asVariant {type : ValueType} {v v' : Variant} (h : asVariant type bs = .ok v)
    (h' : asVariant type bs' = .ok v') : v.index = v'.index := by
  cases type with
  | bool =>
    rw [asVariant] at h h'
    cases hb : convertBool bs with
    | error e =>
      rw [hb] at h
      cases h
    | ok b =>
      cases hb' : convertBool bs' with
      | error e =>
        rw [hb'] at h'
        cases h'
      | ok b' =>
        rw [hb] at h
        rw [hb'] at h'
        cases h
        cases h'
        rfl
  | _ =>
    cases h
    cases h'
    rfl

/-- The bytes of a value, once their number is known. -/
theorem asVariant_inj (ht : leaf.Tells bs.length) (hmap : leaf.mapper = none)
    (hlen : bs.length = bs'.length) {v : Variant} (h : asVariant leaf.type bs = .ok v)
    (h' : asVariant leaf.type bs' = .ok v) : bs = bs' := by
  unfold FieldInterpretation.Tells at ht
  have hnumber : NumberWidth bs.length → leaf.IsNumber → bs = bs' := fun hw hn => by
    rw [asVariant_number hw hn] at h
    rw [asVariant_number (hlen ▸ hw) hn] at h'
    exact (numberOf_inj hw hlen hn).mp (Except.ok.inj (h.trans h'.symm))
  have hnone : leaf.mapper.isNone = true := Option.isNone_iff_eq_none.mpr hmap
  cases htype : leaf.type with
  | string | bytes =>
    rw [htype] at h h'
    cases h
    cases h'
    rfl
  | integer =>
    rw [htype] at ht
    exact hnumber ht ⟨hnone, .inl htype⟩
  | unsignedInteger =>
    rw [htype] at ht
    exact hnumber ht ⟨hnone, .inr htype⟩
  | bool =>
    rw [htype] at ht h h'
    obtain ⟨b, rfl⟩ := List.length_eq_one_iff.mp ht
    obtain ⟨b', rfl⟩ := List.length_eq_one_iff.mp (hlen ▸ ht)
    have hbyte : ∀ c : UInt8, asVariant .bool [c] = .ok v →
        c = 0 ∧ v = .bool false ∨ c = 1 ∧ v = .bool true := fun c hc => by
      rw [asVariant, convertBool_cons] at hc
      split at hc
      · cases hc
        exact .inl ⟨‹_›, rfl⟩
      · split at hc <;> cases hc
        exact .inr ⟨‹_›, rfl⟩
    rcases hbyte b h with ⟨rfl, rfl⟩ | ⟨rfl, rfl⟩
    · rcases hbyte b' h' with ⟨rfl, -⟩ | ⟨-, hv⟩
      · rfl
      · cases hv
    · rcases hbyte b' h' with ⟨-, hv⟩ | ⟨rfl, -⟩
      · cases hv
      · rfl
  | float | undefined =>
    rw [htype] at ht
    exact ht.elim

theorem FieldInterpretation.Tells.not_double {size : Nat} (ht : leaf.Tells size) {v : Variant}
    (hv : asVariant leaf.type bs = .ok v) (x : Float) : v ≠ .double x := by
  rintro rfl
  unfold FieldInterpretation.Tells at ht
  cases htype : leaf.type with
  | float =>
    rw [htype] at ht
    exact ht
  | bool =>
    rw [htype, asVariant] at hv
    cases hb : convertBool bs <;> rw [hb] at hv <;> cases hv
  | _ =>
    rw [htype] at hv
    cases hv

/-- A leaf has one line. -/
theorem length_leafTexts (hmap : leaf.mapper = none) (hconv : leaf.Converts bs) :
    (toStringResult formatDouble (leafResults bs leaf)).length = 1 := by
  obtain ⟨v, hv⟩ := hconv
  simp only [leafResults, hv, FieldInterpretation.results, hmap, toStringResult, List.map_cons,
    List.map_nil, List.length_singleton]

/-- **The line of a leaf** tells the bytes. -/
theorem leafTexts_inj (ht : leaf.Tells bs.length) (hmap : leaf.mapper = none)
    (hlen : bs.length = bs'.length) (hconv : leaf.Converts bs) (hconv' : leaf.Converts bs')
    (h : toStringResult formatDouble (leafResults bs leaf) =
      toStringResult formatDouble (leafResults bs' leaf)) : bs = bs' := by
  obtain ⟨v, hv⟩ := hconv
  obtain ⟨v', hv'⟩ := hconv'
  simp only [leafResults, hv, hv', FieldInterpretation.results, hmap, toStringResult,
    List.map_cons, List.map_nil, List.cons.injEq, and_true] at h
  obtain rfl := formatted_inj (index_asVariant hv hv') (ht.not_double hv) h
  exact asVariant_inj ht hmap hlen hv hv'

/-- The conversions of the field have values. -/
def FieldConverts (fis : List FieldInterpretation) (name : Str) (data : Bytes) : Prop :=
  ∀ fi, firstAdded fis name = some fi → ∀ leaf ∈ fi.leaves, leaf.Converts data

theorem fieldTexts_some {name : Str} {fi : FieldInterpretation}
    (hfi : firstAdded fis name = some fi) : fieldTexts formatDouble behavior fis ⟨name, bs⟩ =
      fi.leaves.flatMap fun leaf => toStringResult formatDouble (leafResults bs leaf) := by
  simp only [fieldTexts, fieldResults, hfi, toStringResult, List.map_flatMap]

section Fields

variable {name : Str} (hmap : NoMappers fis) (hconv : FieldConverts fis name bs)
  (hconv' : FieldConverts fis name bs')

include hmap hconv hconv'

/-- How many lines a field has does not depend on its bytes. -/
theorem length_fieldTexts : (fieldTexts formatDouble behavior fis ⟨name, bs⟩).length =
    (fieldTexts formatDouble behavior fis ⟨name, bs'⟩).length := by
  cases hfi : firstAdded fis name with
  | none => simp only [fieldTexts, fieldResults, hfi]
  | some fi =>
    have hleaf : ∀ leaf ∈ fi.leaves, leaf.mapper = none := hmap fi (List.mem_of_find?_eq_some hfi)
    rw [fieldTexts_some hfi, fieldTexts_some hfi, List.length_flatMap, List.length_flatMap]
    refine congrArg List.sum (List.map_congr_left fun leaf hl => ?_)
    rw [length_leafTexts (hleaf leaf hl) (hconv fi hfi leaf hl),
      length_leafTexts (hleaf leaf hl) (hconv' fi hfi leaf hl)]

/-- **The lines of a field** tell its bytes. -/
theorem fieldTexts_inj (hlen : bs.length = bs'.length) (hs : Shown fis ⟨name, bs⟩)
    (h : fieldTexts formatDouble behavior fis ⟨name, bs⟩ =
      fieldTexts formatDouble behavior fis ⟨name, bs'⟩) : bs = bs' := by
  by_cases hne : bs = []
  · subst hne
    exact (List.length_eq_zero_iff.mp hlen.symm).symm
  · obtain ⟨fi, hfi, leaf, hl, ht⟩ := hs hne
    have hleaf : ∀ leaf ∈ fi.leaves, leaf.mapper = none := hmap fi (List.mem_of_find?_eq_some hfi)
    rw [fieldTexts_some hfi, fieldTexts_some hfi, flatMap_inj fun leaf hl => by
      rw [length_leafTexts (hleaf leaf hl) (hconv fi hfi leaf hl),
        length_leafTexts (hleaf leaf hl) (hconv' fi hfi leaf hl)]] at h
    exact leafTexts_inj ht (hleaf leaf hl) hlen (hconv fi hfi leaf hl) (hconv' fi hfi leaf hl)
      (h leaf hl)

end Fields

/-! ## Packets -/

/-- The lines of a packet. -/
def packetTexts (formatDouble : Float → Str) (behavior : EmptyFieldBehavior)
    (fis : List FieldInterpretation) (ds : List FieldData) : List Str :=
  ds.flatMap (fieldTexts formatDouble behavior fis)

/-- **One packet.** The lines of its fields, with others behind them, can be taken apart: what was
read says which field is next and how long it is. -/
theorem conforms_texts (hmap : NoMappers fis) {h : History} {fs : List FieldDescriptor}
    {ds es : List FieldData} (hd : Conforms h fs ds) (he : Conforms h fs es)
    (hconv : ConvertsAll fis ds) (hconv' : ConvertsAll fis es) (hs : ∀ d ∈ ds, Shown fis d)
    {rest rest' : List Str}
    (heq : packetTexts formatDouble behavior fis ds ++ rest =
      packetTexts formatDouble behavior fis es ++ rest') : ds = es ∧ rest = rest' := by
  induction hd generalizing es with
  | nil h =>
    cases he
    exact ⟨rfl, heq⟩
  | removed hr _ ih =>
    cases he with
    | removed _ he => exact ih he hconv hconv' hs heq
    | present hp =>
      rw [hr] at hp
      cases hp
  | present hp hlen _ _ ih =>
    cases he with
    | removed hr =>
      rw [hp] at hr
      cases hr
    | present _ hlen' _ he =>
      have hl := hlen.trans hlen'.symm
      have hfield := List.forall_mem_cons.mp hconv
      have hfield' := List.forall_mem_cons.mp hconv'
      have hshown := List.forall_mem_cons.mp hs
      rw [packetTexts, packetTexts, List.flatMap_cons, List.flatMap_cons, List.append_assoc,
        List.append_assoc] at heq
      obtain ⟨hhead, htail⟩ :=
        List.append_inj heq (length_fieldTexts hmap hfield.1 hfield'.1)
      obtain rfl := fieldTexts_inj hmap hfield.1 hfield'.1 hl hshown.1 hhead
      obtain ⟨rfl, rfl⟩ := ih he hfield.2 hfield'.2 hshown.2 htail
      exact ⟨rfl, rfl⟩

/-- The first field of a packet has a line. -/
theorem packetTexts_ne_nil {t : PacketDescriptor} (ht : MarkedTemplate t) (hmap : NoMappers fis)
    {ds : List FieldData} (hc : Conforming t ds) (hconv : ConvertsAll fis ds)
    (hs : ∀ d ∈ ds, Shown fis d) : packetTexts formatDouble behavior fis ds ≠ [] := by
  obtain ⟨f, fs, hf, hsize⟩ := ht.first
  unfold Conforming at hc
  rw [hf] at hc
  cases hc with
  | removed hr => cases hr
  | @present _ _ v _ ds hp hlen hok hrest =>
    have hv : v ≠ [] := by
      rintro rfl
      exact hsize (UInt16.toNat_inj.mp hlen.symm)
    obtain ⟨fi, hfi, leaf, hl, ht⟩ := (List.forall_mem_cons.mp hs).1 hv
    have hone : (toStringResult formatDouble (leafResults v leaf)).length = 1 :=
      length_leafTexts (hmap fi (List.mem_of_find?_eq_some hfi) leaf hl)
        ((List.forall_mem_cons.mp hconv).1 fi hfi leaf hl)
    rw [packetTexts, List.flatMap_cons, fieldTexts_some hfi, ne_eq, List.append_eq_nil_iff,
      not_and_or]
    left
    rw [List.flatMap_eq_nil_iff]
    intro hnil
    rw [hnil leaf hl] at hone
    cases hone

/-- **Packets one after the other.** -/
theorem packets_texts {t : PacketDescriptor} (ht : MarkedTemplate t) (hmap : NoMappers fis)
    {ps qs : List (List FieldData)} (hps : ∀ p ∈ ps, Conforming t p ∧ ConvertsAll fis p)
    (hqs : ∀ q ∈ qs, Conforming t q ∧ ConvertsAll fis q) (hs : ∀ p ∈ ps, ∀ d ∈ p, Shown fis d) :
    ps.flatMap (packetTexts formatDouble behavior fis) <+:
      qs.flatMap (packetTexts formatDouble behavior fis) ↔ ps <+: qs := by
  refine ⟨fun hpre => ?_, fun hpre => ?_⟩
  · induction ps generalizing qs with
    | nil => exact List.nil_prefix
    | cons p ps ih =>
      rw [List.forall_mem_cons] at hps hs
      obtain ⟨rest, hrest⟩ := hpre
      rw [List.flatMap_cons, List.append_assoc] at hrest
      cases qs with
      | nil =>
        rw [List.flatMap_nil, List.append_eq_nil_iff] at hrest
        exact absurd hrest.1 (packetTexts_ne_nil ht hmap hps.1.1 hps.1.2 hs.1)
      | cons q qs =>
        rw [List.forall_mem_cons] at hqs
        rw [List.flatMap_cons] at hrest
        obtain ⟨rfl, htail⟩ :=
          conforms_texts hmap hps.1.1 hqs.1.1 hps.1.2 hqs.1.2 hs.1 hrest
        exact List.cons_prefix_cons.mpr ⟨rfl, ih hps.2 hqs.2 hs.2 ⟨rest, htail⟩⟩
  · obtain ⟨rest, rfl⟩ := hpre
    rw [List.flatMap_append]
    exact List.prefix_append _ _

end Lines

/-! ## Streams -/

/-- The calls on the stream deliver packets whose interpretation returns, and these are their
lines. -/
def Displays (formatDouble : Float → Str) (t : PacketDescriptor) (g : GenericPacketInterpreter)
    (o : OnceSets) (s : Bytes) (lines : List Str) : Prop :=
  AllReturn (make t) s ∧ ∃ rs : List InterpretationResults, outputs interpretCall o
      ((packetsOf (outputs addByte (make t) s)).map (g, ·)) = rs.map .ok ∧
    lines = rs.flatMap (toStringResult formatDouble)

section Streams

variable {t : PacketDescriptor} {formatDouble : Float → Str} {behaviors : Behaviors} {name : Str}
  {fis : List FieldInterpretation} {o o' : OnceSets} {s s' : Bytes} {lines lines' : List Str}

theorem readPackets_conforming {n : Nat} : ∀ ds ∈ readPackets t n s, Conforming t ds := by
  induction n generalizing s with
  | zero => exact fun ds hds => absurd hds List.not_mem_nil
  | succ n ih =>
    rw [readPackets]
    split
    · rename_i ds rest hread
      obtain ⟨es, hes, hc⟩ := readFields_conforms hread
      obtain rfl : ds = es := hes
      exact List.forall_mem_cons.mpr ⟨hc, ih⟩
    · exact fun ds hds => absurd hds List.not_mem_nil

/-- The packets of a stream, with their lines. -/
theorem Displays.packets (ht : MarkedTemplate t)
    (h : Displays formatDouble t (built behaviors name fis) o s lines) :
    ∃ ps : List (List FieldData),
      packetsOf (outputs addByte (make t) s) = ps.map ({ fields := · }) ∧
      (∀ p ∈ ps, Conforming t p ∧ ConvertsAll fis p) ∧
      lines = ps.flatMap (packetTexts formatDouble behaviors.emptyFieldBehavior fis) := by
  obtain ⟨hok, rs, hrs, rfl⟩ := h
  obtain ⟨hconv, rfl⟩ := outputs_interpretCall hrs
  have hread := ht.packets_read (Nat.le_refl _) hok
  rw [hread] at hconv ⊢
  refine ⟨_, rfl, fun p hp => ⟨readPackets_conforming p hp, ?_⟩, ?_⟩
  · exact hconv _ (List.mem_map_of_mem hp)
  · rw [List.map_map, List.flatMap_map]
    refine List.flatMap_congr fun ds _ => ?_
    simp only [toStringResult, List.map_flatMap, Function.comp]
    rfl

/-- **The lines of a stream tell its packets**, header fields or not, and whatever the interpreter
does with fields that it does not know. Lines that begin with those of another stream come from
packets that begin with its packets. -/
theorem displays_iff (ht : MarkedTemplate t) (hmap : NoMappers fis)
    (h : Displays formatDouble t (built behaviors name fis) o s lines)
    (h' : Displays formatDouble t (built behaviors name fis) o' s' lines')
    (hs : ∀ p ∈ packetsOf (outputs addByte (make t) s), ∀ d ∈ p.fields, Shown fis d) :
    lines <+: lines' ↔
      packetsOf (outputs addByte (make t) s) <+: packetsOf (outputs addByte (make t) s') := by
  obtain ⟨ps, hps, hpc, rfl⟩ := h.packets ht
  obtain ⟨qs, hqs, hqc, rfl⟩ := h'.packets ht
  rw [hps, List.forall_mem_map] at hs
  rw [hps, hqs, packets_texts ht hmap hpc hqc hs]
  have hinj : Function.Injective fun ds => ({ fields := ds } : PacketData) := fun a b hab => by
    cases hab
    rfl
  exact (List.prefix_map_iff_of_injective hinj).symm

/-- Numbers as numbers, and the rest as bytes. -/
def markedInterpretations : List FieldInterpretation :=
  [{ name := lit "SIZE", type := .unsignedInteger }, { name := lit "DATA", type := .bytes },
    { name := lit "MARK", type := .bytes }, { name := lit "CRC", type := .unsignedInteger }]

/-- A packet of the template. -/
def numberedPacket (crc : UInt8) : PacketData where
  fields := [⟨lit "SIZE", [1]⟩, ⟨lit "DATA", [7]⟩, ⟨lit "MARK", [0xAA, 0xBB]⟩, ⟨lit "CRC", [crc]⟩]

theorem outputs_numbered (crc : UInt8) :
    outputs addByte (make markedTemplate) [1, 7, 0xAA, 0xBB, crc] =
      List.replicate 4 (.ok none) ++ [.ok (some (numberedPacket crc))] := by
  have hc : Conforming markedTemplate (numberedPacket crc).fields := by
    refine .present (by decide) (by decide) (fun _ => by decide) ?_
    refine .present (by decide) (by decide) (fun _ => by decide) ?_
    refine .present (by decide) (by decide) (fun _ => by decide) ?_
    refine .present (by decide) (by rfl) (fun _ => ⟨?_, ?_, ?_, ?_⟩) (.nil _) <;> simp
  exact marked_markedTemplate.outputs_packets (List.forall_mem_singleton.mpr hc) []

theorem displays_numbered (crc : UInt8) :
    Displays (fun _ => []) markedTemplate (built {} (lit "P") markedInterpretations) {}
      [1, 7, 0xAA, 0xBB, crc]
      [lit "1", lit "07 ", lit "aa bb ", formatInteger (convertUnsignedInteger [crc]).toNat] := by
  have hos := outputs_numbered crc
  refine ⟨?_, [(numberedPacket crc).fields.flatMap
    (fieldResults .skipAndWarnOnce markedInterpretations)], ?_, ?_⟩
  · rw [AllReturn, hos]
    simp
  · rw [hos]
    rfl
  · rfl

theorem displays_iff_marked : [lit "1", lit "07 ", lit "aa bb ", lit "5"] <+:
      [lit "1", lit "07 ", lit "aa bb ", lit "6"] ↔
    packetsOf (outputs addByte (make markedTemplate) [1, 7, 0xAA, 0xBB, 5]) <+:
      packetsOf (outputs addByte (make markedTemplate) [1, 7, 0xAA, 0xBB, 6]) := by
  refine displays_iff marked_markedTemplate (by unfold NoMappers; decide) (displays_numbered 5)
    (displays_numbered 6) ?_
  rw [outputs_numbered]
  intro p hp d hd _
  obtain rfl : p = numberedPacket 5 := List.mem_singleton.mp hp
  simp only [numberedPacket, List.mem_cons, List.not_mem_nil, or_false] at hd
  rcases hd with rfl | rfl | rfl | rfl
  · exact ⟨_, rfl, _, .head _, .inl rfl⟩
  · exact ⟨_, rfl, _, .head _, trivial⟩
  · exact ⟨_, rfl, _, .head _, trivial⟩
  · exact ⟨_, rfl, _, .head _, .inl rfl⟩

end Streams

end Protos

import ProtoTools.Dissection.FieldStore
import ProtoTools.Dissection.Reading

/-!
# Sending what a descriptor holds

A descriptor is edited, encoded and dissected by a template, which has the sizes of its fields from
the values of others.

* `readFields_conforms`: the pass reads conforming field lists only.
* `encoding_dissects_iff`: the encoding of a descriptor delivers its own fields exactly when they
  conform to the template.
* `conforms_set`: a field without rules can have any value of its size.
* `checksum_verifies`: a checksum set into such a field, of the bytes without it, is the one of the
  packet that is delivered.
-/

namespace Protos

open Machine GenericDissector

variable {t : PacketDescriptor} {h : History} {fs : List FieldDescriptor} {pd : PacketDescriptor}

/-! ## What the pass reads -/

/-- The fields that the pass reads conform to the template. -/
theorem readFields_conforms {s : Bytes} {ds : List FieldData} {rest : Bytes}
    (hread : readFields h fs s = .packet ds rest) :
    ∃ es, ds = delivered h ++ es ∧ Conforms h fs es := by
  induction fs generalizing h s with
  | nil =>
    rw [readFields, Reading.packet.injEq] at hread
    exact ⟨[], by rw [← hread.1, List.append_nil], .nil h⟩
  | cons f fs ih =>
    rw [readFields] at hread
    split at hread
    · rename_i hr
      obtain ⟨es, hes, hc⟩ := ih hread
      exact ⟨es, hes, .removed hr hc⟩
    · rename_i hr
      rw [Bool.not_eq_true] at hr
      split at hread
      · rename_i hz
        obtain ⟨es, hes, hc⟩ := ih hread
        refine ⟨⟨f.name, []⟩ :: es, ?_, .present hr hz.symm (fun hne => absurd rfl hne) hc⟩
        rw [hes, delivered_cons, List.append_assoc]
        rfl
      · split at hread
        · cases hread
        · rename_i v s' hfield
          split at hread
          · rename_i hok
            obtain ⟨es, hes, hc⟩ := ih hread
            refine ⟨⟨f.name, v⟩ :: es, ?_, .present hr ?_ (fun _ => hok) hc⟩
            · rw [hes, delivered_cons, List.append_assoc]
              rfl
            · unfold readField at hfield
              split at hfield
              · split at hfield
                · rename_i hlen
                  obtain ⟨_, -, hv⟩ := Option.map_eq_some_iff.mp hfield
                  cases hv
                  exact hlen
                · cases hfield
              · split at hfield
                · rename_i hle
                  cases hfield
                  exact List.length_take_of_le hle
                · cases hfield
          · cases hread

/-- A packet that a new object delivers for its first bytes conforms to the template. -/
theorem MarkedTemplate.conforming_of_outputs (ht : MarkedTemplate t) {s : Bytes} {n : Nat}
    {ds : List FieldData} (hos : outputs addByte (make t) s =
      List.replicate n (.ok none) ++ [.ok (some { fields := ds })]) : Conforming t ds := by
  have hans := ht.answered s
  have hpackets := congrArg packetsOf hos
  rw [packetsOf_append, packetsOf_replicate, packetsOf_cons_some] at hpackets
  cases hread : readPacket t s with
  | more =>
    rw [hread] at hans
    rw [show outputs addByte (make t) s = _ from hans, packetsOf_replicate] at hpackets
    cases hpackets
  | packet es rest =>
    rw [hread] at hans
    obtain ⟨used, -, -, hused⟩ := hans
    rw [hused, packetsOf_append, packetsOf_replicate, packetsOf_cons_some] at hpackets
    obtain ⟨es', hes, hc⟩ := readFields_conforms hread
    obtain rfl : es = es' := hes
    have hfirst := (List.cons.inj hpackets).1
    rw [PacketData.mk.injEq] at hfirst
    rw [← hfirst.2]
    exact hc
  | broken rest =>
    rw [hread] at hans
    obtain ⟨used, what, d, -, -, hused⟩ := hans
    have hmem : .error (.runtimeError what) ∈ outputs addByte (make t) s := by
      rw [hused]
      exact List.mem_append_right _ (.head _)
    rw [hos] at hmem
    simp at hmem

/-! ## The encoding of a descriptor -/

theorem encode_packetFromDescriptor (pd : PacketDescriptor) :
    encode (packetFromDescriptor pd).fields = pd.fields.flatMap (·.value) := by
  rw [encode, packetDataToBuffer_eq, packetFromDescriptor, List.flatMap_map]

theorem encoding_delivers (ht : MarkedTemplate t) (hv : HasValues pd.fields)
    (hc : Conforming t (packetFromDescriptor pd).fields) :
    packetDescriptorToBuffer pd false = .ok (pd.fields.flatMap (·.value)) ∧
      outputs addByte (make t) (pd.fields.flatMap (·.value)) =
        List.replicate ((pd.fields.flatMap (·.value)).length - 1) (.ok none) ++
          [.ok (some { fields := (packetFromDescriptor pd).fields })] := by
  refine ⟨encodeFields_ok hv _ _, ?_⟩
  have hos := ht.outputs_packets (List.forall_mem_singleton.mpr hc) []
  rwa [List.flatMap_singleton, List.flatMap_singleton, List.append_nil, outputs_nil,
    List.append_nil, answers, encode_packetFromDescriptor] at hos

/-- **When a descriptor arrives as it is.** Its encoding delivers a packet of its own fields, at the
last byte, exactly when they conform to the template. -/
theorem encoding_dissects_iff (ht : MarkedTemplate t) (hv : HasValues pd.fields) :
    (∃ buffer, packetDescriptorToBuffer pd false = .ok buffer ∧
      outputs addByte (make t) buffer = List.replicate (buffer.length - 1) (.ok none) ++
        [.ok (some { fields := (packetFromDescriptor pd).fields })]) ↔
      Conforming t (packetFromDescriptor pd).fields := by
  constructor
  · rintro ⟨buffer, -, hos⟩
    exact ht.conforming_of_outputs hos
  · exact fun hc => ⟨_, encoding_delivers ht hv hc⟩

/-! ## A field without rules -/

/-- The two histories say the same of every later field. -/
def Alike (h h' : History) : Prop :=
  ∀ g, removed h' g = removed h g ∧ effectiveSize h' g = effectiveSize h g

/-- No header, and no references. -/
def FieldDescriptor.Free (f : FieldDescriptor) : Prop :=
  f.isHeaderValue = false ∧ f.determinesSizeOf = [] ∧ f.sizeDeterminesExistenceOf = []

instance (f : FieldDescriptor) : Decidable f.Free := by
  unfold FieldDescriptor.Free; infer_instance

theorem Alike.cons {h' : History} (ha : Alike h h') (L : FieldDescriptor × Bytes) :
    Alike (L :: h) (L :: h') := by
  intro g
  rw [removed_cons, removed_cons, effectiveSize_cons, effectiveSize_cons, (ha g).1, (ha g).2]
  exact ⟨rfl, rfl⟩

/-- The value of a free field says nothing of the later ones. -/
theorem Alike.cons_free {h' : History} (ha : Alike h h') {f : FieldDescriptor} (hf : f.Free)
    (v v' : Bytes) : Alike ((f, v) :: h) ((f, v') :: h') := by
  have hsizes : ∀ v g, sizes (f, v) g = false := fun v g => by simp [sizes, hf.2.1]
  have hremoves : ∀ v g, removes (f, v) g = false := fun v g => by simp [removes, hf.2.2]
  intro g
  rw [removed_cons, removed_cons, effectiveSize_cons, effectiveSize_cons, (ha g).1, (ha g).2,
    hsizes, hsizes, hremoves, hremoves]
  exact ⟨rfl, rfl⟩

theorem FieldOk.alike {h' : History} (ha : Alike h h') {f : FieldDescriptor} {v : Bytes}
    (hok : FieldOk h f v fs) : FieldOk h' f v fs where
  header := hok.header
  width := hok.width
  sizeTarget hne := by
    obtain ⟨g, hg, hname, hr⟩ := hok.sizeTarget hne
    exact ⟨g, hg, hname, (ha g).1.trans hr⟩
  existenceTarget hne hz := by
    obtain ⟨g, hg, hname, hr⟩ := hok.existenceTarget hne hz
    exact ⟨g, hg, hname, (ha g).1.trans hr⟩

theorem fieldOk_free {f : FieldDescriptor} (hf : f.Free) (v : Bytes) : FieldOk h f v fs where
  header hh := by rw [hf.1] at hh; cases hh
  width hne := by simp [hf.2.1, hf.2.2] at hne
  sizeTarget hne := absurd hf.2.1 hne
  existenceTarget hne := absurd hf.2.2 hne

/-- The field list with the value for the name. -/
def setField (name : Str) (v : Bytes) (ds : List FieldData) : List FieldData :=
  ds.map fun d => if d.name = name then ⟨name, v⟩ else d

/-- **A free field** can have any value of its size. -/
theorem conforms_set {h' : History} {ds : List FieldData} {name : Str} {v : Bytes}
    (hc : Conforms h fs ds) (ha : Alike h h') (hfree : ∀ f ∈ fs, f.name = name → f.Free)
    (hlen : ∀ d ∈ ds, d.name = name → d.value.length = v.length) :
    Conforms h' fs (setField name v ds) := by
  induction hc generalizing h' with
  | nil h => exact .nil h'
  | removed hr _ ih =>
    exact .removed ((ha _).1.trans hr) (ih ha (fun g hg => hfree g (.tail _ hg)) hlen)
  | @present h f w fs ds hr hw hok _ ih =>
    rw [List.forall_mem_cons] at hfree hlen
    have hr' := (ha f).1.trans hr
    by_cases hn : f.name = name
    · subst hn
      have hwlen : w.length = v.length := hlen.1 rfl
      rw [setField, List.map_cons, if_pos rfl]
      refine .present hr' ?_ (fun _ => fieldOk_free (hfree.1 rfl) v) ?_
      · rw [(ha f).2, ← hw, hwlen]
      · exact ih (ha.cons_free (hfree.1 rfl) w v) hfree.2 hlen.2
    · rw [setField, List.map_cons, if_neg hn]
      refine .present hr' (hw.trans (ha f).2.symm) (fun hne => (hok hne).alike ha) ?_
      exact ih (ha.cons _) hfree.2 hlen.2

/-- The names of conforming fields are those of the template, without the removed ones. -/
theorem Conforms.names_sublist {ds : List FieldData} (hc : Conforms h fs ds) :
    (ds.map (·.name)).Sublist (fs.map (·.name)) := by
  induction hc with
  | nil => exact .slnil
  | removed _ _ ih => exact ih.cons _
  | present _ _ _ _ ih => exact ih.cons_cons _

/-! ## Checksums -/

/-- The bytes without a field are the values of the other fields. -/
theorem excluding_eq (hv : HasValues pd.fields) (name : Str) :
    packetDescriptorToBufferExcluding pd name =
      ((packetFromDescriptor pd).fields.filter (·.name ≠ name)).flatMap (·.value) := by
  obtain ⟨fields, pdName⟩ := pd
  simp only [packetDescriptorToBufferExcluding, packetFromDescriptor]
  induction fields with
  | nil => rfl
  | cons f fs ih =>
    have hf := hv f (.head _)
    rw [List.flatMap_cons, List.map_cons, ih fun g hg => hv g (.tail _ hg)]
    by_cases hn : f.name = name
    · rw [if_pos hn, List.filter_cons_of_neg (by simpa using hn), List.nil_append]
    · rw [if_neg hn, List.filter_cons_of_pos (by simpa using hn), List.flatMap_cons]
      by_cases hz : f.size = 0
      · rw [hz] at hf
        rw [if_pos hz, show f.value = [] from List.length_eq_zero_iff.mp hf]
      · rw [if_neg hz]

/-- The other fields stay. -/
theorem filter_setField (name : Str) (v : Bytes) (ds : List FieldData) :
    (setField name v ds).filter (·.name ≠ name) = ds.filter (·.name ≠ name) := by
  induction ds with
  | nil => rfl
  | cons d ds ih =>
    rw [setField, List.map_cons]
    by_cases hd : d.name = name
    · rw [if_pos hd, List.filter_cons_of_neg (by simp), List.filter_cons_of_neg (by simpa using hd)]
      exact ih
    · rw [if_neg hd, List.filter_cons_of_pos (by simpa using hd),
        List.filter_cons_of_pos (by simpa using hd)]
      exact congrArg (d :: ·) ih

theorem get_setField {name : Str} {v : Bytes} {ds : List FieldData} (hd : ∃ d ∈ ds, d.name = name)
    (packetName : Str) : ({ name := packetName, fields := setField name v ds } : PacketData).get
      name = .ok ⟨name, v⟩ := by
  have hfind : (setField name v ds).find? (·.name == name) = some ⟨name, v⟩ := by
    induction ds with
    | nil => simp at hd
    | cons d ds ih =>
      rw [setField, List.map_cons]
      by_cases hn : d.name = name
      · rw [if_pos hn, List.find?_cons, show ((⟨name, v⟩ : FieldData).name == name) = true from
          beq_self_eq_true name]
      · rw [if_neg hn, List.find?_cons_of_neg (by simpa using hn)]
        refine ih ?_
        obtain ⟨e, he, hname⟩ := hd
        rcases List.mem_cons.mp he with rfl | he
        · exact absurd hname hn
        · exact ⟨e, he, hname⟩
  rw [PacketData.get, hfind]

/-- **A checksum verifies.** Set into a free field, of the bytes without this field, it is the
checksum of the packet that is delivered, without this field; and the other fields arrive as they
are. -/
theorem checksum_verifies (ht : MarkedTemplate t) (hv : HasValues pd.fields)
    (hc : Conforming t (packetFromDescriptor pd).fields) {field : FieldDescriptor}
    (hfield : field ∈ pd.fields) (hfree : ∀ f ∈ t.fields, f.name = field.name → f.Free)
    {sizeofT : Nat} (hwide : field.size.toNat ≤ sizeofT) (checksum : Bytes → Int) :
    ∃ pd' buffer packet,
      pd.set field.name sizeofT
        (checksum (packetDescriptorToBufferExcluding pd field.name)) = .ok pd' ∧
      packetDescriptorToBuffer pd' false = .ok buffer ∧
      outputs addByte (make t) buffer =
        List.replicate (buffer.length - 1) (.ok none) ++ [.ok (some packet)] ∧
      packet.fields.filter (·.name ≠ field.name) =
        (packetFromDescriptor pd).fields.filter (·.name ≠ field.name) ∧
      packet.get field.name = .ok ⟨field.name, LittleEndian.ofInt field.size.toNat
        (checksum ((packet.fields.filter (·.name ≠ field.name)).flatMap (·.value)))⟩ := by
  have hn : (pd.fields.map (·.name)).Nodup := by
    have hnames := ht.distinct.sublist hc.names_sublist
    rwa [packetFromDescriptor, List.map_map] at hnames
  generalize hz : checksum (packetDescriptorToBufferExcluding pd field.name) = z
  have hset := set_ok hn hfield hwide z
  have hfields : (packetFromDescriptor { pd with
      fields := pd.fields.map fun g => if g.name == field.name then
        { g with value := LittleEndian.ofInt field.size.toNat z } else g }).fields =
      setField field.name (LittleEndian.ofInt field.size.toNat z)
        (packetFromDescriptor pd).fields := by
    simp only [packetFromDescriptor, setField, List.map_map]
    apply List.map_congr_left
    intro g hg
    by_cases he : g.name = field.name <;> simp [he]
  have hv' : HasValues (pd.fields.map fun g => if g.name == field.name then
      { g with value := LittleEndian.ofInt field.size.toNat z } else g) := by
    intro g hg
    obtain ⟨g', hg', rfl⟩ := List.mem_map.mp hg
    split
    · rename_i he
      rw [List.inj_on_of_nodup_map hn hg' hfield (by simpa using he)]
      exact LittleEndian.length_ofInt _ _
    · exact hv g' hg'
  have hc' : Conforming t (setField field.name (LittleEndian.ofInt field.size.toNat z)
      (packetFromDescriptor pd).fields) := by
    refine conforms_set hc (fun _ => ⟨rfl, rfl⟩) hfree fun d hd hname => ?_
    obtain ⟨g, hg, rfl⟩ := List.mem_map.mp hd
    rw [List.inj_on_of_nodup_map hn hg hfield hname, LittleEndian.length_ofInt]
    exact hv field hfield
  rw [← hfields] at hc'
  obtain ⟨hbuffer, hos⟩ := encoding_delivers ht hv' hc'
  refine ⟨_, _, _, hset, hbuffer, hos, ?_, ?_⟩
  · rw [hfields, filter_setField]
  · rw [hfields, filter_setField, ← excluding_eq hv, hz]
    have hmem : ⟨field.name, field.value⟩ ∈ (packetFromDescriptor pd).fields :=
      List.mem_map_of_mem hfield
    exact get_setField ⟨_, hmem, rfl⟩ _

/-- A descriptor of `markedTemplate`, edited but for its checksum. -/
def markedDescriptor : PacketDescriptor where
  fields := [
    { name := lit "SIZE", size := 1, value := [1] },
    { name := lit "DATA", size := 1, value := [7] },
    { name := lit "MARK", size := 2, value := [0xAA, 0xBB] },
    { name := lit "CRC", size := 1, value := [5] }]

theorem hasValues_markedDescriptor : HasValues markedDescriptor.fields := by
  simp only [markedDescriptor, HasValues, List.forall_mem_cons]
  exact ⟨rfl, rfl, rfl, rfl, fun _ h => absurd h List.not_mem_nil⟩

theorem conforming_markedDescriptor :
    Conforming markedTemplate (packetFromDescriptor markedDescriptor).fields :=
  conforming_markedPacket

theorem encoding_dissects_marked :
    (∃ buffer, packetDescriptorToBuffer markedDescriptor false = .ok buffer ∧
      outputs addByte (make markedTemplate) buffer =
        List.replicate (buffer.length - 1) (.ok none) ++
          [.ok (some { fields := (packetFromDescriptor markedDescriptor).fields })]) :=
  (encoding_dissects_iff marked_markedTemplate hasValues_markedDescriptor).mpr
    conforming_markedDescriptor

/-- The checksum is the sum of the bytes. -/
theorem checksum_verifies_marked : ∃ pd' buffer packet,
    markedDescriptor.set (lit "CRC") 4 (((packetDescriptorToBufferExcluding markedDescriptor
      (lit "CRC")).map fun b => (b.toNat : Int)).sum) = .ok pd' ∧
    packetDescriptorToBuffer pd' false = .ok buffer ∧
    outputs addByte (make markedTemplate) buffer =
      List.replicate (buffer.length - 1) (.ok none) ++ [.ok (some packet)] ∧
    packet.fields.filter (·.name ≠ lit "CRC") =
      (packetFromDescriptor markedDescriptor).fields.filter (·.name ≠ lit "CRC") ∧
    packet.get (lit "CRC") = .ok ⟨lit "CRC", LittleEndian.ofInt 1
      ((((packet.fields.filter (·.name ≠ lit "CRC")).flatMap (·.value)).map
        fun b => (b.toNat : Int)).sum)⟩ := by
  have hfield : ({ name := lit "CRC", size := 1, value := [5] } : FieldDescriptor) ∈
      markedDescriptor.fields := by simp [markedDescriptor]
  have hfree : ∀ f ∈ markedTemplate.fields, f.name = lit "CRC" → f.Free := by
    simp only [markedTemplate, List.forall_mem_cons]
    exact ⟨by decide, by decide, by decide, by decide, fun _ h => absurd h List.not_mem_nil⟩
  have hwide : (1 : UInt16).toNat ≤ 4 := by decide
  exact checksum_verifies marked_markedTemplate hasValues_markedDescriptor
    conforming_markedDescriptor hfield hfree hwide
    fun bytes => (bytes.map fun b => (b.toNat : Int)).sum

end Protos

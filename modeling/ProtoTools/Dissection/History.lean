import ProtoTools.Dissection.Grammar

/-!
# The dissector's state as a function of the delivered fields

Between two calls, a dissector without callbacks is determined by the fields it has delivered.

* `stateOf t h fs bytes`: the dissector that has delivered `h`, has `fs` still to come and has
  received `bytes` of the field in progress. Its stack (`pending`) is `fs` without the removed
  fields, in their effective sizes.
* `addByte_stateOf_waits`, `addByte_stateOf_drops`, `addByte_stateOf_completes`,
  `addByte_stateOf_throws`: a byte takes the state of a history to the state of the longer one, or
  throws exactly when the completed field is not `FieldOk`. `settled` is the state after a field.
-/

namespace Protos

open Machine GenericDissector

/-- `f` in the size that `h` gives it. -/
def resize (h : History) (f : FieldDescriptor) : FieldDescriptor :=
  { f with size := UInt16.ofNat (effectiveSize h f) }

/-- The fields that `hr` has not removed, in the sizes that `hs` gives them. -/
def pendingWith (hr hs : History) (fs : List FieldDescriptor) : List FieldDescriptor :=
  (fs.filter fun f => !removed hr f).map (resize hs)

/-- The stack after `h`, with `fs` to come. -/
def pending (h : History) (fs : List FieldDescriptor) : List FieldDescriptor := pendingWith h h fs

/-- The fields of the packet after `h`. -/
def delivered (h : History) : List FieldData := (h.map fun L => ⟨L.1.name, L.2⟩).reverse

/-- The dissector after `h`, with `fs` to come and `bytes` received of the field in progress. -/
def stateOf (t : PacketDescriptor) (h : History) (fs : List FieldDescriptor) (bytes : Bytes) :
    GenericDissector :=
  ⟨pending h fs, bytes, { fields := delivered h }, t⟩

/-- The state after a field, once the empty fields that follow it are delivered. -/
def settled (t : PacketDescriptor) (h : History) (fs : List FieldDescriptor) :
    Called (Option PacketData) :=
  (stateOf t h fs []).skipEmptyFields.finish

/-- The fields still to come have no callback; and they have no references, or distinct names, none
of a delivered field. -/
structure Layout (h : History) (fs : List FieldDescriptor) : Prop where
  plain : ∀ g ∈ fs, g.externalSizeCalculation = none
  names : (∀ g ∈ fs, g.determinesSizeOf = [] ∧ g.sizeDeterminesExistenceOf = []) ∨
    (∀ L ∈ h, ∀ g ∈ fs, L.1.name ≠ g.name) ∧ (fs.map (·.name)).Nodup

namespace Layout

variable {h : History} {f : FieldDescriptor} {fs : List FieldDescriptor}

theorem tail (hl : Layout h (f :: fs)) : Layout h fs where
  plain g hg := hl.plain g (.tail _ hg)
  names := by
    rcases hl.names with hno | ⟨hfresh, hnodup⟩
    · exact .inl fun g hg => hno g (.tail _ hg)
    · exact .inr ⟨fun L hL g hg => hfresh L hL g (.tail _ hg), (List.nodup_cons.mp hnodup).2⟩

theorem deliver (hl : Layout h (f :: fs)) (v : Bytes) : Layout ((f, v) :: h) fs where
  plain := hl.tail.plain
  names := by
    rcases hl.names with hno | ⟨hfresh, hnodup⟩
    · exact .inl fun g hg => hno g (.tail _ hg)
    · refine .inr ⟨fun L hL g hg => ?_, (List.nodup_cons.mp hnodup).2⟩
      rcases List.mem_cons.mp hL with rfl | hL
      · intro e
        exact (List.nodup_cons.mp hnodup).1 (List.mem_map.mpr ⟨g, hg, e.symm⟩)
      · exact hfresh L hL g (.tail _ hg)

/-- A field with a reference: its name and its target's are unique. -/
theorem distinct (hl : Layout h (f :: fs))
    (hd : f.determinesSizeOf ≠ [] ∨ f.sizeDeterminesExistenceOf ≠ []) :
    (∀ L ∈ h, L.1.name ≠ f.name) ∧ (fs.map (·.name)).Nodup := by
  rcases hl.names with hno | ⟨hfresh, hnodup⟩
  · obtain ⟨h1, h2⟩ := hno f (.head _)
    exact absurd hd (by simp [h1, h2])
  · exact ⟨fun L hL => hfresh L hL f (.head _), (List.nodup_cons.mp hnodup).2⟩

end Layout

theorem nodup_pendingWith (hr hs : History) {fs : List FieldDescriptor}
    (hn : (fs.map (·.name)).Nodup) : ((pendingWith hr hs fs).map (·.name)).Nodup := by
  have he : (pendingWith hr hs fs).map (·.name) =
      (fs.filter fun f => !removed hr f).map (·.name) := by
    simp [pendingWith, resize]
  rw [he]
  exact hn.sublist (List.filter_sublist.map _)

@[simp] theorem resize_name (h : History) (f : FieldDescriptor) : (resize h f).name = f.name := rfl

theorem effectiveSize_lt (h : History) (f : FieldDescriptor) : effectiveSize h f < 2 ^ 16 := by
  unfold effectiveSize
  split
  · omega
  · exact f.size.toNat_lt

@[simp] theorem resize_size (h : History) (f : FieldDescriptor) :
    (resize h f).size.toNat = effectiveSize h f := by
  simp only [resize]
  rw [UInt16.toNat_ofNat', Nat.mod_eq_of_lt (effectiveSize_lt h f)]

@[simp] theorem removed_nil (f : FieldDescriptor) : removed [] f = false := rfl

@[simp] theorem effectiveSize_nil (f : FieldDescriptor) : effectiveSize [] f = f.size.toNat := rfl

theorem removed_cons (L : FieldDescriptor × Bytes) (h : History) (f : FieldDescriptor) :
    removed (L :: h) f = (removes L f || removed h f) := rfl

theorem effectiveSize_cons (L : FieldDescriptor × Bytes) (h : History) (f : FieldDescriptor) :
    effectiveSize (L :: h) f =
      if sizes L f then (((fieldNumber L.2).toNat + L.1.sizeOffset.toInt) % 2 ^ 16).toNat
      else effectiveSize h f := by
  unfold effectiveSize
  rw [List.find?_cons]
  cases sizes L f <;> simp

theorem resize_cons (L : FieldDescriptor × Bytes) (h : History) (f : FieldDescriptor) :
    resize (L :: h) f =
      if sizes L f then { resize h f with size := offsetSize (fieldNumber L.2) L.1.sizeOffset }
      else resize h f := by
  unfold resize
  rw [effectiveSize_cons]
  split
  · congr 2
    apply UInt16.toNat_inj.mp
    have h1 := toNat_offsetSize (fieldNumber L.2) L.1.sizeOffset
    have h2 := (offsetSize (fieldNumber L.2) L.1.sizeOffset).toNat_lt
    rw [UInt16.toNat_ofNat', ← h1, Int.toNat_natCast, Nat.mod_eq_of_lt h2]
  · rfl

theorem resize_nil (f : FieldDescriptor) : resize [] f = f := by
  simp [resize, effectiveSize_nil]

/-- An empty field says nothing about later fields. -/
theorem pending_empty (h : History) (f : FieldDescriptor) (fs : List FieldDescriptor) :
    pending ((f, []) :: h) fs = pending h fs := by
  have hr : ∀ g, removed ((f, []) :: h) g = removed h g := fun g => by
    simp [removed_cons, removes]
  have hs : ∀ g, resize ((f, []) :: h) g = resize h g := fun g => by
    simp [resize_cons, sizes]
  simp only [pending, pendingWith, hr, funext hs]

theorem pendingWith_cons_removed {hr hs : History} {f : FieldDescriptor}
    {fs : List FieldDescriptor} (h : removed hr f = true) :
    pendingWith hr hs (f :: fs) = pendingWith hr hs fs := by
  simp [pendingWith, h]

theorem pendingWith_cons_present {hr hs : History} {f : FieldDescriptor}
    {fs : List FieldDescriptor} (h : removed hr f = false) :
    pendingWith hr hs (f :: fs) = resize hs f :: pendingWith hr hs fs := by
  simp [pendingWith, h]

/-- The whole template is pending before the first field. -/
theorem pending_nil (fs : List FieldDescriptor) : pending [] fs = fs := by
  induction fs with
  | nil => rfl
  | cons f fs ih =>
    rw [pending, pendingWith_cons_present rfl, resize_nil]
    exact congrArg (f :: ·) ih

theorem make_eq_stateOf (t : PacketDescriptor) : make t = stateOf t [] t.fields [] := by
  simp [make, newPacket, makePacketStack, stateOf, pending_nil, delivered]

/-- A pending field, by its name. -/
theorem find_pendingWith (hr hs : History) (fs : List FieldDescriptor) (name : Str) :
    ((pendingWith hr hs fs).find? (·.name == name)).isSome = true ↔
      ∃ g ∈ fs, g.name = name ∧ removed hr g = false := by
  simp only [pendingWith, List.find?_isSome, List.mem_map, List.mem_filter, Bool.not_eq_eq_eq_not,
    Bool.not_true, beq_iff_eq]
  constructor
  · rintro ⟨_, ⟨g, ⟨hg, hr⟩, rfl⟩, hn⟩
    exact ⟨g, hg, hn, hr⟩
  · rintro ⟨g, hg, hn, hr⟩
    exact ⟨_, ⟨g, ⟨hg, hr⟩, rfl⟩, hn⟩

/-! ## The rules of a completed field -/

section Rules

variable {t : PacketDescriptor} {h : History} {f : FieldDescriptor} {v : Bytes}
  {fs : List FieldDescriptor}

/-- The dissector with the field `f` just added to the packet, its rules applied as far as the
stack of `hr` and `hs` says. -/
private def stateWith (t : PacketDescriptor) (h : History) (f : FieldDescriptor) (v : Bytes)
    (fs : List FieldDescriptor) (hr hs : History) : GenericDissector :=
  ⟨pendingWith hr hs fs, [], { fields := delivered ((f, v) :: h) }, t⟩

theorem delivered_cons (L : FieldDescriptor × Bytes) (h : History) :
    delivered (L :: h) = delivered h ++ [⟨L.1.name, L.2⟩] := by
  simp [delivered]

private theorem readable_iff (hv : v.length = effectiveSize h f) :
    Readable (resize h f).size ↔ v.length = 1 ∨ v.length = 2 ∨ v.length = 4 ∨ v.length = 8 := by
  have e : ∀ n : UInt16, (resize h f).size = n ↔ v.length = n.toNat := fun n => by
    rw [← UInt16.toNat_inj, resize_size, hv]
  simp only [Readable, e]
  rfl

/-- The value is the one of the field just added. -/
private theorem getSize_stateWith (hl : Layout h (f :: fs)) (hv : v.length = effectiveSize h f)
    (hd : f.determinesSizeOf ≠ [] ∨ f.sizeDeterminesExistenceOf ≠ [])
    (hr : Readable (resize h f).size) (hr' hs' : History) :
    (stateWith t h f v fs hr' hs').getSizeFromFieldValue (resize h f) = .ok (fieldNumber v) := by
  refine getSizeFromFieldValue_readable (p := { fields := delivered h }) ?_ ?_ ?_ hr
  · simp [stateWith, delivered_cons, PacketData.add]
  · simp only [delivered, List.mem_reverse, List.mem_map]
    rintro _ ⟨L, hL, rfl⟩
    exact (hl.distinct hd).1 L hL
  · rw [hv, resize_size]

/-- The size rule changes the size of its target, in every later field's eyes. -/
private theorem pendingWith_sized (hl : Layout h (f :: fs)) (hv : v ≠ [])
    (hd : f.determinesSizeOf ≠ []) :
    PacketDescriptor.update f.determinesSizeOf
        ({ · with size := offsetSize (fieldNumber v) f.sizeOffset }) (pendingWith h h fs) =
      pendingWith h ((f, v) :: h) fs := by
  have hn := nodup_pendingWith h h (hl.distinct (.inl hd)).2
  rw [update_eq_map _ hn, pendingWith, pendingWith, List.map_map]
  apply List.map_congr_left
  intro g _
  simp only [Function.comp, resize_name, resize_cons, sizes, hv, hd, ne_eq, not_false_eq_true,
    true_and, beq_iff_eq, decide_eq_true_eq, eq_comm (a := g.name)]

private theorem pendingWith_unsized (h : History) (fs : List FieldDescriptor)
    (hd : f.determinesSizeOf = []) : pendingWith h ((f, v) :: h) fs = pendingWith h h fs := by
  have hs : ∀ g, resize ((f, v) :: h) g = resize h g := fun g => by
    simp [resize_cons, sizes, hd]
  simp only [pendingWith, funext hs]

/-- The existence rule removes its target. -/
private theorem pendingWith_removed (hl : Layout h (f :: fs)) (hs : History) (hv : v ≠ [])
    (hd : f.sizeDeterminesExistenceOf ≠ []) (h0 : fieldNumber v = 0) :
    (pendingWith h hs fs).eraseP (·.name == f.sizeDeterminesExistenceOf) =
      pendingWith ((f, v) :: h) hs fs := by
  have hn := nodup_pendingWith h hs (hl.distinct (.inr hd)).2
  rw [eraseP_eq_filter hn, pendingWith, pendingWith, List.filter_map, List.filter_filter]
  congr 1
  apply List.filter_congr
  intro g _
  simp only [Function.comp, resize_name, removed_cons, removes, hv, hd, h0, ne_eq,
    not_false_eq_true, true_and, and_true, Bool.not_or]
  rw [bne, beq_eq_decide, decide_eq_decide.mpr (eq_comm (a := g.name))]

private theorem pendingWith_unremoved (h hs : History) (fs : List FieldDescriptor)
    (hd : f.sizeDeterminesExistenceOf = [] ∨ fieldNumber v ≠ 0) :
    pendingWith ((f, v) :: h) hs fs = pendingWith h hs fs := by
  have hr : ∀ g, removed ((f, v) :: h) g = removed h g := fun g => by
    rcases hd with hd | hd <;> simp [removed_cons, removes, hd]
  simp only [pendingWith, hr]

private theorem applySizeRule_ok (hl : Layout h (f :: fs)) (hv : v.length = effectiveSize h f)
    (hne : v ≠ []) (hok : f.determinesSizeOf ≠ [] → Readable (resize h f).size ∧
      ∃ g ∈ fs, g.name = f.determinesSizeOf ∧ removed h g = false) :
    (stateWith t h f v fs h h).applySizeRule (resize h f) =
      .ok (stateWith t h f v fs h ((f, v) :: h)) := by
  unfold applySizeRule
  by_cases hd : f.determinesSizeOf = []
  · rw [if_pos (by simpa [resize] using hd), stateWith, stateWith, pendingWith_unsized h fs hd]
  · obtain ⟨hr, hg⟩ := hok hd
    rw [if_neg (by simpa [resize] using hd), getFieldInStack]
    have hf := (find_pendingWith h h fs f.determinesSizeOf).mpr hg
    obtain ⟨g, hg⟩ := Option.isSome_iff_exists.mp hf
    have hg' : (stateWith t h f v fs h h).currentPacketStack.find?
        (·.name == (resize h f).determinesSizeOf) = some g := hg
    simp only [hg', getSize_stateWith hl hv (.inl hd) hr]
    rw [stateWith, stateWith, ← pendingWith_sized hl hne hd]
    rfl

private theorem applyExistenceRule_ok (hl : Layout h (f :: fs))
    (hv : v.length = effectiveSize h f) (hne : v ≠ []) (hs : History)
    (hok : f.sizeDeterminesExistenceOf ≠ [] → Readable (resize h f).size ∧ (fieldNumber v = 0 →
      ∃ g ∈ fs, g.name = f.sizeDeterminesExistenceOf ∧ removed h g = false)) :
    (stateWith t h f v fs h hs).applyExistenceRule (resize h f) =
      .ok (stateWith t h f v fs ((f, v) :: h) hs) := by
  unfold applyExistenceRule
  by_cases hd : f.sizeDeterminesExistenceOf = []
  · rw [if_pos (by simpa [resize] using hd), stateWith, stateWith,
      pendingWith_unremoved h hs fs (.inl hd)]
  · obtain ⟨hr, hg⟩ := hok hd
    rw [if_neg (by simpa [resize] using hd), getSize_stateWith hl hv (.inr hd) hr]
    simp only
    by_cases h0 : fieldNumber v = 0
    · rw [if_pos h0, removeFieldFromStack]
      have hf := (find_pendingWith h hs fs f.sizeDeterminesExistenceOf).mpr (hg h0)
      obtain ⟨g, hg⟩ := Option.isSome_iff_exists.mp hf
      have hg' : (stateWith t h f v fs h hs).currentPacketStack.find?
          (·.name == (resize h f).sizeDeterminesExistenceOf) = some g := hg
      simp only [hg']
      rw [stateWith, stateWith, ← pendingWith_removed hl hs hne hd h0]
      rfl
    · rw [if_neg h0, stateWith, stateWith, pendingWith_unremoved h hs fs (.inr h0)]

private theorem applySizeRule_error (hd : f.determinesSizeOf ≠ [])
    (hbad : ¬ Readable (resize h f).size ∨
      ¬ ∃ g ∈ fs, g.name = f.determinesSizeOf ∧ removed h g = false) :
    ∃ what, (stateWith t h f v fs h h).applySizeRule (resize h f) =
      .error (.runtimeError what) := by
  unfold applySizeRule
  rw [if_neg (by simpa [resize] using hd), getFieldInStack]
  cases hg : (stateWith t h f v fs h h).currentPacketStack.find?
      (·.name == (resize h f).determinesSizeOf) with
  | none => exact ⟨_, rfl⟩
  | some g =>
    have hr : ¬ Readable (resize h f).size := by
      refine hbad.resolve_right (not_not.mpr ((find_pendingWith h h fs _).mp ?_))
      exact Option.isSome_iff_exists.mpr ⟨g, hg⟩
    obtain ⟨what, hw⟩ := getSizeFromFieldValue_unreadable (stateWith t h f v fs h h) hr
    exact ⟨what, by simp only [hw]⟩

private theorem applyExistenceRule_error (hl : Layout h (f :: fs))
    (hv : v.length = effectiveSize h f) (hs : History) (hd : f.sizeDeterminesExistenceOf ≠ [])
    (hbad : ¬ Readable (resize h f).size ∨ fieldNumber v = 0 ∧
      ¬ ∃ g ∈ fs, g.name = f.sizeDeterminesExistenceOf ∧ removed h g = false) :
    ∃ what, (stateWith t h f v fs h hs).applyExistenceRule (resize h f) =
      .error (.runtimeError what) := by
  unfold applyExistenceRule
  rw [if_neg (by simpa [resize] using hd)]
  by_cases hr : Readable (resize h f).size
  · obtain ⟨h0, hno⟩ := hbad.resolve_left (not_not.mpr hr)
    rw [getSize_stateWith hl hv (.inr hd) hr]
    simp only [h0, if_true, removeFieldFromStack]
    cases hg : (stateWith t h f v fs h hs).currentPacketStack.find?
        (·.name == (resize h f).sizeDeterminesExistenceOf) with
    | none => exact ⟨_, rfl⟩
    | some g =>
      refine absurd ((find_pendingWith h hs fs _).mp ?_) hno
      exact Option.isSome_iff_exists.mpr ⟨g, hg⟩
  · obtain ⟨what, hw⟩ := getSizeFromFieldValue_unreadable (stateWith t h f v fs h hs) hr
    exact ⟨what, by simp only [hw]⟩

private theorem takeField_stateOf (t : PacketDescriptor) (h : History) (f : FieldDescriptor)
    (v : Bytes) (fs : List FieldDescriptor) :
    (stateOf t h (f :: fs) v).takeField (resize h f) (pending h fs) = stateWith t h f v fs h h := by
  simp [takeField, stateWith, stateOf, pending, delivered_cons, PacketData.add]

theorem completed_ok (hl : Layout h (f :: fs)) (hv : v.length = effectiveSize h f) (hne : v ≠ [])
    (hok : FieldOk h f v fs) :
    (stateOf t h (f :: fs) v).completed (resize h f) (pending h fs) =
      settled t ((f, v) :: h) fs := by
  rw [completed_eq, takeField_stateOf, applySizeRule_ok hl hv hne fun hd =>
    ⟨(readable_iff hv).mpr (hok.width (.inl hd)), hok.sizeTarget hd⟩]
  simp only
  rw [applyExistenceRule_ok hl hv hne _ fun hd =>
    ⟨(readable_iff hv).mpr (hok.width (.inr hd)), hok.existenceTarget hd⟩]
  rfl

/-- A field that breaks one of its rules makes the call throw. -/
theorem completed_throws (hl : Layout h (f :: fs)) (hv : v.length = effectiveSize h f)
    (hne : v ≠ []) (hh : f.isHeaderValue = true → f.value = v) (hbad : ¬ FieldOk h f v fs) :
    ∃ what d, (stateOf t h (f :: fs) v).completed (resize h f) (pending h fs) =
      (.error (.runtimeError what), d) := by
  rw [completed_eq, takeField_stateOf]
  by_cases hsize : f.determinesSizeOf ≠ [] → Readable (resize h f).size ∧
      ∃ g ∈ fs, g.name = f.determinesSizeOf ∧ removed h g = false
  · rw [applySizeRule_ok hl hv hne hsize]
    have hd : f.sizeDeterminesExistenceOf ≠ [] ∧ (¬ Readable (resize h f).size ∨
        fieldNumber v = 0 ∧
          ¬ ∃ g ∈ fs, g.name = f.sizeDeterminesExistenceOf ∧ removed h g = false) := by
      by_contra hno
      refine hbad ⟨hh, fun hw => (readable_iff hv).mp ?_, fun hd => (hsize hd).2,
        fun hd h0 => ?_⟩
      · rcases hw with hd | hd
        · exact (hsize hd).1
        · by_contra hr
          exact hno ⟨hd, .inl hr⟩
      · by_contra hg
        exact hno ⟨hd, .inr ⟨h0, hg⟩⟩
    obtain ⟨what, hw⟩ := applyExistenceRule_error (t := t) hl hv ((f, v) :: h) hd.1 hd.2
    exact ⟨what, _, by simp only; rw [hw]⟩
  · simp only [Classical.not_imp, not_and_or] at hsize
    obtain ⟨what, hw⟩ := applySizeRule_error (t := t) (v := v) hsize.1 hsize.2
    exact ⟨what, _, by rw [hw]⟩

end Rules

/-! ## A byte at the state of a history -/

section Byte

variable {t : PacketDescriptor} {h : History} {f : FieldDescriptor} {fs : List FieldDescriptor}
  {w : Bytes} {b : UInt8}

theorem stack_stateOf (hr : removed h f = false) :
    (stateOf t h (f :: fs) w).currentPacketStack = resize h f :: pending h fs :=
  pendingWith_cons_present hr

/-- The byte is not the last one of its field. -/
theorem addByte_stateOf_waits (hl : Layout h (f :: fs)) (hr : removed h f = false)
    (hn : w.length + 1 < effectiveSize h f) :
    (stateOf t h (f :: fs) w).addByte b = (.ok none, stateOf t h (f :: fs) (w ++ [b])) :=
  addByte_waits (stack_stateOf hr) (hl.plain f (.head _)) (by rw [resize_size]; exact hn)

/-- The w are not the header's: the oldest is dropped. -/
theorem addByte_stateOf_drops (hl : Layout h (f :: fs)) (hr : removed h f = false)
    (hn : w.length + 1 = effectiveSize h f) (hh : f.isHeaderValue = true)
    (hv : f.value ≠ w ++ [b]) :
    (stateOf t h (f :: fs) w).addByte b =
      (.ok none, stateOf t h (f :: fs) (w ++ [b]).tail) :=
  addByte_drops (stack_stateOf hr) (hl.plain f (.head _)) (by rw [resize_size]; exact hn) hh hv

/-- The byte completes its field. -/
theorem addByte_stateOf_completes (hl : Layout h (f :: fs)) (hr : removed h f = false)
    (hn : w.length + 1 = effectiveSize h f) (hok : FieldOk h f (w ++ [b]) fs) :
    (stateOf t h (f :: fs) w).addByte b = settled t ((f, w ++ [b]) :: h) fs := by
  rw [addByte_completes (stack_stateOf hr) (hl.plain f (.head _)) (by rw [resize_size]; exact hn)
    hok.header]
  exact completed_ok hl (by rw [List.length_append]; exact hn) (by simp) hok

/-- The byte completes its field, and the field breaks a rule. -/
theorem addByte_stateOf_throws (hl : Layout h (f :: fs)) (hr : removed h f = false)
    (hn : w.length + 1 = effectiveSize h f)
    (hh : f.isHeaderValue = true → f.value = w ++ [b])
    (hbad : ¬ FieldOk h f (w ++ [b]) fs) :
    ∃ what d, (stateOf t h (f :: fs) w).addByte b = (.error (.runtimeError what), d) := by
  rw [addByte_completes (stack_stateOf hr) (hl.plain f (.head _)) (by rw [resize_size]; exact hn)
    hh]
  exact completed_throws hl (by rw [List.length_append]; exact hn) (by simp) hh hbad

/-! ### The state after a field -/

theorem settled_nil (t : PacketDescriptor) (h : History) :
    settled t h [] = (.ok (some { fields := delivered h }), stateOf t h [] []) := rfl

theorem settled_removed (hr : removed h f = true) : settled t h (f :: fs) = settled t h fs := by
  rw [settled, settled, stateOf, stateOf, pending, pendingWith_cons_removed hr, pending]

theorem settled_empty (hl : Layout h (f :: fs)) (hr : removed h f = false)
    (hn : effectiveSize h f = 0) : settled t h (f :: fs) = settled t ((f, []) :: h) fs := by
  have hz : (resize h f).isCertainlyZeroSized = true := by
    have : (resize h f).size = 0 := UInt16.toNat_inj.mp (by rw [resize_size, hn]; rfl)
    have hc : (resize h f).externalSizeCalculation = none := hl.plain f (.head _)
    simp [FieldDescriptor.isCertainlyZeroSized, this, hc]
  have hskip : (stateOf t h (f :: fs) []).skipEmptyFields =
      (stateOf t ((f, []) :: h) fs []).skipEmptyFields := by
    unfold skipEmptyFields
    rw [stack_stateOf hr]
    simp [skipEmpty, hz, stateOf, pending_empty, delivered_cons, PacketData.add]
  rw [settled, settled, hskip]

/-- The field takes bytes: it is the next one in progress. -/
theorem settled_present (hr : removed h f = false) (hn : effectiveSize h f ≠ 0) :
    settled t h (f :: fs) = (.ok none, stateOf t h (f :: fs) []) := by
  have hz : (resize h f).isCertainlyZeroSized = false := by
    have : (resize h f).size ≠ 0 := fun e => hn (by rw [← resize_size, e]; rfl)
    simp [FieldDescriptor.isCertainlyZeroSized, this]
  have hs : (stateOf t h (f :: fs) []).currentPacketStack = resize h f :: pending h fs :=
    stack_stateOf hr
  have hskip : (stateOf t h (f :: fs) []).skipEmptyFields = stateOf t h (f :: fs) [] := by
    unfold skipEmptyFields
    rw [hs]
    simp only [skipEmpty, hz, Bool.false_eq_true, if_false]
    rw [← hs]
  rw [settled, hskip]
  simp [finish, stackIsEmpty, hs]

/-- The constructor's state is settled, when the first field of the template takes bytes. -/
theorem settled_make (hfirst : ∃ f fs, t.fields = f :: fs ∧ f.size ≠ 0) :
    settled t [] t.fields = (.ok none, make t) := by
  obtain ⟨f, fs, hf, hz⟩ := hfirst
  rw [make_eq_stateOf, hf]
  exact settled_present rfl fun e => hz (UInt16.toNat_inj.mp e)

end Byte

end Protos

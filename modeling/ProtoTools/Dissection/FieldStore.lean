import ProtoTools.Dissection.Edits

/-!
# A descriptor as a store of fields

What a descriptor is for while it is edited: a size and a value for each name.

* `FieldStore.edit`: what an edit asks of the store. `PacketDescriptor.store`: the store that a
  descriptor is, where the first field with a name counts.
* `store_edit`: an edit of the descriptor is the edit of its store.
* `edits_refine_store`: so is every run of edits, and it leaves everything else as it was.
-/

namespace Protos

open Machine

/-- What an edit can change of a field. -/
structure FieldCell where
  size : UInt16
  value : Bytes
  deriving DecidableEq

abbrev FieldStore := Str → Option FieldCell

def Edit.fieldName : Edit → Str
  | .number fieldName _ _ => fieldName
  | .bytes fieldName _ => fieldName

/-- The cell after the edit, when it is one that the cell takes: a number of a type that is wide
enough, or a vector of the cell's size, which a cell without a size gets from it. -/
def FieldCell.edit (cell : FieldCell) : Edit → Option FieldCell
  | .number _ sizeofT z =>
    if cell.size.toNat ≤ sizeofT then
      some { cell with value := LittleEndian.ofInt cell.size.toNat z }
    else none
  | .bytes _ value =>
    if cell.size.toNat = value.length ∨ cell.size = 0 then
      some { size := UInt16.ofNat value.length, value }
    else none

/-- The edit, and whether the store takes it. -/
def FieldStore.edit (st : FieldStore) (e : Edit) : Bool × FieldStore :=
  match (st e.fieldName).bind (·.edit e) with
  | none => (false, st)
  | some cell => (true, Function.update st e.fieldName (some cell))

def FieldDescriptor.cell (f : FieldDescriptor) : FieldCell where
  size := f.size
  value := f.value

def FieldDescriptor.withCell (f : FieldDescriptor) (cell : FieldCell) : FieldDescriptor :=
  { f with size := cell.size, value := cell.value }

/-- The first field with the name counts. -/
def PacketDescriptor.store (pd : PacketDescriptor) : FieldStore := fun name =>
  (pd.fields.find? (·.name == name)).map (·.cell)

/-- The field without what an edit can change. -/
def FieldDescriptor.rules (f : FieldDescriptor) : FieldDescriptor := f.withCell ⟨0, []⟩

section Store

variable {pd : PacketDescriptor} {f : FieldDescriptor} {fs : List FieldDescriptor}

theorem get_eq_error {name : Str} (h : pd.fields.find? (·.name == name) = none) :
    ∃ e, pd.get name = .error e := by
  rw [PacketDescriptor.get, h]
  exact ⟨_, rfl⟩

theorem get_eq_ok {name : Str} (h : pd.fields.find? (·.name == name) = some f) :
    pd.get name = .ok f := by
  rw [PacketDescriptor.get, h]

/-- Only the change of the first field with the name counts. -/
theorem update_congr {name : Str} {change change' : FieldDescriptor → FieldDescriptor}
    (h : fs.find? (·.name == name) = some f) (hc : change f = change' f) :
    PacketDescriptor.update name change fs = PacketDescriptor.update name change' fs := by
  induction fs with
  | nil => cases h
  | cons g gs ih =>
    unfold PacketDescriptor.update
    by_cases hn : (g.name == name) = true
    · rw [List.find?_cons, hn, Option.some.injEq] at h
      rw [if_pos hn, if_pos hn, h, hc]
    · rw [List.find?_cons_of_neg (by exact hn)] at h
      rw [if_neg hn, if_neg hn, ih h]

/-- **What an edit does**: the first field with its name gets a cell, or it throws. -/
theorem edit_cases (pd : PacketDescriptor) (e : Edit) :
    ((pd.store e.fieldName).bind (·.edit e) = none ∧ ∃ err, pd.edit e = (.error err, pd)) ∨
      ∃ f cell, pd.fields.find? (·.name == e.fieldName) = some f ∧ f.cell.edit e = some cell ∧
        pd.edit e = (.ok (), { pd with
          fields := PacketDescriptor.update e.fieldName (·.withCell cell) pd.fields }) := by
  cases hfind : pd.fields.find? (·.name == e.fieldName) with
  | none =>
    obtain ⟨err, hget⟩ := get_eq_error hfind
    refine .inl ⟨by rw [PacketDescriptor.store, hfind]; rfl, err, ?_⟩
    cases e with
    | number name sizeofT z =>
      simp only [PacketDescriptor.edit, PacketDescriptor.set, show pd.get name = _ from hget]
    | bytes name value =>
      simp only [PacketDescriptor.edit, PacketDescriptor.setBytes, show pd.get name = _ from hget]
  | some f =>
    have hget := get_eq_ok hfind
    rw [PacketDescriptor.store, hfind, Option.map_some, Option.bind_some]
    cases e with
    | number name sizeofT z =>
      simp only [Edit.fieldName] at hfind hget
      by_cases hwide : f.size.toNat ≤ sizeofT
      · right
        refine ⟨f, _, rfl, if_pos hwide, ?_⟩
        simp only [PacketDescriptor.edit, PacketDescriptor.set, hget, toBytes_of_le hwide]
        congr 2
        exact update_congr hfind rfl
      · left
        refine ⟨if_neg hwide, .runtimeError (lit "Width exceeds size of type"), ?_⟩
        simp only [PacketDescriptor.edit, PacketDescriptor.set, hget, toBytes,
          if_pos (Nat.lt_of_not_le hwide)]
    | bytes name value =>
      simp only [Edit.fieldName] at hfind hget
      by_cases hsize : f.size.toNat = value.length ∨ f.size = 0
      · right
        refine ⟨f, _, rfl, if_pos hsize, ?_⟩
        have hno : ¬ (f.size.toNat ≠ value.length ∧ f.size ≠ 0) := by tauto
        simp only [PacketDescriptor.edit, PacketDescriptor.setBytes, hget, if_neg hno]
        rfl
      · left
        have hno : f.size.toNat ≠ value.length ∧ f.size ≠ 0 := not_or.mp hsize
        refine ⟨if_neg hsize, .runtimeError (lit "Size mismatch"), ?_⟩
        simp only [PacketDescriptor.edit, PacketDescriptor.setBytes, hget, if_pos hno]

/-- The first field with the name gets the cell, and no other field changes. -/
theorem find_update {name : Str} (h : fs.find? (·.name == name) = some f) (cell : FieldCell)
    (other : Str) : (PacketDescriptor.update name (·.withCell cell) fs).find? (·.name == other) =
      if other = name then some (f.withCell cell) else fs.find? (·.name == other) := by
  obtain ⟨before, rest, rfl, rfl, hbefore, hupdate⟩ := update_of_find h (·.withCell cell)
  rw [hupdate, List.find?_append, List.find?_append]
  by_cases ho : other = f.name
  · subst ho
    have hnone : before.find? (·.name == f.name) = none := by
      simpa [List.find?_eq_none] using hbefore
    rw [hnone, if_pos rfl, Option.none_or, List.find?_cons,
      show ((f.withCell cell).name == f.name) = true from beq_self_eq_true f.name]
  · have hf : ¬ (f.name == other) = true := by simpa using Ne.symm ho
    rw [if_neg ho, List.find?_cons_of_neg (by exact hf), List.find?_cons_of_neg (by exact hf)]

theorem store_update {name : Str} (h : pd.fields.find? (·.name == name) = some f)
    (cell : FieldCell) : ({ pd with
      fields := PacketDescriptor.update name (·.withCell cell) pd.fields } :
        PacketDescriptor).store = Function.update pd.store name (some cell) := by
  funext other
  simp only [PacketDescriptor.store, find_update h]
  by_cases ho : other = name
  · subst ho
    rw [if_pos rfl, Function.update_self]
    rfl
  · rw [if_neg ho, Function.update_of_ne ho]
    rfl

/-- **An edit of the descriptor** is the edit of its store. -/
theorem store_edit (pd : PacketDescriptor) (e : Edit) :
    ((pd.edit e).1.isOk, (pd.edit e).2.store) = pd.store.edit e := by
  rcases edit_cases pd e with ⟨hno, err, hedit⟩ | ⟨f, cell, hfind, hcell, hedit⟩
  · rw [hedit, FieldStore.edit, hno]
    rfl
  · have hbind : (pd.store e.fieldName).bind (·.edit e) = some cell := by
      rw [PacketDescriptor.store, hfind]
      exact hcell
    rw [hedit, FieldStore.edit, hbind, store_update hfind]
    rfl

/-- What no edit changes: the name, the fields with their rules, and the cells of the fields behind
another one with the same name. -/
structure SameFields (pd pd' : PacketDescriptor) : Prop where
  name : pd'.name = pd.name
  rules : pd'.fields.map (·.rules) = pd.fields.map (·.rules)
  shadowed : ∀ (k : Nat) (f : FieldDescriptor), pd.fields[k]? = some f →
    (∃ (j : Nat) (g : FieldDescriptor), j < k ∧ pd.fields[j]? = some g ∧ g.name = f.name) →
      pd'.fields[k]? = some f

theorem SameFields.refl (pd : PacketDescriptor) : SameFields pd pd where
  name := rfl
  rules := rfl
  shadowed _ _ h _ := h

theorem SameFields.trans {pd pd' pd'' : PacketDescriptor} (h : SameFields pd pd')
    (h' : SameFields pd' pd'') : SameFields pd pd'' where
  name := h'.name.trans h.name
  rules := h'.rules.trans h.rules
  shadowed k f hf hbefore := by
    obtain ⟨j, g, hj, hg, hname⟩ := hbefore
    refine h'.shadowed k f (h.shadowed k f hf ⟨j, g, hj, hg, hname⟩) ?_
    have hrules : (pd'.fields.map (·.rules))[j]? = some g.rules := by
      rw [h.rules, List.getElem?_map, hg, Option.map_some]
    rw [List.getElem?_map, Option.map_eq_some_iff] at hrules
    obtain ⟨g', hg', heq⟩ := hrules
    have hsame : g'.rules.name = g.rules.name := by rw [heq]
    exact ⟨j, g', hj, hg', hsame.trans hname⟩

theorem sameFields_update {name : Str} (h : pd.fields.find? (·.name == name) = some f)
    (cell : FieldCell) : SameFields pd { pd with
      fields := PacketDescriptor.update name (·.withCell cell) pd.fields } := by
  obtain ⟨before, rest, hfields, rfl, hbefore, hupdate⟩ := update_of_find h (·.withCell cell)
  refine ⟨rfl, ?_, ?_⟩
  · rw [hupdate, hfields]
    simp [FieldDescriptor.rules, FieldDescriptor.withCell]
  · rintro k g hg ⟨j, g', hj, hg', hname⟩
    simp only [hupdate]
    rw [hfields] at hg hg'
    rcases Nat.lt_trichotomy k before.length with hk | rfl | hk
    · rwa [List.getElem?_append_left hk] at hg ⊢
    · -- the field that changes is the first one with its name
      rw [List.getElem?_append_right (Nat.le_refl _), Nat.sub_self, List.getElem?_cons_zero,
        Option.some.injEq] at hg
      rw [List.getElem?_append_left hj] at hg'
      rw [← hg] at hname
      exact absurd hname (hbefore g' (List.mem_of_getElem? hg'))
    · obtain ⟨m, hm⟩ : ∃ m, k - before.length = m + 1 := ⟨k - before.length - 1, by omega⟩
      rw [List.getElem?_append_right hk.le, hm, List.getElem?_cons_succ] at hg ⊢
      exact hg

theorem sameFields_edit (pd : PacketDescriptor) (e : Edit) : SameFields pd (pd.edit e).2 := by
  rcases edit_cases pd e with ⟨-, err, hedit⟩ | ⟨f, cell, hfind, -, hedit⟩
  · rw [hedit]
    exact .refl pd
  · rw [hedit]
    exact sameFields_update hfind cell

/-- **Edits refine a store.** In every run of edits, those that return are those that the store
takes, each of them and each that throws leaves the descriptor a store as the model does, and
nothing but the cells of the store changes. -/
theorem edits_refine_store (pd : PacketDescriptor) (edits : List Edit) :
    (outputs PacketDescriptor.edit pd edits).map Except.isOk =
        outputs FieldStore.edit pd.store edits ∧
      (after PacketDescriptor.edit pd edits).store = after FieldStore.edit pd.store edits ∧
      SameFields pd (after PacketDescriptor.edit pd edits) := by
  induction edits generalizing pd with
  | nil => exact ⟨rfl, rfl, .refl pd⟩
  | cons e edits ih =>
    obtain ⟨hout, hstore, hsame⟩ := ih (pd.edit e).2
    have hedit := store_edit pd e
    rw [Prod.ext_iff] at hedit
    obtain ⟨hok, hnext⟩ := hedit
    simp only at hok hnext
    rw [outputs_cons, outputs_cons, after_cons, after_cons, List.map_cons, hout, hok, hstore, hnext]
    exact ⟨rfl, rfl, (sameFields_edit pd e).trans hsame⟩

end Store

end Protos

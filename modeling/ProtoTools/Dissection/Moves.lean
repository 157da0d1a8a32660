import Mathlib.Logic.Relation
import ProtoTools.Dissection.Exceptions

/-!
# The moves of a call

Whatever a call of `addByte` ends with, it changes the fields still to come and the fields delivered
by a few moves only.

* `Move`: the top is delivered, its callback answers, a field gets another size, or a field is
  removed. `addByte_moves`: a call is a sequence of moves.
* `FieldsSatisfy.moves`: a property of the fields that every move keeps.
* `callbacks_addByte`: no pending callback comes back within a packet. `FromTemplate.addByte`:
  the fields of a packet are those of the template, in its order.
-/

namespace Protos

open Machine GenericDissector Relation

/-- The fields still to come and the fields delivered. -/
abbrev Progress := List FieldDescriptor × List FieldData

def GenericDissector.progress (d : GenericDissector) : Progress :=
  (d.currentPacketStack, d.currentPacket.fields)

/-- The names whose fields a call can give another size, and remove. -/
structure Targets where
  resized : Str → Prop
  removed : Str → Prop

inductive Move (targets : Targets) : Progress → Progress → Prop
  | deliver {top : FieldDescriptor} {rest : List FieldDescriptor} {fields : List FieldData}
      {v : Bytes} : v.length = top.size.toNat →
      Move targets (top :: rest, fields) (rest, fields ++ [⟨top.name, v⟩])
  | answer {top : FieldDescriptor} {rest : List FieldDescriptor} {fields : List FieldData}
      (size : UInt16) : top.externalSizeCalculation ≠ none →
      Move targets (top :: rest, fields)
        ({ top with size, externalSizeCalculation := none } :: rest, fields)
  | resize {fs : List FieldDescriptor} {fields : List FieldData} {name : Str} (size : UInt16) :
      targets.resized name →
      Move targets (fs, fields) (PacketDescriptor.update name ({ · with size := size }) fs, fields)
  | remove {fs : List FieldDescriptor} {fields : List FieldData} (name : Str) :
      targets.removed name → Move targets (fs, fields) (fs.eraseP (·.name == name), fields)

/-- The call completes a field that gives another one its size. -/
def Resizes (d : GenericDissector) (b : UInt8) (name : Str) : Prop :=
  name ≠ [] ∧ ∃ r top rest, Reached d b r top rest ∧ top.determinesSizeOf = name

/-- The call completes a field that can remove another one. -/
def Removes (d : GenericDissector) (b : UInt8) (name : Str) : Prop :=
  name ≠ [] ∧ ∃ r top rest, Reached d b r top rest ∧ top.sizeDeterminesExistenceOf = name

/-- The fields that the rules of the completed field can change. -/
def targetsOf (d : GenericDissector) (b : UInt8) : Targets := ⟨Resizes d b, Removes d b⟩

/-- No field is changed. -/
def noTargets : Targets := ⟨fun _ => False, fun _ => False⟩

section Moves

variable {d r : GenericDissector} {field : FieldDescriptor} {targets : Targets}

theorem skipEmpty_moves (fs : List FieldDescriptor) (packet : PacketData) :
    ReflTransGen (Move targets) (fs, packet.fields)
      ((skipEmpty fs packet).1, (skipEmpty fs packet).2.fields) := by
  induction fs generalizing packet with
  | nil => exact .refl
  | cons f fs ih =>
    unfold skipEmpty
    split
    · rename_i hz
      have hsize : f.size = 0 := by
        simp only [FieldDescriptor.isCertainlyZeroSized, Bool.and_eq_true, beq_iff_eq] at hz
        exact hz.2
      exact (ih (packet.add ⟨f.name, []⟩)).head (.deliver (by rw [hsize]; rfl))
    · exact .refl

theorem applySizeRule_moves
    (hf : field.determinesSizeOf ≠ [] → targets.resized field.determinesSizeOf)
    (h : d.applySizeRule field = .ok r) :
    ReflTransGen (Move targets) d.progress r.progress := by
  unfold applySizeRule at h
  split at h
  · cases h
    exact .refl
  · rename_i hne
    split at h
    · simp at h
    · split at h
      · simp at h
      · cases h
        exact .single (.resize _ (hf (by simpa using hne)))

theorem applyExistenceRule_moves
    (hf : field.sizeDeterminesExistenceOf ≠ [] → targets.removed field.sizeDeterminesExistenceOf)
    (h : d.applyExistenceRule field = .ok r) :
    ReflTransGen (Move targets) d.progress r.progress := by
  unfold applyExistenceRule at h
  split at h
  · cases h
    exact .refl
  · rename_i hne
    split at h
    · simp at h
    · split at h
      · unfold removeFieldFromStack at h
        split at h
        · cases h
          exact .single (.remove _ (hf (by simpa using hne)))
        · simp at h
      · cases h
        exact .refl

theorem progress_finish (d : GenericDissector) : d.finish.2.progress = d.progress := by
  unfold finish
  split <;> rfl

/-- What a completed field does after it was delivered. -/
theorem completed_moves {top : FieldDescriptor} {rest : List FieldDescriptor}
    (hr : top.determinesSizeOf ≠ [] → targets.resized top.determinesSizeOf)
    (hx : top.sizeDeterminesExistenceOf ≠ [] →
      targets.removed top.sizeDeterminesExistenceOf) :
    ReflTransGen (Move targets) (d.takeField top rest).progress
      (d.completed top rest).2.progress := by
  rw [completed_eq]
  cases h₁ : (d.takeField top rest).applySizeRule top with
  | error e => exact .refl
  | ok r₁ =>
    have hsize := applySizeRule_moves hr h₁
    simp only
    cases h₂ : r₁.applyExistenceRule top with
    | error e => exact hsize
    | ok r₂ =>
      simp only [progress_finish]
      exact (hsize.trans (applyExistenceRule_moves hx h₂)).trans (skipEmpty_moves _ _)

theorem calculateSize_moves (h : d.calculateSize = .ok (some r)) :
    ReflTransGen (Move targets) d.progress r.progress := by
  unfold calculateSize at h
  split at h
  · simp at h
  · rename_i top rest hs
    split at h
    · cases h
      exact .refl
    · rename_i callback hcb
      split at h
      · simp at h
      · simp only at h
        split at h
        · simp at h
        · split at h
          · simp at h
          · cases h
            rw [progress, hs]
            exact .single (.answer _ (by simp [hcb]))

theorem arrive_moves (d : GenericDissector) (b : UInt8) :
    ReflTransGen (Move targets) d.startPacket.progress (d.arrive b).progress := by
  unfold arrive skipEmptyTop
  have hpush : (d.startPacket.pushByte b).progress = d.startPacket.progress := rfl
  split
  · exact .refl
  · rename_i top rest hs
    split
    · rename_i hz
      have hsize : top.size = 0 := by
        simp only [FieldDescriptor.isCertainlyZeroSized, Bool.and_eq_true, beq_iff_eq] at hz
        exact hz.2
      rw [← hpush, progress, hs]
      exact .single (.deliver (by rw [hsize]; rfl))
    · exact .refl

/-- **A call is a sequence of moves**, from the packet that it starts or goes on with. -/
theorem addByte_moves (d : GenericDissector) (b : UInt8) :
    ReflTransGen (Move (targetsOf d b)) d.startPacket.progress (d.addByte b).2.progress := by
  have harr : ReflTransGen (Move (targetsOf d b)) d.startPacket.progress (d.arrive b).progress :=
    arrive_moves d b
  rw [addByte_eq]
  cases hc : (d.arrive b).calculateSize with
  | error e => exact harr
  | ok o =>
    cases o with
    | none => exact harr
    | some r =>
      simp only
      have hsize := harr.trans (calculateSize_moves hc)
      cases hs : r.currentPacketStack with
      | nil => exact absurd hs (calculateSize_frame hc).1
      | cons top rest =>
        rw [tryComplete_cons hs]
        split
        · rename_i hfull
          split
          · split <;> exact hsize
          · rename_i hh
            have hreached : Reached d b r top rest :=
              ⟨hc, hs, hfull, fun ht => by_contra fun hv => hh ⟨ht, hv⟩⟩
            have htake : Move (targetsOf d b) r.progress (r.takeField top rest).progress := by
              rw [progress, hs]
              exact .deliver hfull
            exact (hsize.tail htake).trans (completed_moves
              (fun hne => ⟨hne, r, top, rest, hreached, rfl⟩)
              fun hne => ⟨hne, r, top, rest, hreached, rfl⟩)
        · exact hsize

end Moves

/-! ## What moves keep -/

section Invariants

variable {targets : Targets} {p p' : Progress}

/-- A field after an update was there before, or is the updated field with the name. -/
theorem mem_update {name : Str} {change : FieldDescriptor → FieldDescriptor}
    {fs : List FieldDescriptor} {g : FieldDescriptor}
    (hg : g ∈ PacketDescriptor.update name change fs) :
    ∃ f ∈ fs, g = f ∨ f.name = name ∧ g = change f := by
  induction fs with
  | nil => exact absurd hg List.not_mem_nil
  | cons f fs ih =>
    rw [PacketDescriptor.update] at hg
    split at hg
    · rename_i hn
      rcases List.mem_cons.mp hg with h | h
      · exact ⟨f, .head _, .inr ⟨by simpa using hn, h⟩⟩
      · exact ⟨g, .tail _ h, .inl rfl⟩
    · rcases List.mem_cons.mp hg with h | h
      · exact ⟨f, .head _, .inl h⟩
      · obtain ⟨f', hf, hor⟩ := ih h
        exact ⟨f', .tail _ hf, hor⟩

/-- A property of the fields still to come, and one of the delivered fields. -/
structure FieldsSatisfy (Q : FieldDescriptor → Prop) (R : FieldData → Prop) (p : Progress) :
    Prop where
  coming : ∀ g ∈ p.1, Q g
  delivered : ∀ f ∈ p.2, R f

/-- The induction rule: what the moves of one field keep. -/
theorem FieldsSatisfy.moves {Q : FieldDescriptor → Prop} {R : FieldData → Prop}
    (hdeliver : ∀ g v, Q g → v.length = g.size.toNat → R ⟨g.name, v⟩)
    (hanswer : ∀ g size, Q g → g.externalSizeCalculation ≠ none →
      Q { g with size, externalSizeCalculation := none })
    (hresize : ∀ g size, Q g → targets.resized g.name → Q { g with size })
    (hp : FieldsSatisfy Q R p) (h : ReflTransGen (Move targets) p p') : FieldsSatisfy Q R p' := by
  induction h with
  | refl => exact hp
  | tail _ hm ih =>
    obtain ⟨hcoming, hdelivered⟩ := ih
    cases hm with
    | deliver hl =>
      rw [List.forall_mem_cons] at hcoming
      refine ⟨hcoming.2, ?_⟩
      rw [List.forall_mem_append]
      exact ⟨hdelivered, List.forall_mem_singleton.mpr (hdeliver _ _ hcoming.1 hl)⟩
    | answer size hcb =>
      rw [List.forall_mem_cons] at hcoming
      exact ⟨List.forall_mem_cons.mpr ⟨hanswer _ size hcoming.1 hcb, hcoming.2⟩, hdelivered⟩
    | @resize fs fields name size hname =>
      refine ⟨fun g hg => ?_, hdelivered⟩
      obtain ⟨f, hf, rfl | ⟨hn, rfl⟩⟩ := mem_update hg
      · exact hcoming g hf
      · exact hresize f size (hcoming f hf) (hn ▸ hname)
    | remove name _ => exact ⟨fun g hg => hcoming g (List.mem_of_mem_eraseP hg), hdelivered⟩

/-- The names of the delivered fields and of those still to come. -/
def fieldNames (p : Progress) : List Str := p.2.map (·.name) ++ p.1.map (·.name)

theorem fieldNames_moves (h : ReflTransGen (Move targets) p p') :
    (fieldNames p').Sublist (fieldNames p) := by
  induction h with
  | refl => exact .refl _
  | tail _ hm ih =>
    refine List.Sublist.trans ?_ ih
    cases hm with
    | deliver hl => simp [fieldNames]
    | answer size hcb => exact .refl _
    | resize size hname =>
      simp only [fieldNames]
      rw [map_name_update]
      exact fun f => rfl
    | remove name _ => exact (List.eraseP_sublist.map _).append_left _

/-- A delivered field stays. -/
theorem delivered_moves (h : ReflTransGen (Move targets) p p') : p.2 <+: p'.2 := by
  induction h with
  | refl => exact List.prefix_rfl
  | tail _ hm ih =>
    refine ih.trans ?_
    cases hm with
    | deliver hl => exact List.prefix_append _ _
    | _ => exact List.prefix_rfl

/-- No field comes back to the stack. -/
theorem coming_moves (h : ReflTransGen (Move targets) p p') :
    (p'.1.map (·.name)).Sublist (p.1.map (·.name)) := by
  induction h with
  | refl => exact .refl _
  | tail _ hm ih =>
    refine List.Sublist.trans ?_ ih
    cases hm with
    | @deliver top rest fields v hl => exact (List.sublist_cons_self top rest).map _
    | answer size hcb => exact .refl _
    | resize size hname =>
      simp only
      rw [map_name_update]
      exact fun f => rfl
    | remove name _ => exact List.eraseP_sublist.map _

/-- The size callbacks that are still to answer. -/
def pendingCallbacks (fs : List FieldDescriptor) : List SizeCalcCallback :=
  fs.filterMap (·.externalSizeCalculation)

theorem pendingCallbacks_update (name : Str) (size : UInt16) (fs : List FieldDescriptor) :
    pendingCallbacks (PacketDescriptor.update name ({ · with size := size }) fs) =
      pendingCallbacks fs := by
  induction fs with
  | nil => rfl
  | cons f fs ih =>
    rw [PacketDescriptor.update]
    split
    · rfl
    · simp only [pendingCallbacks, List.filterMap_cons] at ih ⊢
      rw [ih]

theorem pendingCallbacks_moves (h : ReflTransGen (Move targets) p p') :
    (pendingCallbacks p'.1).Sublist (pendingCallbacks p.1) := by
  induction h with
  | refl => exact .refl _
  | tail _ hm ih =>
    refine List.Sublist.trans ?_ ih
    cases hm with
    | @deliver top rest fields v hl => exact (List.sublist_cons_self top rest).filterMap _
    | @answer top rest fields size hcb => exact (List.sublist_cons_self top rest).filterMap _
    | resize size hname =>
      simp only [pendingCallbacks_update]
      exact .refl _
    | remove name _ => exact List.eraseP_sublist.filterMap _

end Invariants

section Calls

variable {d : GenericDissector}

/-- **Within a packet** no callback comes back. -/
theorem callbacks_addByte (hd : d.currentPacketStack ≠ []) (b : UInt8) :
    (pendingCallbacks (d.addByte b).2.currentPacketStack).Sublist
      (pendingCallbacks d.currentPacketStack) := by
  obtain ⟨top, rest, hs⟩ := List.exists_cons_of_ne_nil hd
  have := pendingCallbacks_moves (addByte_moves d b)
  rwa [startPacket_of_cons hs] at this

theorem callbacks_run {s : Bytes}
    (h : Along addByte (fun d _ => d.currentPacketStack ≠ []) d s) :
    (pendingCallbacks (after addByte d s).currentPacketStack).Sublist
      (pendingCallbacks d.currentPacketStack) := by
  induction s generalizing d with
  | nil => exact .refl _
  | cons b s ih => exact (ih h.2).trans (callbacks_addByte h.1 b)

/-- The fields of the packet in progress are fields of the template, in its order. -/
structure FromTemplate (t : PacketDescriptor) (d : GenericDissector) : Prop where
  template : d.packetTemplate = t
  names : (fieldNames d.progress).Sublist (t.fields.map (·.name))

namespace FromTemplate

variable {t : PacketDescriptor}

theorem make (t : PacketDescriptor) : FromTemplate t (make t) where
  template := rfl
  names := by simp [GenericDissector.make, newPacket, makePacketStack, progress, fieldNames]

theorem startPacket (hd : FromTemplate t d) :
    (fieldNames d.startPacket.progress).Sublist (t.fields.map (·.name)) := by
  unfold GenericDissector.startPacket
  split
  · rename_i he
    simp only [stackIsEmpty, Bool.and_eq_true, List.isEmpty_iff] at he
    simp [newPacket, makePacketStack, progress, fieldNames, he.1, hd.template]
  · exact hd.names

/-- Whatever the call ends with. -/
theorem addByte (hd : FromTemplate t d) (b : UInt8) : FromTemplate t (d.addByte b).2 where
  template := (packetTemplate_addByte d b).trans hd.template
  names := (fieldNames_moves (addByte_moves d b)).trans hd.startPacket

end FromTemplate

end Calls

end Protos

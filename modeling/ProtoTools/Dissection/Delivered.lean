import Mathlib.Data.List.Forall2
import Mathlib.Logic.Relation
import ProtoTools.Dissection.Chunks
import ProtoTools.Dissection.Streaming

/-!
# What a delivered packet consists of

For every template, with callbacks and repeated names, and for every run, also one that goes on
after exceptions.

* `Effect`: what a call does with the fields still to come, the fields delivered and the bytes of
  the field in progress. `addByte_effects`: a call is a sequence of these.
* `delivered_sublist`: no byte is made up, delivered twice or delivered out of order.
* `Fits`: a delivered field against the field of the template. `delivered_fits`: a delivered packet
  has a field for each field of the template that no rule can remove, in the order of the template.
-/

namespace Protos

open Machine GenericDissector Relation

/-! ## The effects of a call -/

/-- The fields still to come, the fields delivered and the bytes of the field in progress. -/
structure Contents where
  coming : List FieldDescriptor
  delivered : List FieldData
  buffer : Bytes

def GenericDissector.contents (d : GenericDissector) : Contents :=
  ⟨d.currentPacketStack, d.currentPacket.fields, d.currentMessageBuffer⟩

/-- What the rules of the completed field `top` make of the fields after it. -/
inductive RuledBy (top : FieldDescriptor) (rest : List FieldDescriptor) :
    List FieldDescriptor → Prop
  | none : RuledBy top rest rest
  | resize (size : UInt16) : top.determinesSizeOf ≠ [] → RuledBy top rest
      (PacketDescriptor.update top.determinesSizeOf ({ · with size := size }) rest)
  | remove {fs : List FieldDescriptor} : top.sizeDeterminesExistenceOf ≠ [] → RuledBy top rest fs →
      RuledBy top rest (fs.eraseP (·.name == top.sizeDeterminesExistenceOf))

inductive Effect : Contents → Contents → Prop
  | complete {top : FieldDescriptor} {rest fs : List FieldDescriptor} {ds : List FieldData}
      {buffer : Bytes} : buffer.length = top.size.toNat →
      (top.isHeaderValue = true → top.value = buffer) → RuledBy top rest fs →
      Effect ⟨top :: rest, ds, buffer⟩ ⟨fs, ds ++ [⟨top.name, buffer⟩], []⟩
  | skip {top : FieldDescriptor} {rest : List FieldDescriptor} {ds : List FieldData}
      {buffer : Bytes} : top.size = 0 →
      Effect ⟨top :: rest, ds, buffer⟩ ⟨rest, ds ++ [⟨top.name, []⟩], buffer⟩
  | answer {top : FieldDescriptor} {rest : List FieldDescriptor} {ds : List FieldData}
      {buffer : Bytes} (size : UInt16) (n : Nat) : top.externalSizeCalculation ≠ none →
      Effect ⟨top :: rest, ds, buffer⟩
        ⟨{ top with size, externalSizeCalculation := none } :: rest, ds, buffer.drop n⟩
  | shift {fs : List FieldDescriptor} {ds : List FieldData} {buffer : Bytes} :
      Effect ⟨fs, ds, buffer⟩ ⟨fs, ds, buffer.tail⟩

section Effects

variable {d r : GenericDissector} {top : FieldDescriptor} {rest : List FieldDescriptor}

theorem size_of_isCertainlyZeroSized {f : FieldDescriptor} (hz : f.isCertainlyZeroSized = true) :
    f.size = 0 := by
  simp only [FieldDescriptor.isCertainlyZeroSized, Bool.and_eq_true, beq_iff_eq] at hz
  exact hz.2

theorem skipEmpty_effects (fs : List FieldDescriptor) (packet : PacketData) (buffer : Bytes) :
    ReflTransGen Effect ⟨fs, packet.fields, buffer⟩
      ⟨(skipEmpty fs packet).1, (skipEmpty fs packet).2.fields, buffer⟩ := by
  induction fs generalizing packet with
  | nil => exact .refl
  | cons f fs ih =>
    unfold skipEmpty
    split
    · rename_i hz
      exact (ih (packet.add ⟨f.name, []⟩)).head (.skip (size_of_isCertainlyZeroSized hz))
    · exact .refl

theorem applySizeRule_ruled (h : d.applySizeRule top = .ok r) :
    ∃ fs, r = { d with currentPacketStack := fs } ∧ RuledBy top d.currentPacketStack fs := by
  unfold applySizeRule at h
  split at h
  · cases h
    exact ⟨_, rfl, .none⟩
  · rename_i hne
    split at h
    · cases h
    · split at h
      · cases h
      · cases h
        exact ⟨_, rfl, .resize _ (by simpa using hne)⟩

theorem applyExistenceRule_ruled {fs : List FieldDescriptor}
    (hfs : RuledBy top fs d.currentPacketStack) (h : d.applyExistenceRule top = .ok r) :
    ∃ fs', r = { d with currentPacketStack := fs' } ∧ RuledBy top fs fs' := by
  unfold applyExistenceRule at h
  split at h
  · cases h
    exact ⟨_, rfl, hfs⟩
  · rename_i hne
    split at h
    · cases h
    · split at h
      · unfold removeFieldFromStack at h
        split at h
        · cases h
          exact ⟨_, rfl, .remove (by simpa using hne) hfs⟩
        · cases h
      · cases h
        exact ⟨_, rfl, hfs⟩

/-- The buffer of a complete packet is empty already. -/
theorem contents_finish (hb : d.currentMessageBuffer = []) :
    d.finish.2.contents = d.contents := by
  unfold finish
  split
  · simp [contents, hb]
  · rfl

theorem completed_effects (hs : d.currentPacketStack = top :: rest)
    (hl : d.currentMessageBuffer.length = top.size.toNat)
    (hh : top.isHeaderValue = true → top.value = d.currentMessageBuffer) :
    ReflTransGen Effect d.contents (d.completed top rest).2.contents := by
  have htake : ∀ fs, RuledBy top rest fs → Effect d.contents
      { d.takeField top rest with currentPacketStack := fs }.contents := by
    intro fs hfs
    rw [contents, hs]
    exact .complete hl hh hfs
  rw [completed_eq]
  cases h₁ : (d.takeField top rest).applySizeRule top with
  | error e => exact .single (htake rest .none)
  | ok r₁ =>
    obtain ⟨fs, rfl, hfs⟩ := applySizeRule_ruled h₁
    simp only
    cases h₂ : applyExistenceRule { d.takeField top rest with currentPacketStack := fs } top with
    | error e => exact .single (htake fs hfs)
    | ok r₂ =>
      obtain ⟨fs', rfl, hfs'⟩ := applyExistenceRule_ruled hfs h₂
      simp only
      rw [contents_finish rfl]
      exact (skipEmpty_effects _ _ _).head (htake fs' hfs')

theorem calculateSize_effects (h : d.calculateSize = .ok (some r)) :
    ReflTransGen Effect d.contents r.contents := by
  unfold calculateSize at h
  split at h
  · cases h
  · rename_i top rest hs
    split at h
    · cases h
      exact .refl
    · rename_i callback hcb
      split at h
      · cases h
      · simp only at h
        split at h
        · cases h
        · split at h
          · cases h
          · cases h
            rw [contents, hs]
            exact .single (.answer _ _ (by simp [hcb]))

theorem arrive_effects (d : GenericDissector) (b : UInt8) :
    ReflTransGen Effect (d.startPacket.pushByte b).contents (d.arrive b).contents := by
  unfold arrive skipEmptyTop
  split
  · exact .refl
  · rename_i top rest hs
    split
    · rename_i hz
      rw [contents, hs]
      exact .single (.skip (size_of_isCertainlyZeroSized hz))
    · exact .refl

/-- **A call is a sequence of effects**, from the packet that it starts or goes on with and the
buffer with the new byte. -/
theorem addByte_effects (d : GenericDissector) (b : UInt8) :
    ReflTransGen Effect (d.startPacket.pushByte b).contents (d.addByte b).2.contents := by
  have harr := arrive_effects d b
  rw [addByte_eq]
  cases hc : (d.arrive b).calculateSize with
  | error e => exact harr
  | ok o =>
    cases o with
    | none => exact harr
    | some r =>
      simp only
      have hsize := harr.trans (calculateSize_effects hc)
      cases hs : r.currentPacketStack with
      | nil => exact absurd hs (calculateSize_frame hc).1
      | cons top rest =>
        rw [tryComplete_cons hs]
        split
        · rename_i hfull
          split
          · split
            · exact hsize
            · exact hsize.tail .shift
          · rename_i hh
            exact hsize.trans (completed_effects hs hfull fun ht => by_contra fun hv => hh ⟨ht, hv⟩)
        · exact hsize

/-- The packet that a call delivers is the one in progress, and nothing is left of it. -/
theorem addByte_delivers {b : UInt8} {p : PacketData} (h : (d.addByte b).1 = .ok (some p)) :
    (d.addByte b).2.contents = ⟨[], p.fields, []⟩ := by
  have hfin : ∀ {x : GenericDissector}, x.finish.1 = .ok (some p) →
      x.finish.2.contents = ⟨[], p.fields, []⟩ := by
    intro x hx
    unfold finish at hx ⊢
    split at hx
    · rename_i he
      cases hx
      rw [if_pos he]
      simp [contents, List.isEmpty_iff.mp (show x.currentPacketStack.isEmpty = true from he)]
    · cases hx
  rw [addByte_eq] at h ⊢
  cases hc : (d.arrive b).calculateSize with
  | error e => rw [hc] at h; cases h
  | ok o =>
    rw [hc] at h
    cases o with
    | none => cases h
    | some r =>
      simp only at h ⊢
      unfold tryComplete at h ⊢
      rcases hk : r.checkField with ⟨_ | ok, x⟩
      · rw [hk] at h; cases h
      · rw [hk] at h
        cases ok with
        | false => cases h
        | true => exact hfin h

end Effects

/-! ## The bytes -/

/-- The bytes of the packet in progress. -/
def Contents.bytes (c : Contents) : Bytes := encode c.delivered ++ c.buffer

/-- The bytes that a call can still deliver: none after a complete packet. -/
def GenericDissector.held (d : GenericDissector) : Bytes :=
  if d.stackIsEmpty && d.currentMessageBuffer.isEmpty then [] else d.contents.bytes

/-- The bytes of the packet that a call delivers. -/
def bytesOut : Except Fault (Option PacketData) → Bytes
  | .ok (some packet) => packetDataToBuffer packet
  | _ => []

section Held

variable {t : PacketDescriptor}

theorem Effect.bytes {c c' : Contents} (h : Effect c c') : c'.bytes.Sublist c.bytes := by
  cases h with
  | complete _ _ _ => simp [Contents.bytes]
  | skip _ => simp [Contents.bytes]
  | answer size n _ => exact (List.drop_sublist _ _).append_left _
  | shift => exact (List.tail_sublist _).append_left _

theorem bytes_effects {c c' : Contents} (h : ReflTransGen Effect c c') :
    c'.bytes.Sublist c.bytes := by
  induction h with
  | refl => exact .refl _
  | tail _ hc ih => exact hc.bytes.trans ih

theorem bytes_pushByte (d : GenericDissector) (b : UInt8) :
    (d.startPacket.pushByte b).contents.bytes = d.held ++ [b] := by
  unfold startPacket held
  split
  · rename_i he
    rw [Bool.and_eq_true] at he
    simp [Contents.bytes, contents, pushByte, newPacket, makePacketStack,
      List.isEmpty_iff.mp he.2]
  · simp [Contents.bytes, contents, pushByte]

/-- **One call** delivers no byte that it does not have. -/
theorem addByte_held (d : GenericDissector) (b : UInt8) :
    (bytesOut (d.addByte b).1 ++ (d.addByte b).2.held).Sublist (d.held ++ [b]) := by
  have hbytes := bytes_effects (addByte_effects d b)
  rw [bytes_pushByte] at hbytes
  cases ho : (d.addByte b).1 with
  | ok o =>
    cases o with
    | some p =>
      have hc := addByte_delivers ho
      have hstack : (d.addByte b).2.currentPacketStack = [] := congrArg Contents.coming hc
      have hbuffer : (d.addByte b).2.currentMessageBuffer = [] := congrArg Contents.buffer hc
      rw [hc] at hbytes
      simpa [held, stackIsEmpty, hstack, hbuffer, bytesOut, Contents.bytes, encode,
        packetDataToBuffer_eq] using hbytes
    | none =>
      unfold held
      split
      · exact List.nil_sublist _
      · exact hbytes
  | error e =>
    unfold held
    split
    · exact List.nil_sublist _
    · exact hbytes

end Held

/-- **No byte is made up, delivered twice or out of order.** Whatever the template and the bytes,
and whether calls throw or not, the bytes of the packets delivered so far, and those that are still
held, are among the bytes read, in their order. -/
theorem delivered_sublist (t : PacketDescriptor) (s : Bytes) :
    ((packetsOf (outputs addByte (make t) s)).flatMap packetDataToBuffer ++
      (after addByte (make t) s).held).Sublist s := by
  have hempty : (make t).held = [] := by
    unfold held
    split
    · rfl
    · simp [Contents.bytes, contents, make, newPacket, makePacketStack]
  have hpackets : ∀ os, (packetsOf os).flatMap packetDataToBuffer = os.flatMap bytesOut := by
    intro os
    induction os with
    | nil => rfl
    | cons o os ih =>
      rw [List.flatMap_cons, ← ih]
      rcases o with e | _ | p <;> rfl
  have hrun := outputs_sublist held (fun b => [b]) bytesOut addByte_held (make t) s
  rw [hempty, List.nil_append, List.flatMap_singleton'] at hrun
  rw [hpackets]
  exact hrun

/-! ## The fields -/

/-- A field of a packet can give `f` another size, or its callback can. -/
def Resizable (t : PacketDescriptor) (f : FieldDescriptor) : Prop :=
  f.externalSizeCalculation ≠ none ∨
    ∃ L ∈ t.fields, L.determinesSizeOf ≠ [] ∧ L.determinesSizeOf = f.name

/-- A field of a packet can remove `f`. -/
def Removable (t : PacketDescriptor) (f : FieldDescriptor) : Prop :=
  ∃ L ∈ t.fields, L.sizeDeterminesExistenceOf ≠ [] ∧ L.sizeDeterminesExistenceOf = f.name

instance (t : PacketDescriptor) (f : FieldDescriptor) : Decidable (Removable t f) := by
  unfold Removable
  infer_instance

/-- The fields that are in every packet. -/
def lasting (t : PacketDescriptor) : List FieldDescriptor :=
  t.fields.filter fun f => ¬ Removable t f

/-- The delivered field is one of the field `f` of the template. -/
structure Fits (t : PacketDescriptor) (f : FieldDescriptor) (d : FieldData) : Prop where
  name : d.name = f.name
  header : f.isHeaderValue = true → d.value ≠ [] → d.value = f.value
  size : ¬ Resizable t f → d.value.length = f.size.toNat

/-- The field `g` still to come is the field `f` of the template. -/
structure Coming (t : PacketDescriptor) (f g : FieldDescriptor) : Prop where
  name : g.name = f.name
  isHeader : g.isHeaderValue = f.isHeaderValue
  value : g.value = f.value
  sizes : g.determinesSizeOf = f.determinesSizeOf
  removes : g.sizeDeterminesExistenceOf = f.sizeDeterminesExistenceOf
  fixed : ¬ Resizable t f → g.size = f.size ∧ g.externalSizeCalculation = none

/-- The delivered fields and those still to come are fields of the template in its order, with all
fields that no rule can remove. -/
def Shaped (t : PacketDescriptor) (c : Contents) : Prop :=
  ∃ gone left, (gone ++ left).Sublist t.fields ∧ (lasting t).Sublist (gone ++ left) ∧
    List.Forall₂ (Fits t) gone c.delivered ∧ List.Forall₂ (Coming t) left c.coming

section Shape

variable {t : PacketDescriptor} {top f : FieldDescriptor} {rest fs left : List FieldDescriptor}

theorem coming_self (t : PacketDescriptor) (f : FieldDescriptor) : Coming t f f where
  name := rfl
  isHeader := rfl
  value := rfl
  sizes := rfl
  removes := rfl
  fixed h := ⟨rfl, by_contra fun hcb => h (.inl hcb)⟩

theorem Coming.resize {g : FieldDescriptor} (h : Coming t f g) (size : UInt16)
    (hf : Resizable t f) : Coming t f { g with size } :=
  { h with fixed := fun hno => absurd hf hno }

theorem Coming.answer {g : FieldDescriptor} (h : Coming t f g) (size : UInt16)
    (hcb : g.externalSizeCalculation ≠ none) :
    Coming t f { g with size, externalSizeCalculation := none } :=
  { h with fixed := fun hno => absurd (h.fixed hno).2 hcb }

/-- The first field with the name gets another size. -/
theorem forall₂_update {name : Str} (size : UInt16) (hname : ∀ f, f.name = name → Resizable t f)
    (h : List.Forall₂ (Coming t) left rest) : List.Forall₂ (Coming t) left
      (PacketDescriptor.update name ({ · with size := size }) rest) := by
  induction h with
  | nil => exact .nil
  | cons hp hps ih =>
    rw [PacketDescriptor.update]
    split
    · rename_i hn
      exact .cons (hp.resize size (hname _ (hp.name ▸ by simpa using hn))) hps
    · exact .cons hp ih

/-- The first field with the name is removed. -/
theorem forall₂_eraseP {name : Str} (h : List.Forall₂ (Coming t) left rest) :
    List.Forall₂ (Coming t) (left.eraseP (·.name == name)) (rest.eraseP (·.name == name)) := by
  induction h with
  | nil => exact .nil
  | @cons f g left rest hp hps ih =>
    by_cases hn : f.name = name
    · rw [List.eraseP_cons_of_pos (by simpa using hn),
        List.eraseP_cons_of_pos (by simpa [hp.name] using hn)]
      exact hps
    · rw [List.eraseP_cons_of_neg (by simpa using hn),
        List.eraseP_cons_of_neg (by simpa [hp.name] using hn)]
      exact .cons hp ih

/-- The removal of a field leaves those that no rule can remove. -/
theorem lasting_eraseP {gone : List FieldDescriptor} {name : Str}
    (hname : ∀ f, f.name = name → Removable t f) (h : (lasting t).Sublist (gone ++ left)) :
    (lasting t).Sublist (gone ++ left.eraseP (·.name == name)) := by
  have hkeep : ∀ fs : List FieldDescriptor, (fs.eraseP (·.name == name)).filter
      (fun f => ¬ Removable t f) = fs.filter fun f => ¬ Removable t f := by
    intro fs
    induction fs with
    | nil => rfl
    | cons g fs ih =>
      by_cases hn : g.name = name
      · rw [List.eraseP_cons_of_pos (by simpa using hn),
          List.filter_cons_of_neg (by simpa using hname g hn)]
      · rw [List.eraseP_cons_of_neg (by simpa using hn), List.filter_cons, List.filter_cons, ih]
  have hfilter := h.filter fun f => ¬ Removable t f
  rw [List.filter_append, ← hkeep left, ← List.filter_append] at hfilter
  rw [lasting, List.filter_filter] at hfilter
  simp only [Bool.and_self] at hfilter
  exact hfilter.trans List.filter_sublist

/-- The rules of a completed field keep the shape. -/
theorem shaped_ruled {gone : List FieldDescriptor} (hf : f ∈ t.fields)
    (hsizes : top.determinesSizeOf = f.determinesSizeOf)
    (hremoves : top.sizeDeterminesExistenceOf = f.sizeDeterminesExistenceOf)
    (hsub : (gone ++ left).Sublist t.fields) (hlast : (lasting t).Sublist (gone ++ left))
    (hleft : List.Forall₂ (Coming t) left rest) (hfs : RuledBy top rest fs) :
    ∃ left', (gone ++ left').Sublist t.fields ∧ (lasting t).Sublist (gone ++ left') ∧
      List.Forall₂ (Coming t) left' fs := by
  induction hfs with
  | none => exact ⟨left, hsub, hlast, hleft⟩
  | resize size hne =>
    refine ⟨left, hsub, hlast, forall₂_update size (fun g hg => .inr ⟨f, hf, ?_⟩) hleft⟩
    rw [← hsizes]
    exact ⟨hne, hg.symm⟩
  | remove hne _ ih =>
    obtain ⟨left', hsub', hlast', hleft'⟩ := ih
    refine ⟨left'.eraseP (·.name == top.sizeDeterminesExistenceOf),
      (List.eraseP_sublist.append_left _).trans hsub',
      lasting_eraseP (fun g hg => ⟨f, hf, ?_⟩) hlast', forall₂_eraseP hleft'⟩
    rw [← hremoves]
    exact ⟨hne, hg.symm⟩

theorem Effect.shaped {c c' : Contents} (h : Effect c c') (hc : Shaped t c) : Shaped t c' := by
  obtain ⟨gone, left, hsub, hlast, hgone, hleft⟩ := hc
  cases h with
  | @complete top rest fs ds buffer hl hh hfs =>
    cases hleft with
    | @cons f _ left _ hp hps =>
      have hf : f ∈ t.fields := hsub.subset (List.mem_append_right _ (.head _))
      rw [List.append_cons] at hsub hlast
      obtain ⟨left', hsub', hlast', hleft'⟩ :=
        shaped_ruled hf hp.sizes hp.removes hsub hlast hps hfs
      refine ⟨gone ++ [f], left', hsub', hlast', List.rel_append hgone (.cons ?_ .nil), hleft'⟩
      refine ⟨hp.name, fun hhead _ => ?_, fun hno => ?_⟩
      · rw [← hp.value]
        exact (hh (hp.isHeader ▸ hhead)).symm
      · rw [← (hp.fixed hno).1]
        exact hl
  | @skip top rest ds buffer hz =>
    cases hleft with
    | @cons f _ left _ hp hps =>
      rw [List.append_cons] at hsub hlast
      refine ⟨gone ++ [f], left, hsub, hlast, List.rel_append hgone (.cons ?_ .nil), hps⟩
      refine ⟨hp.name, fun _ hne => absurd rfl hne, fun hno => ?_⟩
      rw [← (hp.fixed hno).1, hz]
      rfl
  | answer size n hcb =>
    cases hleft with
    | cons hp hps => exact ⟨gone, _, hsub, hlast, hgone, .cons (hp.answer size hcb) hps⟩
  | shift => exact ⟨gone, left, hsub, hlast, hgone, hleft⟩

theorem shaped_effects {c c' : Contents} (h : ReflTransGen Effect c c') (hc : Shaped t c) :
    Shaped t c' := by
  induction h with
  | refl => exact hc
  | tail _ hstep ih => exact hstep.shaped ih

/-- A new packet. -/
theorem shaped_new (t : PacketDescriptor) (buffer : Bytes) : Shaped t ⟨t.fields, [], buffer⟩ :=
  ⟨[], t.fields, .refl _, List.filter_sublist, .nil,
    List.forall₂_same.mpr fun f _ => coming_self t f⟩

/-- **One call.** -/
theorem shaped_addByte {d : GenericDissector} (ht : d.packetTemplate = t)
    (hd : Shaped t d.contents) (b : UInt8) : Shaped t (d.addByte b).2.contents := by
  refine shaped_effects (addByte_effects d b) ?_
  unfold startPacket
  split
  · rename_i he
    rw [Bool.and_eq_true] at he
    have hstack : d.currentPacketStack = [] := List.isEmpty_iff.mp he.1
    simp only [contents, pushByte, newPacket, makePacketStack, hstack, ht, List.append_nil]
    exact shaped_new t _
  · obtain ⟨gone, left, hsub, hlast, hgone, hleft⟩ := hd
    exact ⟨gone, left, hsub, hlast, hgone, hleft⟩

end Shape

theorem shaped_run (t : PacketDescriptor) (s : Bytes) :
    Shaped t (after addByte (make t) s).contents := by
  induction s using List.reverseRecOn with
  | nil =>
    simp only [after_nil, contents, make, newPacket, makePacketStack, List.append_nil]
    exact shaped_new t []
  | append_singleton s b ih =>
    rw [after_append]
    have ht : (after addByte (make t) s).packetTemplate = t := packetTemplate_after s
    exact shaped_addByte ht ih b

/-- **What a delivered packet consists of.** Whatever the template and the bytes, and whether calls
throw or not, the fields of a delivered packet are those of the template in its order, without some
that a rule can remove: each with the name, with the value of a header, and with the size, where no
rule and no callback gives it another one. -/
theorem delivered_fits (t : PacketDescriptor) (s : Bytes) :
    ∀ p ∈ packetsOf (outputs addByte (make t) s),
      ∃ fs, fs.Sublist t.fields ∧ (lasting t).Sublist fs ∧ List.Forall₂ (Fits t) fs p.fields := by
  induction s using List.reverseRecOn with
  | nil => exact fun p hp => absurd hp List.not_mem_nil
  | append_singleton s b ih =>
    intro p hp
    rw [outputs_append, packetsOf_append, List.mem_append] at hp
    rcases hp with hp | hp
    · exact ih p hp
    · have ho : ((after addByte (make t) s).addByte b).1 = .ok (some p) := by
        rw [outputs_cons, outputs_nil] at hp
        cases h : ((after addByte (make t) s).addByte b).1 with
        | error e => rw [h] at hp; exact absurd hp List.not_mem_nil
        | ok o =>
          rw [h] at hp
          cases o with
          | none => exact absurd hp List.not_mem_nil
          | some q => rw [List.mem_singleton.mp hp]
      have hshape := shaped_run t (s ++ [b])
      rw [after_append, after_cons, after_nil, addByte_delivers ho] at hshape
      obtain ⟨gone, left, hsub, hlast, hgone, hleft⟩ := hshape
      cases hleft
      rw [List.append_nil] at hsub hlast
      exact ⟨gone, hsub, hlast, hgone⟩

/-- A kind that can be left out, behind a length whose field does not exist. -/
def faultyTemplate : PacketDescriptor where
  fields := [
    { name := lit "A", size := 1, sizeDeterminesExistenceOf := lit "B" },
    { name := lit "L", size := 1, determinesSizeOf := lit "X" },
    { name := lit "B", size := 2 },
    { name := lit "C", size := 1 }]

/-- The second call throws, and the packet goes on. -/
theorem delivered_fits_faulty : ∃ fs, fs.Sublist faultyTemplate.fields ∧
    (lasting faultyTemplate).Sublist fs ∧ List.Forall₂ (Fits faultyTemplate) fs
      [⟨lit "A", [0]⟩, ⟨lit "L", [1]⟩, ⟨lit "C", [9]⟩] := by
  have hrun : packetsOf (outputs addByte (make faultyTemplate) [0, 1, 9]) =
      [{ fields := [⟨lit "A", [0]⟩, ⟨lit "L", [1]⟩, ⟨lit "C", [9]⟩] }] := rfl
  exact delivered_fits faultyTemplate [0, 1, 9] _ (by rw [hrun]; exact List.mem_singleton.mpr rfl)

end Protos

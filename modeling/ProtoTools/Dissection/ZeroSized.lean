import Mathlib.Data.List.TakeWhile
import ProtoTools.Dissection.Moves

/-!
# Zero-sized fields

A template with more fields of size zero, against the template without them. The names that `fresh`
accepts are those of the fields to take away again.

* `erase`: a dissector without the fresh fields. The completion of a field commutes with it
  (`tryComplete_erase`).
* `leading`: the empty fields at the top. A call skips one of them only, and the field after them
  gets the bytes of all these calls.
* `Transparent`: the dissectors of the two templates, between two calls. `Transparent.addByte`: a
  call keeps it when the field after the empty ones has room for the bytes (`EmptyFit`).
* `empty_fields_transparent`: then the two dissectors deliver the same packets, up to the fresh
  fields.
-/

namespace Protos

open Machine GenericDissector Relation

/-! ## Lists -/

section Lists

variable {α : Type*} {keep p : α → Bool}

/-- To find an element that is kept. -/
theorem find_filter_of_keep {l : List α} (h : ∀ a, p a = true → keep a = true) :
    (l.filter keep).find? p = l.find? p := by
  rw [List.find?_filter]
  congr 1
  funext a
  cases hp : p a with
  | false => simp
  | true => simp [h a hp]

/-- To erase an element that is kept. -/
theorem eraseP_filter_of_keep {l : List α} (h : ∀ a, p a = true → keep a = true) :
    (l.filter keep).eraseP p = (l.eraseP p).filter keep := by
  induction l with
  | nil => rfl
  | cons a l ih =>
    cases hp : p a with
    | true => rw [List.filter_cons_of_pos (h a hp), List.eraseP_cons_of_pos hp,
        List.eraseP_cons_of_pos hp]
    | false =>
      rw [List.eraseP_cons_of_neg (by simp [hp])]
      cases hk : keep a with
      | true =>
        rw [List.filter_cons_of_pos hk, List.filter_cons_of_pos hk,
          List.eraseP_cons_of_neg (by simp [hp]), ih]
      | false =>
        rw [List.filter_cons_of_neg (by simp [hk]), List.filter_cons_of_neg (by simp [hk]), ih]

/-- To cut a list after elements that include all those that are not kept. -/
theorem dropWhile_filter_of_drop {l : List α} (h : ∀ a ∈ l, keep a = false → p a = true) :
    (l.filter keep).dropWhile p = (l.dropWhile p).filter keep ∧
      (l.filter keep).takeWhile p = (l.takeWhile p).filter keep := by
  induction l with
  | nil => exact ⟨rfl, rfl⟩
  | cons a l ih =>
    rw [List.forall_mem_cons] at h
    obtain ⟨h1, h2⟩ := ih h.2
    cases hp : p a with
    | true => cases hk : keep a <;> simp [hp, hk, h1, h2]
    | false =>
      have hk : keep a = true := by
        by_contra hne
        rw [h.1 (by simpa using hne)] at hp
        cases hp
      simp [hp, hk]

end Lists

/-! ## A dissector without the fresh fields -/

section Erase

variable (fresh : Str → Bool)

def eraseStack (fs : List FieldDescriptor) : List FieldDescriptor := fs.filter (!fresh ·.name)

def erasePacket (p : PacketData) : PacketData :=
  { p with fields := p.fields.filter (!fresh ·.name) }

def eraseTemplate (t : PacketDescriptor) : PacketDescriptor :=
  { t with fields := eraseStack fresh t.fields }

def erase (d : GenericDissector) : GenericDissector where
  currentPacketStack := eraseStack fresh d.currentPacketStack
  currentMessageBuffer := d.currentMessageBuffer
  currentPacket := erasePacket fresh d.currentPacket
  packetTemplate := eraseTemplate fresh d.packetTemplate

/-- A call without the fresh fields. -/
def eraseCalled (r : Called (Option PacketData)) : Called (Option PacketData) :=
  (r.1.map (Option.map (erasePacket fresh)), erase fresh r.2)

/-- The fresh fields are empty, no field refers to one, and there is no callback. -/
structure Inert (f : FieldDescriptor) : Prop where
  noCallback : f.externalSizeCalculation = none
  sizesKept : f.determinesSizeOf ≠ [] → fresh f.determinesSizeOf = false
  removesKept : f.sizeDeterminesExistenceOf ≠ [] → fresh f.sizeDeterminesExistenceOf = false
  empty : fresh f.name = true → f.size = 0

variable {fresh} {d r : GenericDissector} {field : FieldDescriptor}

theorem Inert.isCertainlyZeroSized {f : FieldDescriptor} (hf : Inert fresh f)
    (hn : fresh f.name = true) : f.isCertainlyZeroSized = true := by
  simp [FieldDescriptor.isCertainlyZeroSized, hf.noCallback, hf.empty hn]

theorem get_erase {p : PacketData} {name : Str} (hn : fresh name = false) :
    (erasePacket fresh p).get name = p.get name := by
  have hf : (p.fields.filter (!fresh ·.name)).find? (·.name == name) =
      p.fields.find? (·.name == name) :=
    find_filter_of_keep fun f hf => by rw [beq_iff_eq.mp hf, hn]; rfl
  rw [PacketData.get, PacketData.get, erasePacket, hf]

theorem find_eraseStack (fs : List FieldDescriptor) {name : Str} (hn : fresh name = false) :
    (eraseStack fresh fs).find? (·.name == name) = fs.find? (·.name == name) :=
  find_filter_of_keep fun f hf => by rw [beq_iff_eq.mp hf, hn]; rfl

theorem update_eraseStack {fs : List FieldDescriptor} {name : Str} (hn : fresh name = false)
    (size : UInt16) :
    PacketDescriptor.update name ({ · with size := size }) (eraseStack fresh fs) =
      eraseStack fresh (PacketDescriptor.update name ({ · with size := size }) fs) := by
  induction fs with
  | nil => rfl
  | cons f fs ih =>
    simp only [eraseStack] at ih ⊢
    rw [PacketDescriptor.update]
    by_cases hf : f.name = name
    · rw [if_pos (by simpa using hf), List.filter_cons_of_pos (by simp [hf, hn]),
        List.filter_cons_of_pos (by simp [hf, hn]), PacketDescriptor.update,
        if_pos (by simpa using hf)]
    · rw [if_neg (by simpa using hf)]
      cases hk : fresh f.name with
      | true =>
        rw [List.filter_cons_of_neg (by simp [hk]), List.filter_cons_of_neg (by simp [hk]), ih]
      | false =>
        rw [List.filter_cons_of_pos (by simp [hk]), List.filter_cons_of_pos (by simp [hk]),
          PacketDescriptor.update, if_neg (by simpa using hf), ih]

theorem getSizeFromFieldValue_erase (hn : fresh field.name = false) :
    (erase fresh d).getSizeFromFieldValue field = d.getSizeFromFieldValue field := by
  have hread : ∀ width, (erase fresh d).readSize field.name width =
      d.readSize field.name width := by
    intro width
    rw [readSize, readSize, erase, get_erase hn]
  unfold getSizeFromFieldValue
  split <;> first | exact hread _ | rfl

end Erase

/-! ## The calls without the fresh fields -/

section Calls

variable {fresh : Str → Bool} {d : GenericDissector} {field top : FieldDescriptor}
  {rest : List FieldDescriptor}

/-- All fields still to come are inert. -/
def AllInert (fresh : Str → Bool) (d : GenericDissector) : Prop :=
  ∀ g ∈ d.currentPacketStack, Inert fresh g

/-- The moves keep the fields inert, when they change no fresh one. -/
theorem inert_moves {targets : Targets} {p p' : Progress} (h : ReflTransGen (Move targets) p p')
    (hp : ∀ g ∈ p.1, Inert fresh g) (ht : ∀ name, targets.resized name → fresh name = false) :
    ∀ g ∈ p'.1, Inert fresh g := by
  have hall : FieldsSatisfy (Inert fresh) (fun _ => True) p := ⟨hp, fun _ _ => trivial⟩
  refine (hall.moves (fun _ _ _ _ => trivial) (fun g size hg hne => absurd hg.noCallback hne)
    (fun g size hg hname => ?_) h).coming
  exact ⟨hg.noCallback, hg.sizesKept, hg.removesKept,
    fun hf => absurd hf (by rw [ht g.name hname]; simp)⟩

theorem applySizeRule_erase (hf : Inert fresh field) (hn : fresh field.name = false) :
    (erase fresh d).applySizeRule field = (d.applySizeRule field).map (erase fresh) := by
  unfold applySizeRule
  by_cases hd : field.determinesSizeOf = []
  · rw [if_pos (by simp [hd]), if_pos (by simp [hd])]
    rfl
  · have hkept := hf.sizesKept hd
    have hfind : (erase fresh d).getFieldInStack field.determinesSizeOf =
        d.getFieldInStack field.determinesSizeOf := by
      rw [getFieldInStack, getFieldInStack, erase, find_eraseStack _ hkept]
    rw [if_neg (by simpa using hd), if_neg (by simpa using hd), hfind,
      getSizeFromFieldValue_erase hn]
    cases d.getFieldInStack field.determinesSizeOf with
    | error e => rfl
    | ok g =>
      cases d.getSizeFromFieldValue field with
      | error e => rfl
      | ok size =>
        simp only [Except.map, erase]
        rw [update_eraseStack hkept]

theorem applyExistenceRule_erase (hf : Inert fresh field) (hn : fresh field.name = false) :
    (erase fresh d).applyExistenceRule field =
      (d.applyExistenceRule field).map (erase fresh) := by
  unfold applyExistenceRule
  by_cases hd : field.sizeDeterminesExistenceOf = []
  · rw [if_pos (by simp [hd]), if_pos (by simp [hd])]
    rfl
  · have hkept := hf.removesKept hd
    rw [if_neg (by simpa using hd), if_neg (by simpa using hd), getSizeFromFieldValue_erase hn]
    cases d.getSizeFromFieldValue field with
    | error e => rfl
    | ok size =>
      simp only
      by_cases hz : size = 0
      · have hfind := find_eraseStack d.currentPacketStack hkept
        have herase : (eraseStack fresh d.currentPacketStack).eraseP
            (·.name == field.sizeDeterminesExistenceOf) =
            eraseStack fresh (d.currentPacketStack.eraseP
              (·.name == field.sizeDeterminesExistenceOf)) :=
          eraseP_filter_of_keep fun f hf => by rw [beq_iff_eq.mp hf, hkept]; rfl
        rw [if_pos hz, if_pos hz]
        simp only [removeFieldFromStack, erase, hfind, herase]
        cases d.currentPacketStack.find? (·.name == field.sizeDeterminesExistenceOf) <;> rfl
      · rw [if_neg hz, if_neg hz]
        rfl

/-- The empty fields at the top and the fields after them. -/
theorem emptyFields_erase (hd : AllInert fresh d) :
    (eraseStack fresh d.currentPacketStack).dropWhile (·.isCertainlyZeroSized) =
        eraseStack fresh (d.currentPacketStack.dropWhile (·.isCertainlyZeroSized)) ∧
      (eraseStack fresh d.currentPacketStack).takeWhile (·.isCertainlyZeroSized) =
        eraseStack fresh (d.currentPacketStack.takeWhile (·.isCertainlyZeroSized)) :=
  dropWhile_filter_of_drop fun g hg hn => (hd g hg).isCertainlyZeroSized (by simpa using hn)

theorem skipEmptyFields_erase (hd : AllInert fresh d) :
    (erase fresh d).skipEmptyFields = erase fresh d.skipEmptyFields := by
  obtain ⟨h1, h2⟩ := emptyFields_erase hd
  simp only [skipEmptyFields, skipEmpty_eq, erase, h1, h2]
  simp only [eraseStack, erasePacket, List.filter_append, List.filter_map]
  rfl

/-- A field after the empty ones is no fresh one. -/
theorem fresh_skipEmptyFields (hd : AllInert fresh d) :
    ∀ g ∈ d.skipEmptyFields.currentPacketStack.head?, fresh g.name = false := by
  intro g hg
  have hz := skipEmpty_head d.currentPacketStack d.currentPacket g hg
  have hmem : g ∈ d.currentPacketStack := by
    have hin := List.mem_of_mem_head? hg
    rw [skipEmptyFields, skipEmpty_eq] at hin
    exact (List.dropWhile_suffix _).subset hin
  by_contra hf
  rw [(hd g hmem).isCertainlyZeroSized (by simpa using hf)] at hz
  cases hz

/-- After the empty fields, the stack is empty with and without the fresh fields. -/
theorem stack_erase_eq_nil (hd : ∀ g ∈ d.currentPacketStack.head?, fresh g.name = false) :
    (erase fresh d).currentPacketStack = [] ↔ d.currentPacketStack = [] := by
  cases hs : d.currentPacketStack with
  | nil => simp [erase, eraseStack, hs]
  | cons g gs =>
    have hg := hd g (by rw [hs]; rfl)
    simp [erase, eraseStack, hs, hg]

theorem finish_erase (hd : ∀ g ∈ d.currentPacketStack.head?, fresh g.name = false) :
    (erase fresh d).finish = eraseCalled fresh d.finish := by
  have hempty := stack_erase_eq_nil hd
  unfold finish stackIsEmpty
  by_cases hs : d.currentPacketStack = []
  · rw [if_pos (List.isEmpty_iff.mpr (hempty.mpr hs)), if_pos (List.isEmpty_iff.mpr hs)]
    rfl
  · rw [if_neg fun h => hs (hempty.mp (List.isEmpty_iff.mp h)),
      if_neg fun h => hs (List.isEmpty_iff.mp h)]
    rfl

/-- The completion of a field that is kept. -/
theorem completed_erase (htop : Inert fresh top) (hn : fresh top.name = false)
    (hrest : ∀ g ∈ rest, Inert fresh g) :
    (erase fresh d).completed top (eraseStack fresh rest) =
      eraseCalled fresh (d.completed top rest) := by
  have htake : (erase fresh d).takeField top (eraseStack fresh rest) =
      erase fresh (d.takeField top rest) := by
    simp [takeField, erase, erasePacket, PacketData.add, hn]
  have hinert : AllInert fresh (d.takeField top rest) := hrest
  rw [completed_eq, completed_eq, htake, applySizeRule_erase htop hn]
  cases h₁ : (d.takeField top rest).applySizeRule top with
  | error e => rfl
  | ok r₁ =>
    have hsizes : ReflTransGen (Move ⟨(fresh · = false), fun _ => False⟩)
        (d.takeField top rest).progress r₁.progress := applySizeRule_moves htop.sizesKept h₁
    have hinert₁ : AllInert fresh r₁ := inert_moves hsizes hinert fun _ => id
    simp only [Except.map]
    rw [applyExistenceRule_erase htop hn]
    cases h₂ : r₁.applyExistenceRule top with
    | error e => rfl
    | ok r₂ =>
      have hremoves : ReflTransGen (Move ⟨fun _ => False, (fresh · = false)⟩)
          r₁.progress r₂.progress := applyExistenceRule_moves htop.removesKept h₂
      have hinert₂ : AllInert fresh r₂ := inert_moves hremoves hinert₁ fun _ => False.elim
      simp only [Except.map]
      rw [skipEmptyFields_erase hinert₂, finish_erase (fresh_skipEmptyFields hinert₂)]

/-- **The completion test** of a field that is kept. -/
theorem tryComplete_erase (hs : d.currentPacketStack = top :: rest) (hd : AllInert fresh d)
    (hn : fresh top.name = false) :
    (erase fresh d).tryComplete = eraseCalled fresh d.tryComplete := by
  have hinert : ∀ g ∈ top :: rest, Inert fresh g := hs ▸ hd
  rw [List.forall_mem_cons] at hinert
  have hs' : (erase fresh d).currentPacketStack = top :: eraseStack fresh rest := by
    simp [erase, eraseStack, hs, hn]
  have hbuf : (erase fresh d).currentMessageBuffer = d.currentMessageBuffer := rfl
  rw [tryComplete_cons hs, tryComplete_cons hs', hbuf, completed_erase hinert.1 hn hinert.2]
  split
  · split
    · split <;> rfl
    · rfl
  · rfl

end Calls

/-! ## Two dissectors side by side -/

/-- The number of empty fields at the top. -/
def leading (d : GenericDissector) : Nat :=
  (d.currentPacketStack.takeWhile (·.isCertainlyZeroSized)).length

/-- Empty fields at the top are followed by a field with room for the bytes in the buffer and one
for each of them. -/
def EmptyFit (d : GenericDissector) (_b : UInt8) : Prop :=
  leading d.startPacket ≠ 0 →
    ∃ g ∈ (d.startPacket.currentPacketStack.dropWhile (·.isCertainlyZeroSized)).head?,
      d.startPacket.currentMessageBuffer.length + leading d.startPacket ≤ g.size.toNat

instance (d : GenericDissector) (b : UInt8) : Decidable (EmptyFit d b) := by
  unfold EmptyFit; infer_instance

/-- The dissector `d` of the template without the fresh fields, and `d'` of the one with them: they
are the same after their empty fields, and `d'` is behind with them. -/
structure Transparent (fresh : Str → Bool) (d' d : GenericDissector) : Prop where
  same : (erase fresh d').skipEmptyFields = d.skipEmptyFields
  behind : leading d ≤ leading d'
  inert : AllInert fresh d'
  template : ∀ f ∈ d'.packetTemplate.fields, Inert fresh f

section Sides

variable {fresh : Str → Bool} {d d' : GenericDissector}

theorem leading_eq_zero : leading d = 0 ↔
    ∀ g ∈ d.currentPacketStack.head?, g.isCertainlyZeroSized = false := by
  cases hs : d.currentPacketStack with
  | nil => simp [leading, hs]
  | cons g gs => cases hg : g.isCertainlyZeroSized <;> simp [leading, hs, hg]

theorem leading_skipEmptyTop (d : GenericDissector) :
    leading d.skipEmptyTop = leading d - 1 := by
  unfold skipEmptyTop
  cases hs : d.currentPacketStack with
  | nil => simp [leading, hs]
  | cons g gs => cases hg : g.isCertainlyZeroSized <;> simp [leading, hs, hg]

theorem leading_erase (hd : AllInert fresh d) : leading (erase fresh d) ≤ leading d := by
  simp only [leading, erase, (emptyFields_erase hd).2]
  exact List.length_filter_le _ _

theorem skipEmptyFields_skipEmptyTop (d : GenericDissector) :
    d.skipEmptyTop.skipEmptyFields = d.skipEmptyFields := by
  unfold skipEmptyTop
  cases hs : d.currentPacketStack with
  | nil => rfl
  | cons g gs =>
    cases hg : g.isCertainlyZeroSized with
    | true => simp [skipEmptyFields, hs, skipEmpty, hg]
    | false => simp [hg]

theorem skipEmptyFields_of_leading (h : leading d = 0) : d.skipEmptyFields = d := by
  have htake := List.length_eq_zero_iff.mp h
  have hdrop := List.takeWhile_append_dropWhile (p := (·.isCertainlyZeroSized))
    (l := d.currentPacketStack)
  rw [htake, List.nil_append] at hdrop
  simp [skipEmptyFields, skipEmpty_eq, htake, hdrop]

/-- Without empty fields at the top, the one dissector is the other without the fresh fields. -/
theorem Transparent.eq_erase (h : Transparent fresh d' d) (hl : leading d' = 0) :
    d = erase fresh d' := by
  have hl1 : leading d = 0 := Nat.eq_zero_of_le_zero (hl ▸ h.behind)
  have hl2 : leading (erase fresh d') = 0 := Nat.eq_zero_of_le_zero (hl ▸ leading_erase h.inert)
  have := h.same
  rw [skipEmptyFields_of_leading hl1, skipEmptyFields_of_leading hl2] at this
  exact this.symm

theorem Transparent.of_erase (hd : AllInert fresh d')
    (ht : ∀ f ∈ d'.packetTemplate.fields, Inert fresh f) :
    Transparent fresh d' (erase fresh d') where
  same := rfl
  behind := leading_erase hd
  inert := hd
  template := ht

theorem Transparent.buffer (h : Transparent fresh d' d) :
    d'.currentMessageBuffer = d.currentMessageBuffer :=
  congrArg (·.currentMessageBuffer) h.same

theorem Transparent.packetTemplate (h : Transparent fresh d' d) :
    d.packetTemplate = eraseTemplate fresh d'.packetTemplate :=
  (congrArg (·.packetTemplate) h.same).symm

/-- The fields after the empty ones are the same. -/
theorem Transparent.dropWhile (h : Transparent fresh d' d) :
    eraseStack fresh (d'.currentPacketStack.dropWhile (·.isCertainlyZeroSized)) =
      d.currentPacketStack.dropWhile (·.isCertainlyZeroSized) := by
  have hsame := h.same
  rw [skipEmptyFields_erase h.inert] at hsame
  have := congrArg (·.currentPacketStack) hsame
  simpa only [skipEmptyFields, skipEmpty_eq, erase] using this

end Sides

/-! ## One call -/

section Call

variable {fresh : Str → Bool} {d d' : GenericDissector} {b : UInt8}

theorem inert_startPacket (hd : AllInert fresh d)
    (ht : ∀ f ∈ d.packetTemplate.fields, Inert fresh f) : AllInert fresh d.startPacket := by
  unfold startPacket
  split
  · rename_i he
    simp only [stackIsEmpty, Bool.and_eq_true, List.isEmpty_iff] at he
    simpa [AllInert, newPacket, makePacketStack, he.1] using ht
  · exact hd

/-- A field that a byte completes is inert. -/
theorem inert_reached (hd : AllInert fresh d)
    (ht : ∀ f ∈ d.packetTemplate.fields, Inert fresh f) {r : GenericDissector}
    {top : FieldDescriptor} {rest : List FieldDescriptor} (hr : Reached d b r top rest) :
    Inert fresh top := by
  have hmoves : ReflTransGen (Move noTargets) d.startPacket.progress r.progress :=
    (arrive_moves d b).trans (calculateSize_moves hr.size)
  have hinert : AllInert fresh r :=
    inert_moves hmoves (inert_startPacket hd ht) fun _ => False.elim
  exact hinert top (hr.stack ▸ .head _)

/-- Whatever the call ends with. -/
theorem inert_addByte (hd : AllInert fresh d)
    (ht : ∀ f ∈ d.packetTemplate.fields, Inert fresh f) (b : UInt8) :
    AllInert fresh (d.addByte b).2 := by
  apply inert_moves (addByte_moves d b) (inert_startPacket hd ht)
  intro name h
  obtain ⟨hne, r, top, rest, hr, rfl⟩ := h
  exact (inert_reached hd ht hr).sizesKept hne

theorem make_eraseTemplate (t : PacketDescriptor) :
    GenericDissector.make (eraseTemplate fresh t) = erase fresh (GenericDissector.make t) := by
  simp [GenericDissector.make, newPacket, makePacketStack, erase, eraseTemplate, erasePacket]

/-- Where the one dissector is at the end of a packet, the other is, too. -/
theorem Transparent.stack_eq_nil (h : Transparent fresh d' d) (hs' : d'.currentPacketStack = []) :
    d.currentPacketStack = [] := by
  have hdrop := h.dropWhile
  have hbehind := h.behind
  rw [hs'] at hdrop
  simp only [leading, hs', List.takeWhile_nil, List.length_nil, Nat.le_zero,
    List.length_eq_zero_iff] at hbehind
  rw [← List.takeWhile_append_dropWhile (p := (·.isCertainlyZeroSized))
    (l := d.currentPacketStack), hbehind, ← hdrop]
  rfl

/-- The other dissector starts no new packet early: a field comes after the empty ones. -/
theorem Transparent.stack_ne_nil (h : Transparent fresh d' d) (hfit : EmptyFit d' b)
    (hs' : d'.currentPacketStack ≠ []) : d.currentPacketStack ≠ [] := by
  intro hs
  have hdrop := h.dropWhile
  rw [hs, List.dropWhile_nil] at hdrop
  have hnil : d'.currentPacketStack.dropWhile (·.isCertainlyZeroSized) = [] := by
    have := (stack_erase_eq_nil (fresh_skipEmptyFields h.inert)).mp
    simp only [skipEmptyFields, skipEmpty_eq, erase] at this
    exact this hdrop
  have hlead : leading d' ≠ 0 := by
    intro hl
    apply hs'
    rw [← List.takeWhile_append_dropWhile (p := (·.isCertainlyZeroSized))
      (l := d'.currentPacketStack), List.length_eq_zero_iff.mp hl, hnil]
    rfl
  obtain ⟨top, rest, hcons⟩ := List.exists_cons_of_ne_nil hs'
  unfold EmptyFit at hfit
  rw [startPacket_of_cons hcons, hnil] at hfit
  obtain ⟨g, hg, -⟩ := hfit hlead
  cases hg

theorem Transparent.startPacket (h : Transparent fresh d' d) (hfit : EmptyFit d' b) :
    Transparent fresh d'.startPacket d.startPacket := by
  cases hs' : d'.currentPacketStack with
  | nil =>
    have hs := h.stack_eq_nil hs'
    by_cases hb : d'.currentMessageBuffer = []
    · rw [startPacket_of_empty hs' hb, startPacket_of_empty hs (h.buffer ▸ hb), h.packetTemplate,
        make_eraseTemplate]
      refine .of_erase ?_ h.template
      simpa [AllInert, GenericDissector.make, newPacket, makePacketStack] using h.template
    · have hb' : d.currentMessageBuffer ≠ [] := h.buffer ▸ hb
      rwa [GenericDissector.startPacket, if_neg (by simp [hb]), GenericDissector.startPacket,
        if_neg (by simp [hb'])]
  | cons top rest =>
    have hs := h.stack_ne_nil hfit (by simp [hs'])
    obtain ⟨top', rest', hs⟩ := List.exists_cons_of_ne_nil hs
    rwa [startPacket_of_cons hs', startPacket_of_cons hs]

theorem buffer_arrive (d : GenericDissector) (b : UInt8) :
    (d.arrive b).currentMessageBuffer = d.startPacket.currentMessageBuffer ++ [b] := by
  unfold arrive skipEmptyTop
  split
  · rfl
  · split <;> rfl

theorem leading_arrive (d : GenericDissector) (b : UInt8) :
    leading (d.arrive b) = leading d.startPacket - 1 := leading_skipEmptyTop _

theorem Transparent.arrive (h : Transparent fresh d' d) (hfit : EmptyFit d' b) :
    Transparent fresh (d'.arrive b) (d.arrive b) := by
  have hstart := h.startPacket hfit
  have hmoves : ReflTransGen (Move noTargets) d'.startPacket.progress (d'.arrive b).progress :=
    arrive_moves d' b
  have hinert : AllInert fresh (d'.arrive b) := inert_moves hmoves hstart.inert fun _ => False.elim
  have hflush : ∀ x : GenericDissector,
      (x.arrive b).skipEmptyFields = x.startPacket.skipEmptyFields.pushByte b := fun x =>
    skipEmptyFields_skipEmptyTop (x.startPacket.pushByte b)
  refine ⟨?_, ?_, hinert, by rw [packetTemplate_arrive]; exact h.template⟩
  · have hpush : erase fresh (d'.startPacket.skipEmptyFields.pushByte b) =
      (erase fresh d'.startPacket.skipEmptyFields).pushByte b := rfl
    rw [skipEmptyFields_erase hinert, hflush, hflush, hpush,
      ← skipEmptyFields_erase hstart.inert, hstart.same]
  · rw [leading_arrive, leading_arrive]
    exact Nat.sub_le_sub_right hstart.behind 1

/-- The top has no callback and another size than the buffer. -/
theorem addByte_of_ne {top : FieldDescriptor} {rest : List FieldDescriptor}
    (hs : (d.arrive b).currentPacketStack = top :: rest) (hc : top.externalSizeCalculation = none)
    (hl : (d.arrive b).currentMessageBuffer.length ≠ top.size.toNat) :
    d.addByte b = (.ok none, d.arrive b) := by
  rw [addByte_eq, calculateSize_of_none hs hc]
  simp only
  rw [tryComplete_cons hs, if_neg hl]

/-- Another empty field is at the top: the byte waits. -/
theorem addByte_of_leading (h : leading (d.arrive b) ≠ 0) :
    d.addByte b = (.ok none, d.arrive b) := by
  rw [Ne, leading_eq_zero] at h
  push Not at h
  obtain ⟨g, hg, hz⟩ := h
  obtain ⟨gs, hs⟩ := List.head?_eq_some_iff.mp hg
  simp only [FieldDescriptor.isCertainlyZeroSized, ne_eq, Bool.not_eq_false, Bool.and_eq_true,
    Option.isNone_iff_eq_none, beq_iff_eq] at hz
  apply addByte_of_ne hs hz.1
  rw [hz.2, buffer_arrive]
  simp

/-- The last empty field is skipped: the top is the field after it. -/
theorem stack_arrive_of_leading (h : leading (d.arrive b) = 0) :
    (d.arrive b).currentPacketStack =
      d.startPacket.currentPacketStack.dropWhile (·.isCertainlyZeroSized) := by
  have hflush := skipEmptyFields_skipEmptyTop (d.startPacket.pushByte b)
  have harr := skipEmptyFields_of_leading h
  rw [arrive, hflush] at harr
  rw [arrive, ← harr, skipEmptyFields, skipEmpty_eq]
  rfl

/-- More empty fields are to come: both dissectors wait. -/
theorem Transparent.addByte_waits (h : Transparent fresh d' d) (hfit : EmptyFit d' b)
    (hl : leading (d'.arrive b) ≠ 0) :
    d'.addByte b = (.ok none, d'.arrive b) ∧ d.addByte b = (.ok none, d.arrive b) := by
  refine ⟨addByte_of_leading hl, ?_⟩
  by_cases hld : leading (d.arrive b) = 0
  · have hstart := h.startPacket hfit
    rw [leading_arrive] at hl
    obtain ⟨g, hg, hroom⟩ := hfit (by omega)
    have htop := stack_arrive_of_leading hld
    obtain ⟨gs, hgs⟩ := List.head?_eq_some_iff.mp hg
    have hmem : g ∈ d'.startPacket.currentPacketStack :=
      (List.dropWhile_suffix _).subset (by rw [hgs]; exact .head _)
    have hkeep : fresh g.name = false := by
      apply fresh_skipEmptyFields hstart.inert g
      rw [skipEmptyFields, skipEmpty_eq]
      exact hg
    -- the field after the empty ones is the top of the other dissector
    rw [← hstart.dropWhile, hgs, eraseStack, List.filter_cons_of_pos (by simp [hkeep])] at htop
    apply addByte_of_ne htop (hstart.inert g hmem).noCallback
    rw [buffer_arrive, List.length_append, List.length_singleton, ← hstart.buffer]
    omega
  · exact addByte_of_leading hld

/-- **One call**: the same answer, without the fresh fields. -/
theorem Transparent.addByte (h : Transparent fresh d' d) (hfit : EmptyFit d' b) :
    (d.addByte b).1 = (d'.addByte b).1.map (Option.map (erasePacket fresh)) ∧
      Transparent fresh (d'.addByte b).2 (d.addByte b).2 := by
  have harr := h.arrive hfit
  by_cases hl : leading (d'.arrive b) = 0
  · -- no empty field is left: the dissectors are the same without the fresh fields
    have heq := harr.eq_erase hl
    have hcall : d.addByte b = eraseCalled fresh (d'.addByte b) := by
      rw [addByte_eq, addByte_eq, heq]
      cases hs : (d'.arrive b).currentPacketStack with
      | nil =>
        have hs' : (erase fresh (d'.arrive b)).currentPacketStack = [] := by
          rw [erase, hs]
          rfl
        simp only [calculateSize, hs, hs']
        rfl
      | cons top rest =>
        have hinert := harr.inert top (hs ▸ .head _)
        have hkeep : fresh top.name = false := by
          have hz := leading_eq_zero.mp hl top (by rw [hs]; rfl)
          by_contra hf
          rw [hinert.isCertainlyZeroSized (by simpa using hf)] at hz
          cases hz
        have hs' : (erase fresh (d'.arrive b)).currentPacketStack =
            top :: eraseStack fresh rest := by
          simp [erase, eraseStack, hs, hkeep]
        rw [calculateSize_of_none hs hinert.noCallback,
          calculateSize_of_none hs' hinert.noCallback]
        exact tryComplete_erase hs harr.inert hkeep
    rw [hcall]
    refine ⟨rfl, .of_erase (inert_addByte h.inert h.template b) ?_⟩
    rw [packetTemplate_addByte]
    exact h.template
  · obtain ⟨h1, h2⟩ := h.addByte_waits hfit hl
    rw [h1, h2]
    exact ⟨rfl, harr⟩

end Call

/-! ## The fresh fields -/

section Fresh

variable {fresh : Str → Bool} {d : GenericDissector} {t : PacketDescriptor}

/-- The fresh fields: those delivered, and those still to come as they will be delivered. -/
def freshFields (fresh : Str → Bool) (p : Progress) : List FieldData :=
  p.2.filter (fresh ·.name) ++ (p.1.filter (fresh ·.name)).map fun f => ⟨f.name, []⟩

theorem filter_eraseP_of_drop {α : Type*} {keep p : α → Bool} {l : List α}
    (h : ∀ a, p a = true → keep a = false) : (l.eraseP p).filter keep = l.filter keep := by
  induction l with
  | nil => rfl
  | cons a l ih =>
    cases hp : p a with
    | true => rw [List.eraseP_cons_of_pos hp, List.filter_cons_of_neg (by simp [h a hp])]
    | false =>
      rw [List.eraseP_cons_of_neg (by simp [hp])]
      cases hk : keep a <;> simp [hk, ih]

/-- The moves deliver the fresh fields empty and in order, and never lose one. -/
theorem freshFields_moves {targets : Targets} {p p' : Progress}
    (h : ReflTransGen (Move targets) p p') (hp : ∀ g ∈ p.1, Inert fresh g)
    (hresized : ∀ name, targets.resized name → fresh name = false)
    (hremoved : ∀ name, targets.removed name → fresh name = false) :
    freshFields fresh p' = freshFields fresh p := by
  induction h with
  | refl => rfl
  | tail hab hm ih =>
    have hinert := inert_moves hab hp hresized
    rw [← ih]
    cases hm with
    | @deliver top rest fields v hl =>
      cases hf : fresh top.name with
      | false => simp [freshFields, hf]
      | true =>
        have hv : v = [] := by
          rw [(hinert top (.head _)).empty hf] at hl
          exact List.length_eq_zero_iff.mp hl
        simp [freshFields, hf, hv]
    | @answer top rest fields size hcb => exact absurd (hinert top (.head _)).noCallback hcb
    | @resize fs fields name size hname =>
      have hmap : ∀ gs : List FieldDescriptor,
          (gs.filter (fresh ·.name)).map (fun f => (⟨f.name, []⟩ : FieldData)) =
            ((gs.map (·.name)).filter fresh).map (⟨·, []⟩) := by
        intro gs
        rw [List.filter_map, List.map_map]
        rfl
      simp only [freshFields, hmap]
      rw [map_name_update]
      exact fun f => rfl
    | remove name hname =>
      have hkeep := hremoved name hname
      simp only [freshFields]
      rw [filter_eraseP_of_drop fun f hf => by rw [beq_iff_eq.mp hf, hkeep]]

/-- The dissector of an inert template: every fresh field is delivered or still to come. -/
structure Carries (fresh : Str → Bool) (t : PacketDescriptor) (d : GenericDissector) : Prop where
  inert : AllInert fresh d
  carries : freshFields fresh d.progress =
    (t.fields.filter (fresh ·.name)).map fun f => ⟨f.name, []⟩
  fromTemplate : FromTemplate t d

theorem Carries.make (ht : ∀ f ∈ t.fields, Inert fresh f) : Carries fresh t (make t) where
  inert := by simpa [AllInert, GenericDissector.make, newPacket, makePacketStack] using ht
  carries := by simp [GenericDissector.make, newPacket, makePacketStack, progress, freshFields]
  fromTemplate := .make t

theorem Carries.startPacket (hd : Carries fresh t d) :
    freshFields fresh d.startPacket.progress =
      (t.fields.filter (fresh ·.name)).map fun f => ⟨f.name, []⟩ := by
  unfold GenericDissector.startPacket
  split
  · rename_i he
    simp only [stackIsEmpty, Bool.and_eq_true, List.isEmpty_iff] at he
    simp [newPacket, makePacketStack, progress, freshFields, he.1, hd.fromTemplate.template]
  · exact hd.carries

theorem Carries.addByte (ht : ∀ f ∈ t.fields, Inert fresh f) (hd : Carries fresh t d)
    (b : UInt8) : Carries fresh t (d.addByte b).2 where
  inert := inert_addByte hd.inert (by rw [hd.fromTemplate.template]; exact ht) b
  carries := by
    have htemplate : ∀ f ∈ d.packetTemplate.fields, Inert fresh f := by
      rw [hd.fromTemplate.template]
      exact ht
    have htop := fun {r top rest} (hr : Reached d b r top rest) =>
      inert_reached hd.inert htemplate hr
    rw [freshFields_moves (addByte_moves d b) (inert_startPacket hd.inert htemplate)]
    · exact hd.startPacket
    · rintro name ⟨hne, r, top, rest, hr, rfl⟩
      exact (htop hr).sizesKept hne
    · rintro name ⟨hne, r, top, rest, hr, rfl⟩
      exact (htop hr).removesKept hne
  fromTemplate := hd.fromTemplate.addByte b

/-- A delivered packet has all fresh fields, empty and in order. -/
structure HasFresh (fresh : Str → Bool) (t : PacketDescriptor) (packet : PacketData) : Prop where
  fresh : packet.fields.filter (fresh ·.name) =
    (t.fields.filter (fresh ·.name)).map fun f => ⟨f.name, []⟩
  order : (packet.fields.map (·.name)).Sublist (t.fields.map (·.name))

theorem Carries.delivered (hd : Carries fresh t d) {d₀ : GenericDissector} {b : UInt8}
    {packet : PacketData} (h : d₀.addByte b = (.ok (some packet), d)) :
    HasFresh fresh t packet := by
  obtain ⟨hs, -, rfl⟩ := addByte_some h
  have hcarries := hd.carries
  have hnames := hd.fromTemplate.names
  simp only [progress, hs, freshFields, fieldNames, List.filter_nil, List.map_nil,
    List.append_nil] at hcarries hnames
  exact ⟨hcarries, hnames⟩

end Fresh

/-! ## Runs -/

/-- The template `t'` is `t` with zero-sized fields inserted: their names are fresh, no field refers
to one, and there are no callbacks. -/
structure Inserts (fresh : Str → Bool) (t t' : PacketDescriptor) : Prop where
  erased : eraseTemplate fresh t' = t
  inert : ∀ f ∈ t'.fields, Inert fresh f

/-- **When zero-sized fields are transparent.** In every run in which the field after the empty ones
at the top always has room for the bytes that they take, the dissector with the inserted fields
delivers at the same bytes the same packets, with all inserted fields in place. -/
theorem empty_fields_transparent {fresh : Str → Bool} {t t' : PacketDescriptor}
    (hi : Inserts fresh t t') {s : Bytes} (hfit : Along addByte EmptyFit (make t') s) :
    outputs addByte (make t) s =
        (outputs addByte (make t') s).map (Except.map (Option.map (erasePacket fresh))) ∧
      Along addByte (fun d b => ∀ packet, (d.addByte b).1 = .ok (some packet) →
        HasFresh fresh t' packet) (make t') s := by
  constructor
  · have hstart : Transparent fresh (make t') (make t) := by
      rw [← hi.erased, make_eraseTemplate]
      exact .of_erase (Carries.make hi.inert).inert hi.inert
    exact (Along.simulation (fun d' d b h hb => h.addByte hb) hstart hfit).1
  · refine (hfit.mono_inv (I := Carries fresh t') (fun d b hd _ => ?_)
      (Carries.make hi.inert)).1
    have hnext := hd.addByte hi.inert b
    exact ⟨fun packet hp => hnext.delivered (Prod.ext hp rfl), hnext⟩

/-- A field of one byte. -/
def oneFieldTemplate : PacketDescriptor where
  fields := [{ name := lit "A", size := 1 }]

/-- The field of one byte, with empty fields in front of it and one after it. -/
def paddedTemplate (front : List Str) : PacketDescriptor where
  fields := front.map (fun name => { name }) ++
    [{ name := lit "A", size := 1 }, { name := lit "Z" }]

/-- The inserted fields. -/
def isPadding (name : Str) : Bool := name != lit "A"

theorem inserts_padding {front : List Str} (hfront : ∀ name ∈ front, isPadding name = true) :
    Inserts isPadding oneFieldTemplate (paddedTemplate front) where
  erased := by
    have hz : isPadding (lit "Z") = true := by decide
    have ha : isPadding (lit "A") = false := by decide
    simpa [eraseTemplate, eraseStack, paddedTemplate, oneFieldTemplate, hz, ha] using hfront
  inert := by
    have ha : isPadding (lit "A") = false := by decide
    intro f hf
    simp only [paddedTemplate, List.mem_append, List.mem_map, List.mem_cons, List.not_mem_nil,
      or_false] at hf
    rcases hf with ⟨name, -, rfl⟩ | rfl | rfl
    · exact ⟨rfl, fun h => absurd rfl h, fun h => absurd rfl h, fun _ => rfl⟩
    · exact ⟨rfl, fun h => absurd rfl h, fun h => absurd rfl h, fun h => by simp [ha] at h⟩
    · exact ⟨rfl, fun h => absurd rfl h, fun h => absurd rfl h, fun _ => rfl⟩

/-- Two empty fields in front of a field of one byte: no byte ever completes it. -/
theorem two_empty_fields_in_front : ¬ ∀ fresh t t', Inserts fresh t t' →
    (t'.fields.map (·.name)).Nodup → (∀ f ∈ t.fields, f.isHeaderValue = false) →
    (∃ f fs, t.fields = f :: fs ∧ f.size ≠ 0) → ∀ s,
      outputs addByte (make t) s =
        (outputs addByte (make t') s).map (Except.map (Option.map (erasePacket fresh))) := by
  intro h
  have hout := h isPadding oneFieldTemplate (paddedTemplate [lit "X", lit "Y"])
    (inserts_padding (by decide)) (by decide) (by simp [oneFieldTemplate]) ⟨_, _, rfl, by decide⟩
    [0]
  cases hout

/-- One empty field in front of a field of one byte, and two packets. -/
theorem empty_fields_transparent_padded :
    outputs addByte (make oneFieldTemplate) [4, 5] =
        (outputs addByte (make (paddedTemplate [lit "X"])) [4, 5]).map
          (Except.map (Option.map (erasePacket isPadding))) ∧
      Along addByte (fun d b => ∀ packet, (d.addByte b).1 = .ok (some packet) →
        HasFresh isPadding (paddedTemplate [lit "X"]) packet)
        (make (paddedTemplate [lit "X"])) [4, 5] :=
  empty_fields_transparent (inserts_padding (by decide)) ⟨by decide, by decide, trivial⟩

end Protos

import ProtoTools.Dissection.Step

/-!
# Fields that describe their own size

A size callback replaces the size of the field at the top while bytes of it are in the buffer.
The completion test is an equality, so a buffer longer than the size never completes.

* `CanComplete d`: the field at the top, once its size is known, needs more bytes.
* `Overtakes d b`: with this byte the callback answers with a size less than what it leaves in the
  buffer.
* `Ready.addByte`: a call keeps `CanComplete` exactly when the callback does not overtake.
* `never_wedged_iff`: in a run, every call that returns `nullopt` leaves a field that can complete
  exactly when no callback overtakes.
-/

namespace Protos

open Machine GenericDissector

/-- Unless its callback is pending, the field at the top needs more bytes. -/
def CanComplete (d : GenericDissector) : Prop :=
  ∀ top ∈ d.currentPacketStack.head?, top.externalSizeCalculation = none →
    d.currentMessageBuffer.length < top.size.toNat

/-- The callback of the top, called with this byte, leaves more bytes than the size it answers. -/
def Overtakes (d : GenericDissector) (b : UInt8) : Prop :=
  ∃ top ∈ (d.arrive b).currentPacketStack.head?, ∃ callback ∈ top.externalSizeCalculation,
    top.size.toNat ≤ (d.arrive b).currentMessageBuffer.length ∧
    (callback top.toFieldSpec (d.arrive b).currentMessageBuffer).needMoreBytes = false ∧
    (callback top.toFieldSpec (d.arrive b).currentMessageBuffer).bytesConsumed.toNat +
        (callback top.toFieldSpec (d.arrive b).currentMessageBuffer).resultValue.toNat <
      (d.arrive b).currentMessageBuffer.length

instance (d : GenericDissector) : Decidable (CanComplete d) := by
  unfold CanComplete; infer_instance

instance (d : GenericDissector) (b : UInt8) : Decidable (Overtakes d b) := by
  unfold Overtakes; infer_instance

/-- The first field of the template takes a byte: it has a size or a size callback. -/
def FirstTakesByte (t : PacketDescriptor) : Prop :=
  ∃ f fs, t.fields = f :: fs ∧ (f.size ≠ 0 ∨ f.externalSizeCalculation ≠ none)

/-- No callback consumes more bytes than there are. -/
def ConsumesAvailable (t : PacketDescriptor) : Prop :=
  ∀ f ∈ t.fields, ∀ callback ∈ f.externalSizeCalculation, ∀ spec bytes,
    (callback spec bytes).bytesConsumed.toNat ≤ bytes.length

/-- Ready for a byte: no packet is in progress, or its top field can complete. -/
def Ready (t : PacketDescriptor) (d : GenericDissector) : Prop :=
  d.packetTemplate = t ∧ (d.currentPacketStack = [] → d.currentMessageBuffer = []) ∧ CanComplete d

section Step

variable {d d' : GenericDissector} {top : FieldDescriptor} {rest : List FieldDescriptor}

theorem canComplete_cons (hs : d.currentPacketStack = top :: rest) :
    CanComplete d ↔ (top.externalSizeCalculation = none →
      d.currentMessageBuffer.length < top.size.toNat) := by
  simp [CanComplete, hs]

theorem canComplete_skipEmptyFields (hb : d.currentMessageBuffer = []) :
    CanComplete d.skipEmptyFields := by
  intro top htop hc
  have hz := skipEmpty_head d.currentPacketStack d.currentPacket top htop
  have hsize : top.size ≠ 0 := by
    rintro e
    simp [FieldDescriptor.isCertainlyZeroSized, hc, e] at hz
  rw [show d.skipEmptyFields.currentMessageBuffer = [] from hb]
  exact Nat.pos_of_ne_zero fun e => hsize (UInt16.toNat_inj.mp e)

/-- A completed field without failure leaves a field that can complete, or no field. -/
theorem completed_ready {r : Option PacketData} (h : d.completed top rest = (.ok r, d')) :
    (d'.currentPacketStack = [] → d'.currentMessageBuffer = []) ∧ CanComplete d' := by
  have hfin : ∀ x : GenericDissector, x.currentMessageBuffer = [] →
      x.skipEmptyFields.finish = (.ok r, d') →
      (d'.currentPacketStack = [] → d'.currentMessageBuffer = []) ∧ CanComplete d' := by
    intro x hx hf
    have hbuf : x.skipEmptyFields.currentMessageBuffer = [] := hx
    unfold finish at hf
    split at hf
    · cases hf
      rename_i he
      refine ⟨fun _ => rfl, fun top htop => ?_⟩
      simp [List.isEmpty_iff.mp he] at htop
    · cases hf
      exact ⟨fun _ => hbuf, canComplete_skipEmptyFields hx⟩
  rw [completed_eq] at h
  split at h
  · simp at h
  · rename_i r₁ h₁
    obtain ⟨fs₁, rfl, -⟩ := applySizeRule_frame h₁
    split at h
    · simp at h
    · rename_i r₂ h₂
      obtain ⟨fs₂, rfl⟩ := applyExistenceRule_frame h₂
      exact hfin _ rfl h

/-- The completion test of a field with as many bytes as its size says, or fewer. -/
theorem tryComplete_ready {r : Option PacketData} (hs : d.currentPacketStack = top :: rest)
    (hlen : d.currentMessageBuffer.length ≤ top.size.toNat)
    (h : d.tryComplete = (.ok r, d')) :
    (d'.currentPacketStack = [] → d'.currentMessageBuffer = []) ∧ CanComplete d' := by
  rw [tryComplete_cons hs] at h
  split at h
  · rename_i heq
    split at h
    · split at h
      · simp at h
      · rename_i hne
        cases h
        have hpos := List.length_pos_iff.mpr hne
        refine ⟨fun he => by simp [hs] at he, fun top' htop' _ => ?_⟩
        simp only [hs, List.head?_cons, Option.mem_some_iff] at htop'
        subst htop'
        rw [List.length_tail]
        omega
    · exact completed_ready h
  · cases h
    exact ⟨fun he => by simp [hs] at he, (canComplete_cons hs).mpr fun _ => by omega⟩

/-- The field at the top with the answer of its callback. -/
def answeredTop (d : GenericDissector) (top : FieldDescriptor) (callback : SizeCalcCallback) :
    FieldDescriptor :=
  { top with
    size := (callback top.toFieldSpec d.currentMessageBuffer).resultValue
    externalSizeCalculation := none }

/-- The dissector with the answer of the callback. -/
def answered (d : GenericDissector) (top : FieldDescriptor) (rest : List FieldDescriptor)
    (callback : SizeCalcCallback) : GenericDissector :=
  { d with
    currentPacketStack := answeredTop d top callback :: rest
    currentMessageBuffer := d.currentMessageBuffer.drop
      (callback top.toFieldSpec d.currentMessageBuffer).bytesConsumed.toNat }

/-- The callback of the top is still pending, or it has answered. -/
theorem calculateSize_callback {callback : SizeCalcCallback} {o : Option GenericDissector}
    (hs : d.currentPacketStack = top :: rest) (hcb : top.externalSizeCalculation = some callback)
    (h : d.calculateSize = .ok o) :
    o = none ∧ (d.currentMessageBuffer.length < top.size.toNat ∨
      (callback top.toFieldSpec d.currentMessageBuffer).needMoreBytes = true) ∨
    top.size.toNat ≤ d.currentMessageBuffer.length ∧
      (callback top.toFieldSpec d.currentMessageBuffer).needMoreBytes = false ∧
      (callback top.toFieldSpec d.currentMessageBuffer).bytesConsumed.toNat ≤
        d.currentMessageBuffer.length ∧
      o = some (answered d top rest callback) := by
  simp only [calculateSize, hs, hcb] at h
  split at h
  · rename_i hlt
    cases h
    exact .inl ⟨rfl, .inl hlt⟩
  · rename_i hlt
    split at h
    · rename_i hmore
      cases h
      exact .inl ⟨rfl, .inr hmore⟩
    · rename_i hmore
      split at h
      · simp at h
      · rename_i hcons
        cases h
        exact .inr ⟨Nat.le_of_not_lt hlt, by simpa using hmore, Nat.le_of_not_lt hcons, rfl⟩

/-- The completion test after the answer of the callback. -/
theorem answered_ready {callback : SizeCalcCallback} {r : Option PacketData}
    (hcons : (callback top.toFieldSpec d.currentMessageBuffer).bytesConsumed.toNat ≤
      d.currentMessageBuffer.length)
    (h : (answered d top rest callback).tryComplete = (.ok r, d')) :
    (d'.currentPacketStack = [] → d'.currentMessageBuffer = []) ∧
      (CanComplete d' ↔
        ¬ (callback top.toFieldSpec d.currentMessageBuffer).bytesConsumed.toNat +
            (callback top.toFieldSpec d.currentMessageBuffer).resultValue.toNat <
          d.currentMessageBuffer.length) := by
  have hs : (answered d top rest callback).currentPacketStack =
    answeredTop d top callback :: rest := rfl
  have hlen : (answered d top rest callback).currentMessageBuffer.length =
      d.currentMessageBuffer.length -
        (callback top.toFieldSpec d.currentMessageBuffer).bytesConsumed.toNat :=
    List.length_drop
  have hsize : (answeredTop d top callback).size =
    (callback top.toFieldSpec d.currentMessageBuffer).resultValue := rfl
  by_cases hfit : (answered d top rest callback).currentMessageBuffer.length ≤
      (answeredTop d top callback).size.toNat
  · obtain ⟨h1, h2⟩ := tryComplete_ready hs hfit h
    rw [hlen, hsize] at hfit
    exact ⟨h1, fun _ => by omega, fun _ => h2⟩
  · -- more bytes than the size: the test never succeeds
    simp only [tryComplete_cons hs, if_neg (Nat.ne_of_gt (Nat.lt_of_not_le hfit))] at h
    cases h
    refine ⟨fun he => by simp [hs] at he, ?_⟩
    rw [canComplete_cons hs]
    rw [hlen, hsize] at hfit ⊢
    exact ⟨fun hlt _ => absurd (hlt rfl) (by omega), fun hno => absurd (by omega) hno⟩

/-- `Overtakes`, at a field that takes the byte. -/
theorem overtakes_cons (hs : d.currentPacketStack = top :: rest)
    (hz : top.isCertainlyZeroSized = false) {b : UInt8} :
    Overtakes d b ↔ ∃ callback, top.externalSizeCalculation = some callback ∧
      top.size.toNat ≤ (d.pushByte b).currentMessageBuffer.length ∧
      (callback top.toFieldSpec (d.pushByte b).currentMessageBuffer).needMoreBytes = false ∧
      (callback top.toFieldSpec (d.pushByte b).currentMessageBuffer).bytesConsumed.toNat +
          (callback top.toFieldSpec (d.pushByte b).currentMessageBuffer).resultValue.toNat <
        (d.pushByte b).currentMessageBuffer.length := by
  have hs' : (d.pushByte b).currentPacketStack = top :: rest := hs
  simp only [Overtakes, arrive_of_cons hs hz, hs', List.head?_cons, Option.mem_def,
    Option.some.injEq, exists_eq_left']

/-- A byte for a field without callback. -/
private theorem addByte_ready_of_none (hs : d.currentPacketStack = top :: rest)
    (hcb : top.externalSizeCalculation = none)
    (hlen : d.currentMessageBuffer.length < top.size.toNat) {b : UInt8} {r : Option PacketData}
    (h : d.addByte b = (.ok r, d')) :
    (d'.currentPacketStack = [] → d'.currentMessageBuffer = []) ∧ CanComplete d' := by
  have hs' : (d.pushByte b).currentPacketStack = top :: rest := hs
  rw [addByte_of_room hs hcb hlen] at h
  refine tryComplete_ready hs' ?_ h
  simp only [pushByte, List.length_append, List.length_singleton]
  omega

/-- A byte for a field whose callback is pending. -/
private theorem addByte_ready_of_callback {callback : SizeCalcCallback}
    (hs : d.currentPacketStack = top :: rest)
    (hcb : top.externalSizeCalculation = some callback) (hz : top.isCertainlyZeroSized = false)
    {b : UInt8} {r : Option PacketData} (h : d.addByte b = (.ok r, d')) :
    (d'.currentPacketStack = [] → d'.currentMessageBuffer = []) ∧
      (CanComplete d' ↔ ¬ Overtakes d b) := by
  have hs' : (d.pushByte b).currentPacketStack = top :: rest := hs
  rw [addByte_eq, arrive_of_cons hs hz] at h
  rw [overtakes_cons hs hz]
  simp only [hcb, Option.some.injEq, exists_eq_left']
  cases hcalc : (d.pushByte b).calculateSize with
  | error e => simp [hcalc] at h
  | ok o =>
    rw [hcalc] at h
    rcases calculateSize_callback hs' hcb hcalc with ⟨rfl, hwait⟩ | ⟨h1, h2, h3, rfl⟩
    · -- the callback is still pending
      cases h
      refine ⟨fun he => by simp [hs'] at he, fun _ ho => ?_, fun _ => ?_⟩
      · rcases hwait with hlt | hmore
        · exact absurd ho.1 (by omega)
        · rw [hmore] at ho
          exact absurd ho.2.1 (by simp)
      · exact (canComplete_cons hs').mpr fun hn => by simp [hcb] at hn
    · obtain ⟨q1, q2⟩ := answered_ready h3 h
      exact ⟨q1, by rw [q2]; exact ⟨fun hno ho => hno ho.2.2, fun hno ho => hno ⟨h1, h2, ho⟩⟩⟩

/-- **A byte within a packet.** -/
private theorem addByte_cons_ready (hs : d.currentPacketStack = top :: rest) (hc : CanComplete d)
    {b : UInt8} {r : Option PacketData} (h : d.addByte b = (.ok r, d')) :
    (d'.currentPacketStack = [] → d'.currentMessageBuffer = []) ∧
      (CanComplete d' ↔ ¬ Overtakes d b) := by
  rw [canComplete_cons hs] at hc
  cases hcb : top.externalSizeCalculation with
  | none =>
    have hz : top.isCertainlyZeroSized = false := by
      simp [FieldDescriptor.isCertainlyZeroSized, size_ne_zero_of_lt (hc hcb)]
    obtain ⟨h1, h2⟩ := addByte_ready_of_none hs hcb (hc hcb) h
    refine ⟨h1, fun _ ho => ?_, fun _ => h2⟩
    obtain ⟨callback, hsome, -⟩ := (overtakes_cons hs hz).mp ho
    rw [hcb] at hsome
    cases hsome
  | some callback =>
    have hz : top.isCertainlyZeroSized = false := by
      simp [FieldDescriptor.isCertainlyZeroSized, hcb]
    exact addByte_ready_of_callback hs hcb hz h

theorem make_canComplete {t : PacketDescriptor} (ht : FirstTakesByte t) :
    ∃ f fs, (make t).currentPacketStack = f :: fs ∧ CanComplete (make t) := by
  obtain ⟨f, fs, hf, hfirst⟩ := ht
  have hm : (make t).currentPacketStack = f :: fs := by
    simp [make, newPacket, makePacketStack, hf]
  refine ⟨f, fs, hm, (canComplete_cons hm).mpr fun hn => Nat.pos_of_ne_zero fun e => ?_⟩
  exact hfirst.elim (fun hz => hz (UInt16.toNat_inj.mp e)) (fun hc => hc hn)

/-- **One call.** When it returns, the field at the top can complete exactly when no callback has
overtaken its size. -/
theorem Ready.addByte {t : PacketDescriptor} (ht : FirstTakesByte t) (hd : Ready t d) {b : UInt8}
    {r : Option PacketData} (h : d.addByte b = (.ok r, d')) :
    (CanComplete d' ↔ ¬ Overtakes d b) ∧ (CanComplete d' → Ready t d') := by
  obtain ⟨htemp, hempty, hcan⟩ := hd
  have htemp' : d'.packetTemplate = t := by
    have := packetTemplate_addByte d b
    rw [h] at this
    exact this.trans htemp
  have hmain : (d'.currentPacketStack = [] → d'.currentMessageBuffer = []) ∧
      (CanComplete d' ↔ ¬ Overtakes d b) := by
    cases hs : d.currentPacketStack with
    | cons top rest => exact addByte_cons_ready hs hcan h
    | nil =>
      -- the first byte of a packet
      obtain ⟨f, fs, hm, hcm⟩ := make_canComplete ht
      have hover : Overtakes d b ↔ Overtakes (make t) b := by
        have harr : d.arrive b = (make t).arrive b := by
          unfold arrive
          rw [startPacket_of_empty hs (hempty hs), htemp, startPacket_make]
        simp only [Overtakes, harr]
      rw [addByte_of_empty hs (hempty hs), htemp] at h
      rw [hover]
      exact addByte_cons_ready hm hcm h
  exact ⟨hmain.2, fun hc => ⟨htemp', hmain.1, hc⟩⟩

end Step

/-- **When no input wedges the dissector.** In a run without failures, every call that returns
`nullopt` leaves a field that can complete exactly when no call has a callback that answers less
than the bytes it leaves. -/
theorem never_wedged_iff {t : PacketDescriptor} (ht : FirstTakesByte t) {s : Bytes}
    (hok : AllReturn (make t) s) :
    Along addByte (fun d b => (d.addByte b).1 = .ok none → CanComplete (d.addByte b).2)
      (make t) s ↔ Along addByte (fun d b => ¬ Overtakes d b) (make t) s := by
  have hrun := along_output.mpr hok
  have hstart : Ready t (make t) := by
    obtain ⟨f, fs, hm, hc⟩ := make_canComplete ht
    exact ⟨rfl, fun he => by simp [hm] at he, hc⟩
  have hstep : ∀ d b, Ready t d → (∃ r, (d.addByte b).1 = .ok r) →
      (((d.addByte b).1 = .ok none → CanComplete (d.addByte b).2) ↔ ¬ Overtakes d b) ∧
        (¬ Overtakes d b → Ready t (d.addByte b).2) := by
    rintro d b hd ⟨r, hr⟩
    obtain ⟨h1, h2⟩ := hd.addByte ht (Prod.ext hr rfl)
    refine ⟨⟨fun h => h1.mp ?_, fun h _ => h1.mpr h⟩, fun h => h2 (h1.mpr h)⟩
    cases r with
    | none => exact h hr
    | some packet =>
      -- a call that delivers leaves no field
      intro top htop
      rw [(addByte_some (Prod.ext hr rfl)).1] at htop
      cases htop
  constructor
  · refine fun h => ((hrun.and h).mono_inv (I := Ready t) (fun d b hd hg => ?_) hstart).1
    have hno := (hstep d b hd hg.1).1.mp hg.2
    exact ⟨hno, (hstep d b hd hg.1).2 hno⟩
  · refine fun h => ((hrun.and h).mono_inv (I := Ready t) (fun d b hd hg => ?_) hstart).1
    exact ⟨(hstep d b hd hg.1).1.mpr hg.2, (hstep d b hd hg.1).2 hg.2⟩

/-- A length prefix of one byte that counts itself: no byte is consumed. -/
def countsItself : SizeCalcCallback := fun _ bytes =>
  { needMoreBytes := bytes.isEmpty, resultValue := bytes.head?.elim 0 UInt8.toUInt16,
    bytesConsumed := 0 }

/-- One field with a length prefix that counts itself. -/
def selfDescribingTemplate : PacketDescriptor where
  fields := [{ name := lit "DATA", externalSizeCalculation := some countsItself }]

theorem firstTakesByte_selfDescribing : FirstTakesByte selfDescribingTemplate :=
  ⟨_, _, rfl, .inr (by simp)⟩

/-- A length of zero, with the byte that holds it in the buffer: the field never completes. -/
theorem wedged_by_zero_length :
    ¬ ∀ t s, FirstTakesByte t → ConsumesAvailable t → AllReturn (make t) s →
      Along addByte (fun d b => (d.addByte b).1 = .ok none → CanComplete (d.addByte b).2)
        (make t) s := by
  intro h
  have hcons : ConsumesAvailable selfDescribingTemplate := by
    simp [ConsumesAvailable, selfDescribingTemplate, countsItself]
  have hok : AllReturn (make selfDescribingTemplate) [0] := by
    have ho : outputs addByte (make selfDescribingTemplate) [0] = [.ok none] := rfl
    simp [AllReturn, ho]
  exact absurd ((h _ _ firstTakesByte_selfDescribing hcons hok).1 rfl) (by decide)

/-- The length 2: the field completes with the second byte. -/
theorem never_wedged_two :
    Along addByte (fun d b => (d.addByte b).1 = .ok none → CanComplete (d.addByte b).2)
      (make selfDescribingTemplate) [2, 7] := by
  have hok : AllReturn (make selfDescribingTemplate) [2, 7] := by
    have ho : outputs addByte (make selfDescribingTemplate) [2, 7] =
      [.ok none, .ok (some { fields := [⟨lit "DATA", [2, 7]⟩] })] := rfl
    simp [AllReturn, ho]
  exact (never_wedged_iff firstTakesByte_selfDescribing hok).mpr ⟨by decide, by decide, trivial⟩

end Protos

import ProtoTools.Dissection.Callback
import ProtoTools.Dissection.Moves

/-!
# A field cut out by its size callback

A field with a size callback, no header and without references, from its first byte on. The
callback answers with the size of the value (`resultValue`) and the number of bytes before it
(`bytesConsumed`).

* `evaluation d b`: the bytes that the call on `b` gives to a size callback. `calculateSize_congr`:
  a call depends on the callback there only.
* `run_pending`, `addByte_answers`, `run_room`: the bytes until the callback answers, the byte of
  the answer, and the bytes after it.
* `cut_out`: the value is the part of the stream that the answer says, and the next field starts
  after it.
-/

namespace Protos

open Machine GenericDissector

namespace GenericDissector

/-- The bytes that the size callback of the top gets, when it is called. -/
def evaluated (d : GenericDissector) : Option Bytes :=
  match d.currentPacketStack with
  | [] => none
  | top :: _ =>
    if top.externalSizeCalculation.isSome ∧ top.size.toNat ≤ d.currentMessageBuffer.length then
      some d.currentMessageBuffer
    else none

/-- The bytes that the call on `b` gives to a size callback, if it calls one. -/
def evaluation (d : GenericDissector) (b : UInt8) : Option Bytes := (d.arrive b).evaluated

end GenericDissector

section Evaluation

variable {d : GenericDissector} {top : FieldDescriptor} {rest : List FieldDescriptor}

/-- A callback is used on the evaluated bytes only. -/
theorem calculateSize_congr {f g : SizeCalcCallback} (hs : d.currentPacketStack = top :: rest)
    (hf : top.externalSizeCalculation = some f)
    (hfg : ∀ bytes ∈ d.evaluated, f top.toFieldSpec bytes = g top.toFieldSpec bytes) :
    calculateSize { d with
      currentPacketStack := { top with externalSizeCalculation := some g } :: rest } =
      d.calculateSize := by
  simp only [calculateSize, hs, hf]
  by_cases hl : d.currentMessageBuffer.length < top.size.toNat
  · rw [if_pos hl, if_pos hl]
  · have he : d.evaluated = some d.currentMessageBuffer := by
      simp [evaluated, hs, hf, Nat.le_of_not_lt hl]
    rw [if_neg hl, if_neg hl, ← hfg _ he]

end Evaluation

/-! ## The bytes of the field -/

/-- A field that describes its own size, and does nothing else. -/
structure SelfDescribing (top : FieldDescriptor) (callback : SizeCalcCallback) : Prop where
  callback : top.externalSizeCalculation = some callback
  noHeader : top.isHeaderValue = false
  sizesNothing : top.determinesSizeOf = []
  removesNothing : top.sizeDeterminesExistenceOf = []

/-- The dissector with these bytes of the field in progress. -/
def withBuffer (d : GenericDissector) (bytes : Bytes) : GenericDissector :=
  { d with currentMessageBuffer := bytes }

section Field

variable {d : GenericDissector} {top : FieldDescriptor} {rest : List FieldDescriptor}
  {callback : SizeCalcCallback}

theorem SelfDescribing.takesByte (ht : SelfDescribing top callback) :
    top.isCertainlyZeroSized = false := by
  simp [FieldDescriptor.isCertainlyZeroSized, ht.callback]

/-- The callback is called as soon as the field has its minimum size. -/
theorem evaluation_pending (hs : d.currentPacketStack = top :: rest)
    (ht : SelfDescribing top callback) (b : UInt8) :
    evaluation d b = if top.size.toNat ≤ d.currentMessageBuffer.length + 1 then
      some (d.currentMessageBuffer ++ [b]) else none := by
  have hs' : (d.pushByte b).currentPacketStack = top :: rest := hs
  rw [evaluation, arrive_of_cons hs ht.takesByte, evaluated, hs']
  simp [ht.callback, pushByte]

/-- A field without a callback calls none. -/
theorem evaluation_none (hs : d.currentPacketStack = top :: rest)
    (hc : top.externalSizeCalculation = none)
    (hl : d.currentMessageBuffer.length < top.size.toNat) (b : UInt8) : evaluation d b = none := by
  have hs' : (d.pushByte b).currentPacketStack = top :: rest := hs
  have hz : top.isCertainlyZeroSized = false := by
    simp [FieldDescriptor.isCertainlyZeroSized, size_ne_zero_of_lt hl]
  rw [evaluation, arrive_of_cons hs hz, evaluated, hs']
  simp [hc]

/-- The field is too short for its callback, or the callback asks for more. -/
theorem addByte_asks (hs : d.currentPacketStack = top :: rest) (ht : SelfDescribing top callback)
    {b : UInt8} (h : top.size.toNat ≤ d.currentMessageBuffer.length + 1 →
      (callback top.toFieldSpec (d.currentMessageBuffer ++ [b])).needMoreBytes = true) :
    d.addByte b = (.ok none, d.pushByte b) := by
  have hs' : (d.pushByte b).currentPacketStack = top :: rest := hs
  have hcalc : (d.pushByte b).calculateSize = .ok none := by
    simp only [calculateSize, hs', ht.callback]
    by_cases hl : (d.pushByte b).currentMessageBuffer.length < top.size.toNat
    · rw [if_pos hl]
    · rw [if_neg hl]
      apply if_pos
      exact h (by simpa [pushByte] using hl)
  rw [addByte_eq, arrive_of_cons hs ht.takesByte, hcalc]

/-- The callback answers: the completion test is the one of the answer. -/
theorem addByte_answers (hs : d.currentPacketStack = top :: rest)
    (ht : SelfDescribing top callback) {b : UInt8}
    (hl : top.size.toNat ≤ d.currentMessageBuffer.length + 1)
    (hm : (callback top.toFieldSpec (d.currentMessageBuffer ++ [b])).needMoreBytes = false)
    (hc : (callback top.toFieldSpec (d.currentMessageBuffer ++ [b])).bytesConsumed.toNat ≤
      d.currentMessageBuffer.length + 1) :
    d.addByte b = (answered (d.pushByte b) top rest callback).tryComplete := by
  have hs' : (d.pushByte b).currentPacketStack = top :: rest := hs
  have hlen : (d.pushByte b).currentMessageBuffer.length = d.currentMessageBuffer.length + 1 := by
    simp [pushByte]
  have hcalc : (d.pushByte b).calculateSize =
      .ok (some (answered (d.pushByte b) top rest callback)) := by
    simp only [calculateSize, hs', ht.callback]
    rw [if_neg (by omega), if_neg (by simpa [pushByte] using hm),
      if_neg (by rw [hlen]; exact Nat.not_lt.mpr hc)]
    rfl
  rw [addByte_eq, arrive_of_cons hs ht.takesByte, hcalc]

/-- The bytes before the answer of the callback. -/
theorem run_pending (hs : d.currentPacketStack = top :: rest) (hb : d.currentMessageBuffer = [])
    (ht : SelfDescribing top callback) {s : Bytes}
    (hm : ∀ i, max 1 top.size.toNat ≤ i → i ≤ s.length →
      (callback top.toFieldSpec (s.take i)).needMoreBytes = true) :
    outputs addByte d s = List.replicate s.length (.ok none) ∧
      after addByte d s = withBuffer d s := by
  induction s using List.reverseRecOn with
  | nil => exact ⟨rfl, by rw [after_nil, withBuffer, ← hb]⟩
  | append_singleton s b ih =>
    obtain ⟨h1, h2⟩ := ih fun i hi hle => by
      have := hm i hi (by rw [List.length_append]; omega)
      rwa [List.take_append_of_le_length hle] at this
    have hstep := addByte_asks (d := withBuffer d s) (b := b) hs ht fun hl => by
      have := hm (s.length + 1) (by simp [withBuffer] at hl; omega) (by simp)
      rwa [List.take_of_length_le (by simp)] at this
    rw [outputs_append, after_append, h1, h2, outputs_cons, after_cons, hstep]
    exact ⟨by simp [← List.replicate_succ'], rfl⟩

/-- The bytes of a field of known size, up to its last one. -/
theorem run_room (hs : d.currentPacketStack = top :: rest)
    (hc : top.externalSizeCalculation = none) {s : Bytes}
    (hl : d.currentMessageBuffer.length + s.length < top.size.toNat) :
    outputs addByte d s = List.replicate s.length (.ok none) ∧
      after addByte d s = withBuffer d (d.currentMessageBuffer ++ s) := by
  induction s using List.reverseRecOn with
  | nil => exact ⟨rfl, by rw [after_nil, List.append_nil, withBuffer]⟩
  | append_singleton s b ih =>
    rw [List.length_append, List.length_singleton] at hl
    obtain ⟨h1, h2⟩ := ih (by omega)
    have hstep := addByte_waits (d := withBuffer d (d.currentMessageBuffer ++ s)) (b := b) hs hc
      (by simp [withBuffer]; omega)
    rw [outputs_append, after_append, h1, h2, outputs_cons, after_cons, hstep]
    refine ⟨by simp [← List.replicate_succ'], ?_⟩
    simp [withBuffer, pushByte]

/-- The dissector after the field with this value, and the empty fields after it. -/
def cutOut (d : GenericDissector) (top : FieldDescriptor) (rest : List FieldDescriptor)
    (value : Bytes) : GenericDissector :=
  ((withBuffer d value).takeField top rest).skipEmptyFields

/-- A complete field without references. -/
theorem completed_plain {d : GenericDissector} {f : FieldDescriptor} (h1 : f.determinesSizeOf = [])
    (h2 : f.sizeDeterminesExistenceOf = []) :
    d.completed f rest = (d.takeField f rest).skipEmptyFields.finish := by
  rw [completed_eq, applySizeRule, if_pos (by simp [h1])]
  simp only
  rw [applyExistenceRule, if_pos (by simp [h2])]

end Field

/-! ## The field as a whole -/

/-- The field is cut out of the stream `s`: its callback answers on the first `t` bytes that `c`
bytes come before a value of `r` bytes. -/
structure CutsOut (d : GenericDissector) (top : FieldDescriptor) (rest : List FieldDescriptor)
    (s : Bytes) (t c r : Nat) : Prop where
  /-- The callback gets the prefixes from the minimum size to the answer, and nothing else. -/
  evaluations : ∀ i b, i < c + r → s[i]? = some b →
    evaluation (after addByte d (s.take i)) b =
      if max 1 top.size.toNat ≤ i + 1 ∧ i + 1 ≤ t then some (s.take (i + 1)) else none
  /-- A call depends on the callback of the top only through its answer to what it gets there. -/
  depends : ∀ u b f g x xs, ((after addByte d u).arrive b).currentPacketStack = x :: xs →
    x.externalSizeCalculation = some f →
    (∀ bytes ∈ evaluation (after addByte d u) b,
      f x.toFieldSpec bytes = g x.toFieldSpec bytes) →
    calculateSize { (after addByte d u).arrive b with
      currentPacketStack := { x with externalSizeCalculation := some g } :: xs } =
      ((after addByte d u).arrive b).calculateSize
  /-- The field is complete at the last byte of its value, and not before. -/
  answers : outputs addByte d (s.take (c + r)) =
    List.replicate (c + r - 1) (.ok none) ++ [(cutOut d top rest ((s.drop c).take r)).finish.1]
  completes : after addByte d (s.take (c + r)) = cutOut d top rest ((s.drop c).take r)
  value : d.currentPacket.fields ++ [⟨top.name, (s.drop c).take r⟩] <+:
    (cutOut d top rest ((s.drop c).take r)).currentPacket.fields
  /-- The next field starts with the next byte. -/
  nextField : (cutOut d top rest ((s.drop c).take r)).currentPacketStack <:+ rest ∧
    (cutOut d top rest ((s.drop c).take r)).currentMessageBuffer = []
  /-- The callbacks of the rest of the packet are those of its other fields. -/
  gone : ∀ more,
    Along addByte (fun x _ => x.currentPacketStack ≠ []) (after addByte d (s.take (c + r))) more →
      (pendingCallbacks
        (after addByte (after addByte d (s.take (c + r))) more).currentPacketStack).Sublist
        (pendingCallbacks rest)
  template : ∀ u, (after addByte d u).packetTemplate = d.packetTemplate
  /-- The next packet is dissected as by a new object. -/
  afresh : ∀ u, (after addByte d u).currentPacketStack = [] →
    (after addByte d u).currentMessageBuffer = [] → ∀ b,
      evaluation (after addByte d u) b = evaluation (make d.packetTemplate) b ∧
        (after addByte d u).addByte b = (make d.packetTemplate).addByte b

section CutOut

variable {d : GenericDissector} {top : FieldDescriptor} {rest : List FieldDescriptor}
  {callback : SizeCalcCallback} {s : Bytes} {t : Nat}

private theorem take_last {n : Nat} (h0 : 0 < n) (hn : n ≤ s.length) :
    ∃ b, s.take n = s.take (n - 1) ++ [b] := by
  obtain ⟨m, rfl⟩ := Nat.exists_eq_add_one_of_ne_zero (Nat.ne_of_gt h0)
  exact ⟨s[m], (List.take_concat_get' s m hn).symm⟩

theorem skipEmpty_suffix (fs : List FieldDescriptor) (packet : PacketData) :
    (skipEmpty fs packet).1 <:+ fs := by
  rw [skipEmpty_eq]
  exact List.dropWhile_suffix _

theorem finish_of_nil (hb : d.currentMessageBuffer = []) : d.finish.2 = d := by
  unfold finish
  split
  · rw [← hb]
  · rfl

/-- The dissector once the callback has answered, with these bytes of the value. -/
def valued (d : GenericDissector) (top : FieldDescriptor) (rest : List FieldDescriptor)
    (size : UInt16) (bytes : Bytes) : GenericDissector :=
  { d with
    currentPacketStack := { top with size, externalSizeCalculation := none } :: rest
    currentMessageBuffer := bytes }

/-- The byte that completes the value. -/
theorem tryComplete_valued (ht : SelfDescribing top callback) {size : UInt16} {bytes : Bytes}
    (hl : bytes.length = size.toNat) :
    (valued d top rest size bytes).tryComplete = (cutOut d top rest bytes).finish := by
  have hs : (valued d top rest size bytes).currentPacketStack =
    { top with size, externalSizeCalculation := none } :: rest := rfl
  rw [tryComplete_cons hs, if_pos (by simpa [valued] using hl), if_neg (by simp [ht.noHeader])]
  exact completed_plain ht.sizesNothing ht.removesNothing

/-- A byte that does not complete the value. -/
theorem tryComplete_valued_waits {size : UInt16} {bytes : Bytes} (hl : bytes.length < size.toNat) :
    (valued d top rest size bytes).tryComplete = (.ok none, valued d top rest size bytes) := by
  have hs : (valued d top rest size bytes).currentPacketStack =
    { top with size, externalSizeCalculation := none } :: rest := rfl
  rw [tryComplete_cons hs, if_neg (by simpa [valued] using Nat.ne_of_lt hl)]

/-- A byte of the value. -/
theorem addByte_valued {size : UInt16} {bytes : Bytes} (hl : bytes.length < size.toNat)
    (b : UInt8) :
    (valued d top rest size bytes).addByte b =
      (valued d top rest size (bytes ++ [b])).tryComplete := by
  have hs : (valued d top rest size bytes).currentPacketStack =
    { top with size, externalSizeCalculation := none } :: rest := rfl
  rw [addByte_of_room hs rfl (by simpa [valued] using hl) b]
  rfl

variable {answer : SizeCallCallbackResult}

/-- The least prefix on which the callback answers has `t` bytes, and its answer ends there or
later. -/
structure AnswersAt (top : FieldDescriptor) (callback : SizeCalcCallback) (s : Bytes) (t : Nat)
    (answer : SizeCallCallbackResult) : Prop where
  minimum : max 1 top.size.toNat ≤ t
  asks : ∀ i, max 1 top.size.toNat ≤ i → i < t →
    (callback top.toFieldSpec (s.take i)).needMoreBytes = true
  answers : callback top.toFieldSpec (s.take t) = answer
  enough : answer.needMoreBytes = false
  consumes : answer.bytesConsumed.toNat ≤ t
  ends : t ≤ answer.bytesConsumed.toNat + answer.resultValue.toNat
  arrives : answer.bytesConsumed.toNat + answer.resultValue.toNat ≤ s.length

/-- The bytes before the answer. -/
theorem AnswersAt.pending (ha : AnswersAt top callback s t answer)
    (hs : d.currentPacketStack = top :: rest) (hb : d.currentMessageBuffer = [])
    (ht : SelfDescribing top callback) {i : Nat} (hi : i < t) :
    outputs addByte d (s.take i) = List.replicate i (.ok none) ∧
      after addByte d (s.take i) = withBuffer d (s.take i) := by
  have hlen : (s.take i).length = i := by
    rw [List.length_take]
    have := ha.ends
    have := ha.arrives
    omega
  obtain ⟨h1, h2⟩ := run_pending (s := s.take i) hs hb ht fun j hj hle => by
    rw [List.take_take, Nat.min_eq_left (by omega)]
    exact ha.asks j hj (by omega)
  rw [hlen] at h1
  exact ⟨h1, h2⟩

/-- The byte of the answer. -/
theorem AnswersAt.step (ha : AnswersAt top callback s t answer)
    (hs : d.currentPacketStack = top :: rest) (ht : SelfDescribing top callback) {b : UInt8}
    (hsb : s.take t = s.take (t - 1) ++ [b]) :
    (withBuffer d (s.take (t - 1))).addByte b =
      (valued d top rest answer.resultValue
        ((s.take t).drop answer.bytesConsumed.toNat)).tryComplete := by
  have hlen : (s.take (t - 1)).length + 1 = t := by
    have := ha.minimum
    have := ha.ends
    have := ha.arrives
    rw [List.length_take]
    omega
  have hbuf : (withBuffer d (s.take (t - 1))).currentMessageBuffer = s.take (t - 1) := rfl
  have hanswer : callback top.toFieldSpec
      ((withBuffer d (s.take (t - 1))).currentMessageBuffer ++ [b]) = answer := by
    rw [hbuf, ← hsb, ha.answers]
  have hs' : (withBuffer d (s.take (t - 1))).currentPacketStack = top :: rest := hs
  rw [addByte_answers hs' ht (by rw [hbuf, hlen]; have := ha.minimum; omega)
    (by rw [hanswer, ha.enough]) (by rw [hanswer, hbuf, hlen]; exact ha.consumes)]
  have hpush : ((withBuffer d (s.take (t - 1))).pushByte b).currentMessageBuffer = s.take t := by
    rw [hsb]
    rfl
  simp only [answered, answeredTop, hpush, ha.answers]
  rfl

/-- The bytes to the answer, and the completion test with it. -/
theorem run_answer (ha : AnswersAt top callback s t answer)
    (hs : d.currentPacketStack = top :: rest) (hb : d.currentMessageBuffer = [])
    (ht : SelfDescribing top callback) :
    outputs addByte d (s.take t) = List.replicate (t - 1) (.ok none) ++
        [(valued d top rest answer.resultValue
          ((s.take t).drop answer.bytesConsumed.toNat)).tryComplete.1] ∧
      after addByte d (s.take t) =
        (valued d top rest answer.resultValue
          ((s.take t).drop answer.bytesConsumed.toNat)).tryComplete.2 := by
  have h1 := ha.minimum
  have h2 := ha.ends
  have h3 := ha.arrives
  obtain ⟨b, hsb⟩ := take_last (s := s) (n := t) (by omega) (by omega)
  obtain ⟨q1, q2⟩ := ha.pending hs hb ht (i := t - 1) (by omega)
  have hstep := ha.step hs ht hsb
  rw [hsb, outputs_append, after_append, q1, q2, ← hsb, outputs_cons, after_cons, hstep]
  exact ⟨rfl, rfl⟩

/-- The bytes after the answer, up to the last one. -/
theorem run_within (ha : AnswersAt top callback s t answer)
    (hs : d.currentPacketStack = top :: rest) (hb : d.currentMessageBuffer = [])
    (ht : SelfDescribing top callback) {i : Nat} (hti : t ≤ i)
    (hi : i < answer.bytesConsumed.toNat + answer.resultValue.toNat) :
    outputs addByte d (s.take i) = List.replicate i (.ok none) ∧
      after addByte d (s.take i) =
        valued d top rest answer.resultValue ((s.take i).drop answer.bytesConsumed.toNat) := by
  have h1 := ha.minimum
  have h2 := ha.consumes
  have h3 := ha.arrives
  have hsplit : s.take i = s.take t ++ (s.take i).drop t := by
    have := (List.take_append_drop t (s.take i)).symm
    rwa [List.take_take, Nat.min_eq_left hti] at this
  obtain ⟨q1, q2⟩ := run_answer ha hs hb ht
  rw [tryComplete_valued_waits (by simp; omega)] at q1 q2
  have hs' : (valued d top rest answer.resultValue
      ((s.take t).drop answer.bytesConsumed.toNat)).currentPacketStack =
    { top with size := answer.resultValue, externalSizeCalculation := none } :: rest := rfl
  obtain ⟨r1, r2⟩ := run_room (s := (s.take i).drop t) hs' rfl (by simp [valued]; omega)
  have hdrop : (s.take t).drop answer.bytesConsumed.toNat ++ (s.take i).drop t =
      (s.take i).drop answer.bytesConsumed.toNat := by
    conv_rhs => rw [hsplit]
    rw [List.drop_append_of_le_length (by simp; omega)]
  rw [hsplit, outputs_append, after_append, q1, q2, r1, r2, ← hsplit]
  constructor
  · rw [← List.replicate_succ', List.replicate_append_replicate]
    congr 1
    simp
    omega
  · rw [← hdrop]
    rfl

/-- The bytes up to the last one of the value. -/
theorem run_whole (ha : AnswersAt top callback s t answer)
    (hs : d.currentPacketStack = top :: rest) (hb : d.currentMessageBuffer = [])
    (ht : SelfDescribing top callback) :
    outputs addByte d (s.take (answer.bytesConsumed.toNat + answer.resultValue.toNat)) =
        List.replicate (answer.bytesConsumed.toNat + answer.resultValue.toNat - 1) (.ok none) ++
          [(cutOut d top rest ((s.drop answer.bytesConsumed.toNat).take
            answer.resultValue.toNat)).finish.1] ∧
      after addByte d (s.take (answer.bytesConsumed.toNat + answer.resultValue.toNat)) =
        cutOut d top rest ((s.drop answer.bytesConsumed.toNat).take answer.resultValue.toNat) := by
  have h1 := ha.minimum
  have h2 := ha.consumes
  have h3 := ha.ends
  have h4 := ha.arrives
  generalize hn : answer.bytesConsumed.toNat + answer.resultValue.toNat = n at h3 h4 ⊢
  have hvalue : (s.take n).drop answer.bytesConsumed.toNat =
      (s.drop answer.bytesConsumed.toNat).take answer.resultValue.toNat := by
    rw [← hn, List.drop_take, Nat.add_sub_cancel_left]
  rw [← hvalue]
  have hlen : ((s.take n).drop answer.bytesConsumed.toNat).length = answer.resultValue.toNat := by
    simp
    omega
  have hfin : (cutOut d top rest ((s.take n).drop answer.bytesConsumed.toNat)).finish.2 =
    cutOut d top rest ((s.take n).drop answer.bytesConsumed.toNat) := finish_of_nil rfl
  by_cases htn : t = n
  · obtain ⟨q1, q2⟩ := run_answer ha hs hb ht
    rw [htn, tryComplete_valued ht hlen] at q1 q2
    exact ⟨q1, q2.trans hfin⟩
  · -- the last byte comes after the answer
    obtain ⟨q1, q2⟩ := run_within ha hs hb ht (i := n - 1) (by omega) (by omega)
    obtain ⟨b, hsn⟩ := take_last (s := s) (n := n) (by omega) h4
    have hdrop : (s.take (n - 1)).drop answer.bytesConsumed.toNat ++ [b] =
        (s.take n).drop answer.bytesConsumed.toNat := by
      rw [hsn, List.drop_append_of_le_length (by simp; omega)]
    have hstep : (valued d top rest answer.resultValue
        ((s.take (n - 1)).drop answer.bytesConsumed.toNat)).addByte b = _ :=
      addByte_valued (by simp; omega) b
    rw [hdrop, tryComplete_valued ht hlen] at hstep
    conv => enter [1, 1]; rw [hsn]
    conv => enter [2, 1]; rw [hsn]
    rw [outputs_append, after_append, q1, q2, outputs_cons, after_cons, hstep]
    exact ⟨rfl, hfin⟩

/-- The bytes on which the callback is evaluated. -/
theorem evaluation_run (ha : AnswersAt top callback s t answer)
    (hs : d.currentPacketStack = top :: rest) (hb : d.currentMessageBuffer = [])
    (ht : SelfDescribing top callback) {i : Nat} {b : UInt8}
    (hi : i < answer.bytesConsumed.toNat + answer.resultValue.toNat) (hsb : s[i]? = some b) :
    evaluation (after addByte d (s.take i)) b =
      if max 1 top.size.toNat ≤ i + 1 ∧ i + 1 ≤ t then some (s.take (i + 1)) else none := by
  have h2 := ha.consumes
  have h3 := ha.arrives
  by_cases hit : i < t
  · -- the callback is pending
    have hlen : (s.take i).length + 1 = i + 1 := by simp; omega
    have hbuf : (withBuffer d (s.take i)).currentMessageBuffer = s.take i := rfl
    have hs' : (withBuffer d (s.take i)).currentPacketStack = top :: rest := hs
    rw [(ha.pending hs hb ht hit).2, evaluation_pending hs' ht, hbuf, hlen, List.take_add_one, hsb]
    by_cases hm : top.size.toNat ≤ i + 1
    · rw [if_pos hm, if_pos ⟨by omega, by omega⟩]
      rfl
    · rw [if_neg hm, if_neg (by omega)]
  · have hs' : (valued d top rest answer.resultValue
        ((s.take i).drop answer.bytesConsumed.toNat)).currentPacketStack =
      { top with size := answer.resultValue, externalSizeCalculation := none } :: rest := rfl
    rw [(run_within ha hs hb ht (Nat.le_of_not_lt hit) hi).2,
      evaluation_none hs' rfl (by simp [valued]; omega), if_neg (by omega)]

/-- **A field is cut out as its callback says.** Its callback is evaluated on the prefixes up to
its answer and not again in the packet; the field is the part of the stream that the answer names,
and the next field starts after it. -/
theorem cut_out (ha : AnswersAt top callback s t answer)
    (hs : d.currentPacketStack = top :: rest) (hb : d.currentMessageBuffer = [])
    (ht : SelfDescribing top callback) :
    CutsOut d top rest s t answer.bytesConsumed.toNat answer.resultValue.toNat := by
  obtain ⟨h1, h2⟩ := run_whole ha hs hb ht
  exact {
    evaluations := fun i b hi hsb => evaluation_run ha hs hb ht hi hsb
    depends := fun u b f g x xs hx hf hfg => calculateSize_congr hx hf hfg
    answers := h1
    completes := h2
    value := skipEmpty_fields rest (d.currentPacket.add ⟨top.name,
      (s.drop answer.bytesConsumed.toNat).take answer.resultValue.toNat⟩)
    nextField := ⟨skipEmpty_suffix rest _, rfl⟩
    gone := fun more hmore => by
      apply (callbacks_run hmore).trans
      rw [h2]
      exact (skipEmpty_suffix rest _).sublist.filterMap _
    template := packetTemplate_after
    afresh := fun u hstack hbuf b => by
      have hstart := startPacket_of_empty hstack hbuf
      rw [packetTemplate_after] at hstart
      refine ⟨?_, ?_⟩
      · rw [evaluation, evaluation, arrive, arrive, hstart, startPacket_make]
      · rw [addByte_of_empty hstack hbuf, packetTemplate_after] }

end CutOut

/-- A length prefix of two bytes, that is no part of the value. -/
def consumesPrefix : SizeCalcCallback := fun _ bytes =>
  { needMoreBytes := bytes.length < 2, resultValue := UInt16.ofNat (LittleEndian.toNat bytes),
    bytesConsumed := 2 }

/-- A byte, and a field with a length prefix. -/
def prefixedTemplate : PacketDescriptor where
  fields := [{ name := lit "T", size := 1 },
    { name := lit "DATA", size := 1, externalSizeCalculation := some consumesPrefix }]

/-- The second field of a packet: a length of 1, its byte, and the start of the next packet. -/
theorem cut_out_prefixed : CutsOut ((make prefixedTemplate).addByte 5).2
    { name := lit "DATA", size := 1, externalSizeCalculation := some consumesPrefix } []
    [1, 0, 7, 5] 2 2 1 := by
  have hdata : SelfDescribing
      { name := lit "DATA", size := 1, externalSizeCalculation := some consumesPrefix }
      consumesPrefix := ⟨rfl, rfl, rfl, rfl⟩
  have hone : max 1 (1 : UInt16).toNat = 1 := rfl
  have hanswer : AnswersAt
      { name := lit "DATA", size := 1, externalSizeCalculation := some consumesPrefix }
      consumesPrefix [1, 0, 7, 5] 2 ⟨false, 1, 2⟩ := {
    minimum := by decide
    asks := fun i h1 h2 => by
      obtain rfl : i = 1 := by omega
      rfl
    answers := rfl
    enough := rfl
    consumes := by decide
    ends := by decide
    arrives := by decide }
  exact cut_out hanswer rfl rfl hdata

end Protos

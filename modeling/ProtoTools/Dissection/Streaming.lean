import ProtoTools.Dissection.History

/-!
# Runs of `addByte` accept the grammar of the template

* `run_field`, `run_drops`, `run_throws`: the three things that the bytes of a field do.
* `conforms_run`: the bytes of a conforming field list are answered by `nullopt` up to the last
  one, which delivers the field list.
* `run_conforms`: a run without exceptions either holds a conforming field list at its start, or
  is the start of one packet and holds its bytes.
* `addByte_accepts_grammar`: from the constructor on, the packets delivered are the conforming
  field lists that the stream is made of, and nothing is lost between them.
-/

namespace Protos

open Machine GenericDissector

/-- The bytes of a field list. -/
def encode (ds : List FieldData) : Bytes := packetDataToBuffer { fields := ds }

/-- The answers to the bytes of a packet with the fields `ds`: `nullopt` up to the last byte. -/
def answers (ds : List FieldData) : List (Except Fault (Option PacketData)) :=
  List.replicate ((encode ds).length - 1) (.ok none) ++ [.ok (some { fields := ds })]

@[simp] theorem encode_nil : encode [] = [] := rfl

@[simp] theorem encode_cons (d : FieldData) (ds : List FieldData) :
    encode (d :: ds) = d.value ++ encode ds := by
  simp [encode, packetDataToBuffer_eq]

@[simp] theorem encode_append (ds es : List FieldData) :
    encode (ds ++ es) = encode ds ++ encode es := by
  simp [encode, packetDataToBuffer_eq]

section Runs

variable {t : PacketDescriptor} {h : History} {f : FieldDescriptor} {fs : List FieldDescriptor}

/-- Bytes that do not fill the field in progress. -/
theorem run_waits (hl : Layout h (f :: fs)) (hr : removed h f = false) {w u : Bytes}
    (hn : w.length + u.length < effectiveSize h f) :
    outputs addByte (stateOf t h (f :: fs) w) u = List.replicate u.length (.ok none) ∧
      after addByte (stateOf t h (f :: fs) w) u = stateOf t h (f :: fs) (w ++ u) := by
  induction u generalizing w with
  | nil => simp
  | cons b u ih =>
    rw [List.length_cons] at hn
    have hb := addByte_stateOf_waits (t := t) (w := w) (b := b) hl hr (by omega)
    obtain ⟨h1, h2⟩ := ih (w := w ++ [b])
      (by rw [List.length_append, List.length_singleton]; omega)
    rw [outputs_cons, after_cons, hb]
    exact ⟨by rw [h1]; rfl, by rw [h2, List.append_assoc]; rfl⟩

/-- Fewer bytes than the next field needs. -/
theorem run_starts (hl : Layout h (f :: fs)) (hr : removed h f = false) {u : Bytes}
    (hn : u.length < effectiveSize h f) :
    outputs addByte (stateOf t h (f :: fs) []) u = List.replicate u.length (.ok none) ∧
      after addByte (stateOf t h (f :: fs) []) u = stateOf t h (f :: fs) u :=
  run_waits hl hr (by rwa [List.length_nil, Nat.zero_add])

/-- The bytes of a field, up to its last one. -/
private theorem run_up_to_last (hl : Layout h (f :: fs)) (hr : removed h f = false) {v : Bytes}
    (hv : v.length = effectiveSize h f) (hne : v ≠ []) :
    ∃ u b, v = u ++ [b] ∧ u.length + 1 = effectiveSize h f ∧
      outputs addByte (stateOf t h (f :: fs) []) u = List.replicate u.length (.ok none) ∧
      after addByte (stateOf t h (f :: fs) []) u = stateOf t h (f :: fs) u := by
  obtain ⟨u, b, rfl⟩ : ∃ u b, v = u ++ [b] := ⟨_, _, (List.dropLast_concat_getLast hne).symm⟩
  rw [List.length_append, List.length_singleton] at hv
  exact ⟨u, b, rfl, hv, run_starts hl hr (by omega)⟩

/-- The bytes of a field that keeps its rules: the last one settles it. -/
theorem run_field (hl : Layout h (f :: fs)) (hr : removed h f = false) {v : Bytes}
    (hv : v.length = effectiveSize h f) (hne : v ≠ []) (hok : FieldOk h f v fs) :
    outputs addByte (stateOf t h (f :: fs) []) v =
        List.replicate (v.length - 1) (.ok none) ++ [(settled t ((f, v) :: h) fs).1] ∧
      after addByte (stateOf t h (f :: fs) []) v = (settled t ((f, v) :: h) fs).2 := by
  obtain ⟨u, b, rfl, hlen, h1, h2⟩ := run_up_to_last (t := t) hl hr hv hne
  have hb := addByte_stateOf_completes (t := t) hl hr hlen hok
  rw [outputs_append, after_append, h1, h2]
  simp [hb]

/-- The bytes of a field that are not its header: the first one is dropped. -/
theorem run_drops (hl : Layout h (f :: fs)) (hr : removed h f = false) {v : Bytes}
    (hv : v.length = effectiveSize h f) (hne : v ≠ []) (hh : f.isHeaderValue = true)
    (hbad : f.value ≠ v) :
    outputs addByte (stateOf t h (f :: fs) []) v = List.replicate v.length (.ok none) ∧
      after addByte (stateOf t h (f :: fs) []) v = stateOf t h (f :: fs) v.tail := by
  obtain ⟨u, b, rfl, hlen, h1, h2⟩ := run_up_to_last (t := t) hl hr hv hne
  have hb := addByte_stateOf_drops (t := t) hl hr hlen hh hbad
  rw [outputs_append, after_append, h1, h2]
  simp [hb, ← List.replicate_succ']

/-- The bytes of a field that breaks a rule: a call throws. -/
theorem run_throws (hl : Layout h (f :: fs)) (hr : removed h f = false) {v : Bytes}
    (hv : v.length = effectiveSize h f) (hne : v ≠ []) (hh : f.isHeaderValue = true → f.value = v)
    (hbad : ¬ FieldOk h f v fs) :
    ∃ what, .error (.runtimeError what) ∈ outputs addByte (stateOf t h (f :: fs) []) v := by
  obtain ⟨u, b, rfl, hlen, h1, h2⟩ := run_up_to_last (t := t) hl hr hv hne
  obtain ⟨what, d, hb⟩ := addByte_stateOf_throws (t := t) hl hr hlen hh hbad
  refine ⟨what, ?_⟩
  rw [outputs_append, h2]
  simp [hb]

/-- **Completeness.** The bytes of a conforming field list deliver it, at the last byte. -/
theorem conforms_run {ds : List FieldData} (hl : Layout h fs) (hc : Conforms h fs ds) :
    (settled t h fs).1 :: outputs addByte (settled t h fs).2 (encode ds) =
        List.replicate (encode ds).length (.ok none) ++
          [.ok (some { fields := delivered h ++ ds })] ∧
      (after addByte (settled t h fs).2 (encode ds)).currentPacketStack = [] ∧
      (after addByte (settled t h fs).2 (encode ds)).currentMessageBuffer = [] ∧
      (after addByte (settled t h fs).2 (encode ds)).packetTemplate = t := by
  induction hc with
  | nil h =>
    rw [settled_nil]
    exact ⟨by simp, rfl, rfl, rfl⟩
  | removed hr _ ih =>
    rw [settled_removed hr]
    exact ih hl.tail
  | @present h f v fs ds hr hv hok _ ih =>
    obtain ⟨h1, h2⟩ := ih (hl.deliver v)
    rw [delivered_cons, List.append_assoc, List.singleton_append] at h1
    by_cases hne : v = []
    · -- an empty field is delivered with the field before it
      subst hne
      rw [settled_empty hl hr hv.symm, encode_cons]
      exact ⟨h1, h2⟩
    · have hpos : 0 < v.length := List.length_pos_iff.mpr hne
      obtain ⟨o1, o2⟩ := run_field (t := t) hl hr hv hne (hok hne)
      rw [settled_present hr (by omega), encode_cons, outputs_append, after_append, o1, o2]
      refine ⟨?_, h2⟩
      simp only [List.append_assoc, List.singleton_append, h1, List.length_append]
      rw [← List.append_assoc, List.replicate_append_replicate, ← List.cons_append,
        ← List.replicate_succ]
      congr 2
      omega

/-- The packet is under way: every call returned `nullopt`, and the bytes are kept. -/
def Pending (h : History) (s : Bytes) (run : List (Except Fault (Option PacketData)))
    (d : GenericDissector) : Prop :=
  run = List.replicate run.length (.ok none) ∧ d.currentPacketStack ≠ [] ∧
    packetDataToBuffer d.currentPacket ++ d.currentMessageBuffer = encode (delivered h) ++ s

/-- An empty field holds no byte. -/
theorem Pending.of_empty {s : Bytes} {run : List (Except Fault (Option PacketData))}
    {d : GenericDissector} (hp : Pending ((f, []) :: h) s run d) : Pending h s run d := by
  obtain ⟨h1, h2, h3⟩ := hp
  refine ⟨h1, h2, ?_⟩
  rw [h3, delivered_cons]
  simp

/-- The bytes of a field come before the bytes of the fields after it. -/
theorem Pending.of_field {v s : Bytes} {run : List (Except Fault (Option PacketData))}
    {d : GenericDissector} (hp : Pending ((f, v) :: h) s run d) :
    Pending h (v ++ s) (.ok none :: (List.replicate (v.length - 1) (.ok none) ++ run)) d := by
  obtain ⟨h1, h2, h3⟩ := hp
  refine ⟨?_, h2, ?_⟩
  · rw [h1]
    simp [← List.replicate_succ]
  · rw [h3, delivered_cons]
    simp

/-- The stream ends within the next field. -/
theorem pending_starts (hl : Layout h (f :: fs)) (hr : removed h f = false) {s : Bytes}
    (hlen : s.length < effectiveSize h f) :
    Pending h s (.ok none :: outputs addByte (stateOf t h (f :: fs) []) s)
      (after addByte (stateOf t h (f :: fs) []) s) := by
  obtain ⟨h1, h2⟩ := run_starts (t := t) hl hr hlen
  refine ⟨?_, ?_, ?_⟩
  · simp [h1, ← List.replicate_succ]
  · rw [h2, stack_stateOf hr]
    simp
  · rw [h2]
    rfl

/-- A field whose bytes are received without an exception keeps its rules. -/
theorem fieldOk_of_allReturn (hl : Layout h (f :: fs)) (hr : removed h f = false) {v : Bytes}
    (hv : v.length = effectiveSize h f) (hne : v ≠ []) (hh : f.isHeaderValue = false)
    (hok : AllReturn (stateOf t h (f :: fs) []) v) : FieldOk h f v fs := by
  by_contra hbad
  have hheader : f.isHeaderValue = true → f.value = v := fun hhd => by
    rw [hh] at hhd
    cases hhd
  obtain ⟨what, hthrow⟩ := run_throws (t := t) hl hr hv hne hheader hbad
  obtain ⟨r, hr'⟩ := hok _ hthrow
  cases hr'

/-- **Soundness.** A run without exceptions from a settled state starts with the bytes of a
conforming field list, or stays within one packet. -/
theorem run_conforms (hl : Layout h fs) (hh : ∀ g ∈ fs, g.isHeaderValue = false) {s : Bytes}
    (hok : ∀ o ∈ (settled t h fs).1 :: outputs addByte (settled t h fs).2 s, ∃ r, o = .ok r) :
    (∃ ds s', s = encode ds ++ s' ∧ Conforms h fs ds) ∨
      Pending h s ((settled t h fs).1 :: outputs addByte (settled t h fs).2 s)
        (after addByte (settled t h fs).2 s) := by
  induction fs generalizing h s with
  | nil => exact .inl ⟨[], s, rfl, .nil h⟩
  | cons f fs ih =>
    have hh' : ∀ g ∈ fs, g.isHeaderValue = false := fun g hg => hh g (.tail _ hg)
    cases hr : removed h f with
    | true =>
      rw [settled_removed hr] at hok ⊢
      rcases ih hl.tail hh' hok with ⟨ds, s', hs, hc⟩ | hp
      · exact .inl ⟨ds, s', hs, .removed hr hc⟩
      · exact .inr hp
    | false =>
      by_cases hn : effectiveSize h f = 0
      · rw [settled_empty hl hr hn] at hok ⊢
        rcases ih (hl.deliver []) hh' hok with ⟨ds, s', hs, hc⟩ | hp
        · exact .inl ⟨⟨f.name, []⟩ :: ds, s', by simpa using hs,
            .present hr hn.symm (fun h => absurd rfl h) hc⟩
        · exact .inr hp.of_empty
      · rw [settled_present hr hn] at hok ⊢
        by_cases hlen : s.length < effectiveSize h f
        · exact .inr (pending_starts hl hr hlen)
        · obtain ⟨v, s', rfl, hv⟩ : ∃ v s', s = v ++ s' ∧ v.length = effectiveSize h f :=
            ⟨_, _, (List.take_append_drop (effectiveSize h f) s).symm, by
              rw [List.length_take]; omega⟩
          have hne : v ≠ [] := by rintro rfl; exact hn hv.symm
          have hreturn : AllReturn (stateOf t h (f :: fs) []) (v ++ s') :=
            (List.forall_mem_cons.mp hok).2
          have hfield := fieldOk_of_allReturn hl hr hv hne (hh f (.head _)) hreturn.append.1
          obtain ⟨h1, h2⟩ := run_field (t := t) hl hr hv hne hfield
          rw [outputs_append, h1, h2] at hok ⊢
          rw [after_append, h2, List.append_assoc, List.singleton_append]
          rw [List.append_assoc, List.singleton_append, List.forall_mem_cons,
            List.forall_mem_append] at hok
          rcases ih (hl.deliver v) hh' hok.2.2 with ⟨ds, s'', rfl, hc⟩ | hp
          · exact .inl ⟨⟨f.name, v⟩ :: ds, s'', by simp, .present hr hv (fun _ => hfield) hc⟩
          · exact .inr hp.of_field

end Runs

/-- A template of plain fields: no header, no callback, distinct names and a first field with a
size. -/
structure PlainTemplate (t : PacketDescriptor) : Prop where
  noHeader : ∀ f ∈ t.fields, f.isHeaderValue = false
  noCallback : ∀ f ∈ t.fields, f.externalSizeCalculation = none
  distinct : (t.fields.map (·.name)).Nodup
  first : ∃ f fs, t.fields = f :: fs ∧ f.size ≠ 0

namespace PlainTemplate

variable {t : PacketDescriptor}

theorem layout (ht : PlainTemplate t) : Layout [] t.fields where
  plain := ht.noCallback
  names := .inr ⟨fun _ hL => absurd hL List.not_mem_nil, ht.distinct⟩

/-- A packet of the template has at least one byte. -/
theorem encode_ne_nil (ht : PlainTemplate t) {ds : List FieldData} (hc : Conforming t ds) :
    encode ds ≠ [] := by
  obtain ⟨f, fs, hf, hz⟩ := ht.first
  unfold Conforming at hc
  rw [hf] at hc
  cases hc with
  | removed hr _ => cases hr
  | @present _ _ v _ _ _ hv _ _ =>
    intro e
    rw [encode_cons, List.append_eq_nil_iff] at e
    rw [show v = [] from e.1, effectiveSize_nil] at hv
    exact hz (UInt16.toNat_inj.mp hv.symm)

/-- One packet, and the run after it. -/
theorem outputs_packet (ht : PlainTemplate t) {ds : List FieldData} (hc : Conforming t ds)
    (s : Bytes) : outputs addByte (make t) (encode ds ++ s) = answers ds ++
      outputs addByte (make t) s ∧
      (s ≠ [] → after addByte (make t) (encode ds ++ s) = after addByte (make t) s) := by
  obtain ⟨h1, h2, h3, h4⟩ := conforms_run (t := t) ht.layout hc
  rw [settled_make ht.first] at h1 h2 h3 h4
  have hlen := List.length_pos_iff.mpr (ht.encode_ne_nil hc)
  have ho : outputs addByte (make t) (encode ds) = answers ds := by
    obtain ⟨n, hn⟩ : ∃ n, (encode ds).length = n + 1 := ⟨_, (Nat.succ_pred_eq_of_pos hlen).symm⟩
    rw [hn, List.replicate_succ, List.cons_append, List.cons.injEq] at h1
    rw [h1.2, answers, hn]
    rfl
  have hrun : ∀ b, addByte (after addByte (make t) (encode ds)) b = addByte (make t) b := by
    intro b
    rw [addByte_of_empty h2 h3, h4]
  rw [outputs_append, after_append, ho]
  cases s with
  | nil => exact ⟨by simp, fun h => absurd rfl h⟩
  | cons b s => simp [hrun b]

/-- **Completeness.** Conforming packets, one after the other. -/
theorem outputs_packets (ht : PlainTemplate t) {ps : List (List FieldData)}
    (hps : ∀ p ∈ ps, Conforming t p) (s : Bytes) :
    outputs addByte (make t) (ps.flatMap encode ++ s) =
      ps.flatMap answers ++ outputs addByte (make t) s := by
  induction ps with
  | nil => rfl
  | cons p ps ih =>
    have h1 := (ht.outputs_packet (hps p (.head _)) (ps.flatMap encode ++ s)).1
    rw [ih fun q hq => hps q (.tail _ hq)] at h1
    simpa using h1

/-- **Soundness.** A run without exceptions is made of conforming packets and the start of one. -/
theorem packets_of_allReturn (ht : PlainTemplate t) {s : Bytes} (hok : AllReturn (make t) s) :
    ∃ (ps : List (List FieldData)) (rest : Bytes),
      (∀ p ∈ ps, Conforming t p) ∧ s = ps.flatMap encode ++ rest ∧
      outputs addByte (make t) s = ps.flatMap answers ++ List.replicate rest.length (.ok none) ∧
      (rest ≠ [] → packetDataToBuffer (after addByte (make t) s).currentPacket ++
        (after addByte (make t) s).currentMessageBuffer = rest) := by
  -- induction on the length: each packet takes at least one byte
  induction hn : s.length using Nat.strong_induction_on generalizing s with
  | _ n ih =>
    have hs := run_conforms (t := t) (s := s) ht.layout ht.noHeader
    rw [settled_make ht.first] at hs
    rcases hs (List.forall_mem_cons.mpr ⟨⟨none, rfl⟩, hok⟩) with ⟨ds, s', rfl, hc⟩ | ⟨p1, -, p3⟩
    · obtain ⟨h1, h2⟩ := ht.outputs_packet hc s'
      have hlen := List.length_pos_iff.mpr (ht.encode_ne_nil hc)
      rw [AllReturn, h1, List.forall_mem_append] at hok
      obtain ⟨ps, rest, q1, q2, q3, q4⟩ := ih s'.length
        (by rw [← hn, List.length_append]; omega) hok.2 rfl
      refine ⟨ds :: ps, rest, List.forall_mem_cons.mpr ⟨hc, q1⟩, ?_, ?_, fun hr => ?_⟩
      · rw [q2]; simp
      · rw [h1, q3]; simp
      · have hne : s' ≠ [] := by rw [q2]; simp [hr]
        rw [h2 hne]
        exact q4 hr
    · refine ⟨[], s, by simp, rfl, ?_, fun _ => by simpa [delivered] using p3⟩
      rw [List.length_cons, List.replicate_succ, List.cons.injEq] at p1
      simpa using p1.2

end PlainTemplate

/-- **The dissector accepts exactly the grammar of its template, packet after packet.** The bytes
of conforming field lists are answered by exactly these packets, each at its last byte, and the
run goes on as a new one; and the stream of a run without exceptions is made of the bytes of
conforming field lists, each delivered at its last byte, and of the bytes that the packet in
progress and the buffer hold. -/
theorem addByte_accepts_grammar {t : PacketDescriptor} (ht : PlainTemplate t) :
    (∀ (ps : List (List FieldData)) (s : Bytes), (∀ p ∈ ps, Conforming t p) →
      outputs addByte (make t) (ps.flatMap encode ++ s) =
        ps.flatMap answers ++ outputs addByte (make t) s) ∧
    (∀ s : Bytes, AllReturn (make t) s →
      ∃ (ps : List (List FieldData)) (rest : Bytes),
        (∀ p ∈ ps, Conforming t p) ∧ s = ps.flatMap encode ++ rest ∧
        outputs addByte (make t) s =
          ps.flatMap answers ++ List.replicate rest.length (.ok none) ∧
        (rest ≠ [] → packetDataToBuffer (after addByte (make t) s).currentPacket ++
          (after addByte (make t) s).currentMessageBuffer = rest)) :=
  ⟨fun _ s hps => ht.outputs_packets hps s, fun _ hok => ht.packets_of_allReturn hok⟩

/-- A size, the data that it counts, and a checksum that a packet without data leaves out. -/
def sizedTemplate : PacketDescriptor where
  fields := [
    { name := lit "SIZE", size := 1, determinesSizeOf := lit "DATA",
      sizeDeterminesExistenceOf := lit "CRC" },
    { name := lit "DATA" },
    { name := lit "CRC", size := 1 }]

theorem plainTemplate_sizedTemplate : PlainTemplate sizedTemplate where
  noHeader := by decide
  noCallback := by simp [sizedTemplate]
  distinct := by decide
  first := ⟨_, _, rfl, by decide⟩

/-- Two packets, one with data and one without, and the first byte of a third. -/
theorem addByte_accepts_grammar_sized :
    outputs addByte (make sizedTemplate) [2, 7, 8, 9, 0, 1] = [.ok none, .ok none, .ok none,
      .ok (some { fields := [⟨lit "SIZE", [2]⟩, ⟨lit "DATA", [7, 8]⟩, ⟨lit "CRC", [9]⟩] }),
      .ok (some { fields := [⟨lit "SIZE", [0]⟩, ⟨lit "DATA", []⟩] }), .ok none] := by
  have h1 : Conforming sizedTemplate
      [⟨lit "SIZE", [2]⟩, ⟨lit "DATA", [7, 8]⟩, ⟨lit "CRC", [9]⟩] := by
    refine .present (by decide) (by decide) (fun _ => ⟨by decide, by decide, ?_, by decide⟩) ?_
    · exact fun _ => ⟨_, .head _, by decide, by decide⟩
    refine .present (by decide) (by decide)
      (fun _ => ⟨by decide, by decide, by decide, by decide⟩) ?_
    refine .present (by decide) (by decide)
      (fun _ => ⟨by decide, by decide, by decide, by decide⟩) ?_
    exact .nil _
  have h2 : Conforming sizedTemplate [⟨lit "SIZE", [0]⟩, ⟨lit "DATA", []⟩] := by
    refine .present (by decide) (by decide) (fun _ => ⟨by decide, by decide, ?_, ?_⟩) ?_
    · exact fun _ => ⟨_, .head _, by decide, by decide⟩
    · exact fun _ _ => ⟨_, .tail _ (.head _), by decide, by decide⟩
    refine .present (by decide) (by decide) (fun h => absurd rfl h) ?_
    exact .removed (by decide) (.nil _)
  have hrun := (addByte_accepts_grammar plainTemplate_sizedTemplate).1
    [_, _] [1] (List.forall_mem_cons.mpr ⟨h1, List.forall_mem_singleton.mpr h2⟩)
  exact hrun

end Protos

import ProtoTools.Lib.Window
import ProtoTools.Dissection.Chunks
import ProtoTools.Dissection.Streaming

/-!
# Reading a packet in one go

What `addByte` does byte by byte, as one pass over a stream: each field takes its bytes, and a
header field looks for its first occurrence. Header fields may stand anywhere in the template.

* `readFields`, `readPacket`: the pass over the fields of a packet. `Reading` is what it ends with.
* `run_more`, `run_field_bytes`: the calls of `addByte` on the bytes of one field.
* `run_reads`: the calls of `addByte` from a settled state are those that the pass says.
* `addByte_reads`: so are those of a whole stream, packet after packet.
-/

namespace Protos

open Machine Window GenericDissector

/-! ## The pass -/

/-- What the pass over a packet ends with. -/
inductive Reading where
  /-- The stream ends within the packet. -/
  | more
  /-- The fields of the packet, and the stream after it. -/
  | packet (fields : List FieldData) (rest : Bytes)
  /-- The last field that was read breaks a rule. -/
  | broken (rest : Bytes)
  deriving DecidableEq, Repr

instance (h : History) (f : FieldDescriptor) (v : Bytes) (fs : List FieldDescriptor) :
    Decidable (FieldOk h f v fs) :=
  decidable_of_iff
    ((f.isHeaderValue = true → f.value = v) ∧
      (f.determinesSizeOf ≠ [] ∨ f.sizeDeterminesExistenceOf ≠ [] →
        v.length = 1 ∨ v.length = 2 ∨ v.length = 4 ∨ v.length = 8) ∧
      (f.determinesSizeOf ≠ [] → ∃ g ∈ fs, g.name = f.determinesSizeOf ∧ removed h g = false) ∧
      (f.sizeDeterminesExistenceOf ≠ [] → fieldNumber v = 0 →
        ∃ g ∈ fs, g.name = f.sizeDeterminesExistenceOf ∧ removed h g = false))
    ⟨fun ⟨h1, h2, h3, h4⟩ => ⟨h1, h2, h3, h4⟩, fun ⟨h1, h2, h3, h4⟩ => ⟨h1, h2, h3, h4⟩⟩

/-- The bytes of a field that has some, and the stream after them. A header field looks for its
value, which never comes when it has another size. -/
def readField (h : History) (f : FieldDescriptor) (s : Bytes) : Option (Bytes × Bytes) :=
  if f.isHeaderValue then
    if f.value.length = effectiveSize h f then (seek f.value s).map (f.value, ·) else none
  else if effectiveSize h f ≤ s.length then
    some (s.take (effectiveSize h f), s.drop (effectiveSize h f))
  else none

/-- The fields after those of the history. -/
def readFields : History → List FieldDescriptor → Bytes → Reading
  | h, [], s => .packet (delivered h) s
  | h, f :: fs, s =>
    if removed h f then readFields h fs s
    else if effectiveSize h f = 0 then readFields ((f, []) :: h) fs s
    else
      match readField h f s with
      | none => .more
      | some (v, rest) =>
        if FieldOk h f v fs then readFields ((f, v) :: h) fs rest else .broken rest

def readPacket (t : PacketDescriptor) (s : Bytes) : Reading := readFields [] t.fields s

/-- The packets at the start of a stream, at most `n`. -/
def readPackets (t : PacketDescriptor) : Nat → Bytes → List (List FieldData)
  | 0, _ => []
  | n + 1, s =>
    match readPacket t s with
    | .packet ds rest => ds :: readPackets t n rest
    | _ => []

/-! ## The bytes of one field -/

section Field

variable {t : PacketDescriptor} {h : History} {f : FieldDescriptor} {fs : List FieldDescriptor}

/-- A header field that has not occurred: the buffer is the window. -/
theorem run_searching (hl : Layout h (f :: fs)) (hr : removed h f = false)
    (hh : f.isHeaderValue = true) (hn : effectiveSize h f ≠ 0) {s : Bytes}
    (hno : ∀ k, ¬ (f.value.length = effectiveSize h f ∧ OccursAt f.value s k)) :
    outputs addByte (stateOf t h (f :: fs) []) s = List.replicate s.length (.ok none) ∧
      after addByte (stateOf t h (f :: fs) []) s =
        stateOf t h (f :: fs) (last (effectiveSize h f - 1) s) := by
  induction s using List.reverseRecOn with
  | nil => exact ⟨rfl, by rw [last_nil]; rfl⟩
  | append_singleton s b ih =>
    obtain ⟨h1, h2⟩ := ih fun k hk => hno k ⟨hk.1, hk.2.append [b]⟩
    have hstep : (stateOf t h (f :: fs) (last (effectiveSize h f - 1) s)).addByte b =
        (.ok none, stateOf t h (f :: fs) (last (effectiveSize h f - 1) (s ++ [b]))) := by
      by_cases hlen : s.length < effectiveSize h f - 1
      · rw [addByte_stateOf_waits hl hr (by rw [length_last]; omega), last_concat_of_lt hlen]
      · have hv : f.value ≠ last (effectiveSize h f - 1) s ++ [b] := by
          intro e
          have hlv : f.value.length = effectiveSize h f - 1 + 1 := by
            rw [e, List.length_append, length_last, List.length_singleton]
            omega
          exact hno _ ⟨by omega, (occursAt_concat hlv (by omega) b).mpr e⟩
        rw [addByte_stateOf_drops hl hr (by rw [length_last]; omega) hh hv,
          last_concat_tail (by omega)]
    rw [outputs_append, after_append, h1, h2]
    simp [hstep, ← List.replicate_succ']

/-- A stream that the field does not end in is answered by `nullopt`. -/
theorem run_more (hl : Layout h (f :: fs)) (hr : removed h f = false) (hn : effectiveSize h f ≠ 0)
    {s : Bytes} (hs : readField h f s = none) :
    outputs addByte (stateOf t h (f :: fs) []) s = List.replicate s.length (.ok none) := by
  unfold readField at hs
  split at hs
  · rename_i hh
    refine (run_searching hl hr hh hn fun k hk => ?_).1
    rw [if_pos hk.1, Option.map_eq_none_iff] at hs
    exact seek_none hs k hk.2
  · split at hs
    · cases hs
    · rename_i hlt
      exact (run_starts hl hr (by omega)).1

/-- **One field.** The calls before the last byte of the field return `nullopt`, and leave the
other bytes of its value in the buffer. -/
theorem run_field_bytes (hl : Layout h (f :: fs)) (hr : removed h f = false)
    (hn : effectiveSize h f ≠ 0) {s v rest : Bytes} (hs : readField h f s = some (v, rest)) :
    ∃ u w b, s = u ++ b :: rest ∧ v = w ++ [b] ∧ w.length + 1 = effectiveSize h f ∧
      (f.isHeaderValue = true → f.value = v) ∧
      outputs addByte (stateOf t h (f :: fs) []) u = List.replicate u.length (.ok none) ∧
      after addByte (stateOf t h (f :: fs) []) u = stateOf t h (f :: fs) w := by
  unfold readField at hs
  split at hs
  · rename_i hh
    split at hs
    · rename_i hlen
      obtain ⟨ys, hseek, he⟩ := Option.map_eq_some_iff.mp hs
      cases he
      obtain ⟨g, rfl, hfirst⟩ := seek_some hseek
      have hne : f.value ≠ [] := fun e => hn (by rw [← hlen, e]; rfl)
      obtain ⟨w, b, hw⟩ : ∃ w b, f.value = w ++ [b] :=
        ⟨_, _, (List.dropLast_concat_getLast hne).symm⟩
      have hwlen : w.length + 1 = effectiveSize h f := by rw [← hlen, hw]; simp
      -- the header does not occur before its last byte
      have hno : ∀ k, ¬ (f.value.length = effectiveSize h f ∧ OccursAt f.value (g ++ w) k) := by
        rintro k ⟨-, hk⟩
        have hle := hk.length_le hne
        have hall := hk.append (b :: rest)
        rw [List.append_assoc, ← List.singleton_append, ← List.append_assoc w, ← hw] at hall
        rw [List.length_append] at hle
        exact hfirst k (by omega) hall
      obtain ⟨h1, h2⟩ := run_searching (t := t) hl hr hh hn hno
      refine ⟨g ++ w, w, b, by simp [hw], hw, hwlen, fun _ => rfl, h1, ?_⟩
      rw [h2, last_eq_drop (k := g.length) (by rw [List.length_append]; omega), List.drop_left]
    · cases hs
  · rename_i hh
    split at hs
    · rename_i hle
      cases hs
      have hne : s.take (effectiveSize h f) ≠ [] := by
        rw [← List.length_pos_iff, List.length_take]
        omega
      obtain ⟨w, b, hw⟩ : ∃ w b, s.take (effectiveSize h f) = w ++ [b] :=
        ⟨_, _, (List.dropLast_concat_getLast hne).symm⟩
      have hwlen : w.length + 1 = effectiveSize h f := by
        have := congrArg List.length hw
        rw [List.length_take, List.length_append, List.length_singleton] at this
        omega
      obtain ⟨h1, h2⟩ := run_starts (t := t) (u := w) hl hr (by omega)
      refine ⟨w, w, b, ?_, hw, hwlen, fun h => absurd h hh, h1, h2⟩
      rw [← List.singleton_append, ← List.append_assoc, ← hw, List.take_append_drop]
    · cases hs

end Field

/-! ## A packet -/

/-- The answers `os` to a stream, after one that leaves a settled state, are those that the pass
says: `nullopt` up to the last byte that the pass reads, which gets the packet or throws. -/
def Follows (t : PacketDescriptor) (s : Bytes) (os : List (Except Fault (Option PacketData))) :
    Reading → Prop
  | .more => os = List.replicate (s.length + 1) (.ok none)
  | .packet ds rest => ∃ used, s = used ++ rest ∧ os = List.replicate used.length (.ok none) ++
      .ok (some { fields := ds }) :: outputs addByte (make t) rest
  | .broken rest => ∃ used what d, s = used ++ rest ∧ os =
      List.replicate used.length (.ok none) ++ .error (.runtimeError what) :: outputs addByte d rest

section Packet

variable {t : PacketDescriptor} {h : History} {fs : List FieldDescriptor}

/-- The bytes of a field come before those of the fields after it. -/
theorem Follows.cons_field {s : Bytes} {os : List (Except Fault (Option PacketData))} {r : Reading}
    (hf : Follows t s os r) (v : Bytes) :
    Follows t (v ++ s) (List.replicate v.length (.ok none) ++ os) r := by
  cases r with
  | more =>
    rw [Follows] at hf ⊢
    rw [hf, List.replicate_append_replicate, List.length_append, Nat.add_assoc]
  | packet ds rest =>
    obtain ⟨used, rfl, rfl⟩ := hf
    refine ⟨v ++ used, by rw [List.append_assoc], ?_⟩
    rw [← List.append_assoc, List.replicate_append_replicate, List.length_append]
  | broken rest =>
    obtain ⟨used, what, d, rfl, rfl⟩ := hf
    refine ⟨v ++ used, what, d, by rw [List.append_assoc], ?_⟩
    rw [← List.append_assoc, List.replicate_append_replicate, List.length_append]

/-- **The fields of a packet.** The induction is on the fields still to come. -/
theorem run_reads (hl : Layout h fs) (s : Bytes) :
    Follows t s ((settled t h fs).1 :: outputs addByte (settled t h fs).2 s)
      (readFields h fs s) := by
  induction fs generalizing h s with
  | nil =>
    refine ⟨[], rfl, ?_⟩
    rw [settled_nil]
    cases s with
    | nil => rfl
    | cons b s =>
      have hb : (stateOf t h [] []).addByte b = (make t).addByte b := addByte_of_empty rfl rfl b
      rw [outputs_cons, outputs_cons, hb]
      rfl
  | cons f fs ih =>
    rw [readFields]
    cases hr : removed h f with
    | true =>
      rw [settled_removed hr, if_pos rfl]
      exact ih hl.tail s
    | false =>
      rw [if_neg Bool.false_ne_true]
      by_cases hn : effectiveSize h f = 0
      · rw [settled_empty hl hr hn, if_pos hn]
        exact ih (hl.deliver []) s
      · rw [settled_present hr hn, if_neg hn]
        cases hread : readField h f s with
        | none =>
          show _ = _
          rw [run_more hl hr hn hread]
          rfl
        | some r =>
          obtain ⟨v, rest⟩ := r
          obtain ⟨u, w, b, rfl, rfl, hlen, hheader, h1, h2⟩ :=
            run_field_bytes (t := t) hl hr hn hread
          have houts : (.ok none :: outputs addByte (stateOf t h (f :: fs) []) (u ++ b :: rest) :
              List (Except Fault (Option PacketData))) =
              List.replicate (u ++ [b]).length (.ok none) ++
                outputs addByte (stateOf t h (f :: fs) w) (b :: rest) := by
            rw [outputs_append, h1, h2, List.length_append, List.length_singleton,
              List.replicate_succ]
            rfl
          simp only
          rw [houts, outputs_cons]
          by_cases hok : FieldOk h f (w ++ [b]) fs
          · have hfield := (ih (hl.deliver (w ++ [b])) rest).cons_field (u ++ [b])
            rw [if_pos hok, addByte_stateOf_completes hl hr hlen hok]
            simpa using hfield
          · obtain ⟨what, d, hthrow⟩ :=
              addByte_stateOf_throws (t := t) hl hr hlen hheader hok
            rw [if_neg hok, hthrow]
            exact ⟨u ++ [b], what, d, by simp, rfl⟩

end Packet

/-! ## A stream -/

/-- No callback, distinct names, and a first field with a size. Header fields may stand
anywhere. -/
structure MarkedTemplate (t : PacketDescriptor) : Prop where
  noCallback : ∀ f ∈ t.fields, f.externalSizeCalculation = none
  distinct : (t.fields.map (·.name)).Nodup
  first : ∃ f fs, t.fields = f :: fs ∧ f.size ≠ 0

/-- The answers of a new object to the stream are those that the pass says. -/
def AnsweredAs (t : PacketDescriptor) (s : Bytes) : Reading → Prop
  | .more => outputs addByte (make t) s = List.replicate s.length (.ok none)
  | .packet ds rest => ∃ used, used ≠ [] ∧ s = used ++ rest ∧
      outputs addByte (make t) s = List.replicate (used.length - 1) (.ok none) ++
        .ok (some { fields := ds }) :: outputs addByte (make t) rest
  | .broken rest => ∃ used what d, used ≠ [] ∧ s = used ++ rest ∧
      outputs addByte (make t) s = List.replicate (used.length - 1) (.ok none) ++
        .error (.runtimeError what) :: outputs addByte d rest

section Stream

variable {t : PacketDescriptor} {s : Bytes}

theorem replicate_cons_inj {α : Type*} {a b : α} (hab : a ≠ b) {n : Nat} {xs ys : List α}
    (h : a :: xs = List.replicate n a ++ b :: ys) :
    0 < n ∧ xs = List.replicate (n - 1) a ++ b :: ys := by
  cases n with
  | zero =>
    rw [List.replicate_zero, List.nil_append, List.cons.injEq] at h
    exact absurd h.1 hab
  | succ n =>
    rw [List.replicate_succ, List.cons_append, List.cons.injEq] at h
    exact ⟨Nat.succ_pos n, h.2⟩

theorem packetsOf_replicate (n : Nat) :
    packetsOf (List.replicate n (.ok none)) = [] := by
  induction n with
  | zero => rfl
  | succ n ih => rw [List.replicate_succ, packetsOf_cons_none, ih]

namespace MarkedTemplate

theorem layout (ht : MarkedTemplate t) : Layout [] t.fields where
  plain := ht.noCallback
  names := .inr ⟨fun _ hL => absurd hL List.not_mem_nil, ht.distinct⟩

/-- **One packet** of the stream. -/
theorem answered (ht : MarkedTemplate t) (s : Bytes) : AnsweredAs t s (readPacket t s) := by
  have hrun := run_reads (t := t) ht.layout s
  rw [settled_make ht.first] at hrun
  unfold readPacket
  cases hread : readFields [] t.fields s with
  | more =>
    rw [hread, Follows, List.replicate_succ, List.cons.injEq] at hrun
    exact hrun.2
  | packet ds rest =>
    rw [hread] at hrun
    obtain ⟨used, hs, hos⟩ := hrun
    obtain ⟨hpos, hos⟩ := replicate_cons_inj (by simp) hos
    exact ⟨used, List.length_pos_iff.mp hpos, hs, hos⟩
  | broken rest =>
    rw [hread] at hrun
    obtain ⟨used, what, d, hs, hos⟩ := hrun
    obtain ⟨hpos, hos⟩ := replicate_cons_inj (by simp) hos
    exact ⟨used, what, d, List.length_pos_iff.mp hpos, hs, hos⟩

/-- The packets that the calls deliver are those that the pass reads, one after the other. -/
theorem packets_read (ht : MarkedTemplate t) {n : Nat} (hn : s.length ≤ n)
    (hok : AllReturn (make t) s) :
    packetsOf (outputs addByte (make t) s) =
      (readPackets t n s).map fun ds => { fields := ds } := by
  induction n generalizing s with
  | zero =>
    rw [List.length_eq_zero_iff.mp (Nat.le_zero.mp hn)]
    rfl
  | succ n ih =>
    have hans := ht.answered s
    rw [readPackets]
    cases hread : readPacket t s with
    | more =>
      rw [hread] at hans
      rw [show outputs addByte (make t) s = _ from hans, packetsOf_replicate]
      rfl
    | packet ds rest =>
      rw [hread] at hans
      obtain ⟨used, hne, rfl, hos⟩ := hans
      have hpos := List.length_pos_iff.mpr hne
      rw [AllReturn, hos, List.forall_mem_append, List.forall_mem_cons] at hok
      rw [List.length_append] at hn
      rw [hos, packetsOf_append, packetsOf_replicate, packetsOf_cons_some,
        ih (by omega) hok.2.2]
      rfl
    | broken rest =>
      rw [hread] at hans
      obtain ⟨used, what, d, -, -, hos⟩ := hans
      rw [AllReturn, hos, List.forall_mem_append, List.forall_mem_cons] at hok
      obtain ⟨r, hr⟩ := hok.2.1
      cases hr

end MarkedTemplate

/-- **The dissector reads the stream as one pass per packet does.** A call returns `nullopt` until
the last byte that the pass over the packet reads. This byte gets the packet, and the next one
starts a new packet; or it gets an exception, when its field breaks a rule. So the packets of a run
without exceptions are those that the passes read. -/
theorem addByte_reads (ht : MarkedTemplate t) (s : Bytes) :
    AnsweredAs t s (readPacket t s) ∧
      (AllReturn (make t) s → packetsOf (outputs addByte (make t) s) =
        (readPackets t s.length s).map fun ds => { fields := ds }) :=
  ⟨ht.answered s, ht.packets_read (Nat.le_refl _)⟩

/-- A length, a marker behind the data that it counts, and a checksum. -/
def markedTemplate : PacketDescriptor where
  fields := [
    { name := lit "SIZE", size := 1, determinesSizeOf := lit "DATA" },
    { name := lit "DATA" },
    { name := lit "MARK", size := 2, value := [0xAA, 0xBB], isHeaderValue := true },
    { name := lit "CRC", size := 1 }]

theorem marked_markedTemplate : MarkedTemplate markedTemplate where
  noCallback := by simp [markedTemplate]
  distinct := by decide
  first := ⟨_, _, rfl, by decide⟩

/-- Garbage before the marker, with the first byte of it twice. -/
theorem addByte_reads_marked :
    outputs addByte (make markedTemplate) [1, 7, 9, 0xAA, 0xAA, 0xBB, 5, 2] =
      List.replicate 6 (.ok none) ++ [.ok (some { fields := [⟨lit "SIZE", [1]⟩, ⟨lit "DATA", [7]⟩,
        ⟨lit "MARK", [0xAA, 0xBB]⟩, ⟨lit "CRC", [5]⟩] }), .ok none] := by
  have hread : readPacket markedTemplate [1, 7, 9, 0xAA, 0xAA, 0xBB, 5, 2] =
      .packet [⟨lit "SIZE", [1]⟩, ⟨lit "DATA", [7]⟩, ⟨lit "MARK", [0xAA, 0xBB]⟩,
        ⟨lit "CRC", [5]⟩] [2] := by decide
  have hans := (addByte_reads marked_markedTemplate [1, 7, 9, 0xAA, 0xAA, 0xBB, 5, 2]).1
  rw [hread] at hans
  obtain ⟨used, -, hs, hos⟩ := hans
  obtain rfl : used = [1, 7, 9, 0xAA, 0xAA, 0xBB, 5] := List.append_cancel_right hs.symm
  exact hos

/-! ## The pass undoes the encoding -/

/-- The pass over the bytes of a conforming field list, header fields included. -/
theorem readFields_encode {h : History} {fs : List FieldDescriptor} {ds : List FieldData}
    (hc : Conforms h fs ds) (s : Bytes) :
    readFields h fs (encode ds ++ s) = .packet (delivered h ++ ds) s := by
  induction hc with
  | nil h => simp [readFields]
  | removed hr _ ih => rw [readFields, if_pos hr, ih]
  | @present h f v fs ds hr hv hok _ ih =>
    rw [readFields, hr, if_neg Bool.false_ne_true, encode_cons, List.append_assoc, ← hv]
    rw [delivered_cons, List.append_assoc, List.singleton_append] at ih
    by_cases hne : v = []
    · subst hne
      rw [if_pos List.length_nil, List.nil_append, ih]
    · have hfield := hok hne
      have hread : readField h f (v ++ (encode ds ++ s)) = some (v, encode ds ++ s) := by
        unfold readField
        split
        · rename_i hh
          have hseek : seek v (v ++ (encode ds ++ s)) = some (encode ds ++ s) :=
            seek_first (g := []) fun k hk => absurd hk (Nat.not_lt_zero k)
          rw [hfield.header hh, if_pos hv, hseek]
          rfl
        · rw [← hv, if_pos (by simp), List.take_left, List.drop_left]
      rw [if_neg (fun hl => hne (List.length_eq_zero_iff.mp hl)), hread]
      simp only
      rw [if_pos hfield, ih]

theorem readPacket_encode {ds : List FieldData} (hc : Conforming t ds) (s : Bytes) :
    readPacket t (encode ds ++ s) = .packet ds s := readFields_encode hc s

/-- No packet is read from nothing. -/
theorem readPacket_nil (hfirst : ∃ f fs, t.fields = f :: fs ∧ f.size ≠ 0) :
    readPacket t [] = .more := by
  obtain ⟨f, fs, hf, hz⟩ := hfirst
  have hn : f.size.toNat ≠ 0 := fun e => hz (UInt16.toNat_inj.mp e)
  have hread : readField [] f [] = none := by
    unfold readField
    rw [effectiveSize_nil]
    split
    · split
      · rename_i hlen
        have hv : f.value ≠ [] := fun e => hn (by rw [← hlen, e]; rfl)
        rw [seek, if_neg hv]
        rfl
      · rfl
    · exact if_neg fun hle => hn (Nat.le_zero.mp hle)
  rw [readPacket, hf, readFields, if_neg (show ¬ removed [] f = true from Bool.false_ne_true),
    effectiveSize_nil, if_neg hn, hread]

theorem MarkedTemplate.encode_ne_nil (ht : MarkedTemplate t) {ds : List FieldData}
    (hc : Conforming t ds) : encode ds ≠ [] := by
  intro e
  have hread := readPacket_encode hc []
  rw [e, List.nil_append, readPacket_nil ht.first] at hread
  cases hread

/-- Two packets at the start of one stream are the same. -/
theorem conforming_unique {ds es : List FieldData} (hd : Conforming t ds) (he : Conforming t es)
    {s s' : Bytes} (h : encode ds ++ s = encode es ++ s') : ds = es ∧ s = s' := by
  have hread := readPacket_encode hd s
  rw [h, readPacket_encode he s', Reading.packet.injEq] at hread
  exact ⟨hread.1.symm, hread.2.symm⟩

/-- The calls on the bytes of conforming packets, one after the other. -/
theorem MarkedTemplate.outputs_packets (ht : MarkedTemplate t) {ps : List (List FieldData)}
    (hps : ∀ p ∈ ps, Conforming t p) (s : Bytes) :
    outputs addByte (make t) (ps.flatMap encode ++ s) =
      ps.flatMap answers ++ outputs addByte (make t) s := by
  induction ps with
  | nil => rfl
  | cons p ps ih =>
    rw [List.forall_mem_cons] at hps
    have hans := ht.answered (encode p ++ (ps.flatMap encode ++ s))
    rw [readPacket_encode hps.1] at hans
    obtain ⟨used, -, hs, hos⟩ := hans
    obtain rfl := List.append_cancel_right hs
    rw [List.flatMap_cons, List.flatMap_cons, List.append_assoc, hos, ih hps.2, answers]
    simp

/-- **Streams of packets are uniquely decodable**, header fields or not. The bytes of conforming
packets deliver exactly these packets, each at its last byte; and a stream of packets that begins
with the bytes of others begins with these packets. -/
theorem packets_decodable (ht : MarkedTemplate t) {ps : List (List FieldData)}
    (hps : ∀ p ∈ ps, Conforming t p) :
    (∀ s, outputs addByte (make t) (ps.flatMap encode ++ s) =
      ps.flatMap answers ++ outputs addByte (make t) s) ∧
    ∀ qs : List (List FieldData), (∀ q ∈ qs, Conforming t q) →
      (ps.flatMap encode <+: qs.flatMap encode ↔ ps <+: qs) := by
  refine ⟨ht.outputs_packets hps, fun qs hqs => ⟨fun hpre => ?_, fun hpre => ?_⟩⟩
  · induction ps generalizing qs with
    | nil => exact List.nil_prefix
    | cons p ps ih =>
      rw [List.forall_mem_cons] at hps
      obtain ⟨rest, hrest⟩ := hpre
      rw [List.flatMap_cons, List.append_assoc] at hrest
      cases qs with
      | nil =>
        rw [List.flatMap_nil, List.append_eq_nil_iff] at hrest
        exact absurd hrest.1 (ht.encode_ne_nil hps.1)
      | cons q qs =>
        rw [List.forall_mem_cons] at hqs
        rw [List.flatMap_cons] at hrest
        obtain ⟨rfl, htail⟩ := conforming_unique hps.1 hqs.1 hrest
        exact List.cons_prefix_cons.mpr ⟨rfl, ih hps.2 qs hqs.2 ⟨rest, htail⟩⟩
  · obtain ⟨rest, rfl⟩ := hpre
    rw [List.flatMap_append]
    exact List.prefix_append _ _

/-- A packet of the template with the marker. -/
def markedPacket : List FieldData :=
  [⟨lit "SIZE", [1]⟩, ⟨lit "DATA", [7]⟩, ⟨lit "MARK", [0xAA, 0xBB]⟩, ⟨lit "CRC", [5]⟩]

theorem conforming_markedPacket : Conforming markedTemplate markedPacket := by
  refine .present (by decide) (by decide) (fun _ => by decide) ?_
  refine .present (by decide) (by decide) (fun _ => by decide) ?_
  refine .present (by decide) (by decide) (fun _ => by decide) ?_
  refine .present (by decide) (by decide) (fun _ => by decide) ?_
  exact .nil _

theorem packets_decodable_marked :
    outputs addByte (make markedTemplate) [1, 7, 0xAA, 0xBB, 5, 1] =
        List.replicate 4 (.ok none) ++ [.ok (some { fields := markedPacket }), .ok none] ∧
      ([markedPacket].flatMap encode <+: [markedPacket, markedPacket].flatMap encode ↔
        [markedPacket] <+: [markedPacket, markedPacket]) := by
  have hps : ∀ p ∈ [markedPacket], Conforming markedTemplate p :=
    List.forall_mem_singleton.mpr conforming_markedPacket
  obtain ⟨h1, h2⟩ := packets_decodable marked_markedTemplate hps
  refine ⟨h1 [1], h2 _ ?_⟩
  exact List.forall_mem_cons.mpr ⟨conforming_markedPacket, hps⟩

end Stream

end Protos

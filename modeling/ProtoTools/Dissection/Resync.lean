import ProtoTools.Dissection.Reading

/-!
# How long a packet takes, and how the dissector finds the next one

* `longest t`: no packet takes more bytes. `readFields_more`, `readFields_packet`: the pass over
  fields that are no headers.
* `last_boundary`: what the dissector does with the stream after `u` is what it does after the part
  of `u` behind its last packet.
* `delivers_within`: without headers, every window of `longest t` bytes delivers a packet.
* `LockedTemplate`: the first field is a header, and no other one. `packets_after_garbage`: packets
  behind garbage that their header does not occur in.
* `resynchronises`: from every state, at most one packet is wrong before the packets of the stream
  are delivered, and only packets that start within `longest t` bytes are lost.
-/

namespace Protos

open Machine Window GenericDissector

/-- The bytes that a packet takes at most. -/
def longest (t : PacketDescriptor) : Nat := 65535 * t.fields.length

/-! ## The length of a packet -/

section Length

variable {h : History} {f : FieldDescriptor} {fs : List FieldDescriptor} {s rest : Bytes}
  {ds : List FieldData}

theorem readField_plain (hh : f.isHeaderValue = false) {v : Bytes}
    (hs : readField h f s = some (v, rest)) : s = v ++ rest ∧ v.length ≤ 65535 := by
  have hlt := effectiveSize_lt h f
  rw [readField, if_neg (by simp [hh])] at hs
  split at hs
  · rename_i hle
    cases hs
    exact ⟨(List.take_append_drop _ s).symm, by rw [List.length_take]; omega⟩
  · cases hs

/-- A stream that ends within a packet is shorter than the packet can be. -/
theorem readFields_more (hh : ∀ g ∈ fs, g.isHeaderValue = false)
    (hs : readFields h fs s = .more) : s.length < 65535 * fs.length := by
  induction fs generalizing h s with
  | nil => cases hs
  | cons f fs ih =>
    rw [List.forall_mem_cons] at hh
    rw [readFields] at hs
    rw [List.length_cons]
    split at hs
    · have := ih hh.2 hs
      omega
    · split at hs
      · have := ih hh.2 hs
        omega
      · split at hs
        · rename_i hread
          have hlt := effectiveSize_lt h f
          rw [readField, if_neg (by simp [hh.1])] at hread
          split at hread
          · cases hread
          · omega
        · rename_i v rest hread
          obtain ⟨rfl, hv⟩ := readField_plain hh.1 hread
          split at hs
          · have := ih hh.2 hs
            rw [List.length_append]
            omega
          · cases hs

theorem readFields_packet (hh : ∀ g ∈ fs, g.isHeaderValue = false)
    (hs : readFields h fs s = .packet ds rest) :
    ∃ used, s = used ++ rest ∧ used.length ≤ 65535 * fs.length := by
  induction fs generalizing h s with
  | nil =>
    cases hs
    exact ⟨[], rfl, Nat.zero_le _⟩
  | cons f fs ih =>
    rw [List.forall_mem_cons] at hh
    rw [readFields] at hs
    rw [List.length_cons]
    split at hs
    · obtain ⟨used, rfl, hle⟩ := ih hh.2 hs
      exact ⟨used, rfl, by omega⟩
    · split at hs
      · obtain ⟨used, rfl, hle⟩ := ih hh.2 hs
        exact ⟨used, rfl, by omega⟩
      · split at hs
        · cases hs
        · rename_i v rest' hread
          obtain ⟨rfl, hv⟩ := readField_plain hh.1 hread
          split at hs
          · obtain ⟨used, rfl, hle⟩ := ih hh.2 hs
            refine ⟨v ++ used, by rw [List.append_assoc], ?_⟩
            rw [List.length_append]
            omega
          · cases hs

end Length

/-! ## The last packet of a stream -/

section Boundary

variable {t : PacketDescriptor}

/-- After the byte that delivers a packet. -/
theorem atBoundary_of_packet {s : Bytes} {os : List (Except Fault (Option PacketData))}
    {p : PacketData} (h : outputs addByte (make t) s = os ++ [.ok (some p)]) :
    AtBoundary t (after addByte (make t) s) := by
  have hne : s ≠ [] := by
    rintro rfl
    simp at h
  obtain ⟨u, b, rfl⟩ : ∃ u b, s = u ++ [b] := ⟨_, _, (List.dropLast_concat_getLast hne).symm⟩
  rw [outputs_append, outputs_cons, outputs_nil] at h
  obtain ⟨-, hlast⟩ := List.append_inj' h rfl
  refine .inr ⟨packetTemplate_after _, after addByte (make t) u, b, p, ?_⟩
  rw [after_append]
  exact Prod.ext (List.cons.inj hlast).1 rfl

/-- What the dissector does next, it does after the bytes behind the last packet. -/
theorem last_boundary (ht : MarkedTemplate t) {u : Bytes} (hok : AllReturn (make t) u) :
    ∃ r, readPacket t r = .more ∧
      ∀ s, s ≠ [] → outputs addByte (after addByte (make t) u) s =
        outputs addByte (after addByte (make t) r) s := by
  induction hn : u.length using Nat.strong_induction_on generalizing u with
  | _ n ih =>
    have hans := ht.answered u
    cases hread : readPacket t u with
    | more => exact ⟨u, hread, fun s _ => rfl⟩
    | packet ds rest =>
      rw [hread] at hans
      obtain ⟨used, hne, rfl, hos⟩ := hans
      have hpos := List.length_pos_iff.mpr hne
      -- the packet is the answer to the last of these bytes
      have hused : outputs addByte (make t) used =
          List.replicate (used.length - 1) (.ok none) ++ [.ok (some { fields := ds })] := by
        rw [outputs_append, List.append_cons] at hos
        refine (List.append_inj hos ?_).1
        rw [length_outputs, List.length_append, List.length_replicate, List.length_singleton]
        omega
      have hbound := atBoundary_of_packet hused
      rw [List.length_append] at hn
      by_cases hrest : rest = []
      · subst hrest
        refine ⟨[], readPacket_nil ht.first, fun s hs => ?_⟩
        rw [List.append_nil, (hbound.run hs).1, after_nil]
      · have hok' : AllReturn (make t) rest := by
          rw [AllReturn, hos, List.forall_mem_append, List.forall_mem_cons] at hok
          exact hok.2.2
        obtain ⟨r, hmore, hr⟩ := ih rest.length (by omega) hok' rfl
        refine ⟨r, hmore, fun s hs => ?_⟩
        rw [after_append, (hbound.run hrest).2, hr s hs]
    | broken rest =>
      rw [hread] at hans
      obtain ⟨used, what, d, -, -, hos⟩ := hans
      rw [AllReturn, hos, List.forall_mem_append, List.forall_mem_cons] at hok
      obtain ⟨r, hr⟩ := hok.2.1
      cases hr

/-- The answers to the bytes behind the last packet, and to a stream after them. -/
theorem outputs_behind (ht : MarkedTemplate t) {r : Bytes} (hr : readPacket t r = .more)
    (s : Bytes) : outputs addByte (make t) (r ++ s) = List.replicate r.length (.ok none) ++
      outputs addByte (after addByte (make t) r) s := by
  have hans := ht.answered r
  rw [hr] at hans
  rw [outputs_append, show outputs addByte (make t) r = _ from hans]

/-- The first packet of the stream after them. -/
theorem packets_behind (ht : MarkedTemplate t) {r s : Bytes} (hr : readPacket t r = .more)
    (hok : AllReturn (after addByte (make t) r) s) :
    (readPacket t (r ++ s) = .more ∧
      packetsOf (outputs addByte (after addByte (make t) r) s) = []) ∨
    ∃ ds used rest, readPacket t (r ++ s) = .packet ds rest ∧ s = used ++ rest ∧ used ≠ [] ∧
      packetsOf (outputs addByte (after addByte (make t) r) s) =
        { fields := ds } :: packetsOf (outputs addByte (make t) rest) := by
  have hans := ht.answered (r ++ s)
  have hbehind := outputs_behind ht hr s
  have hpackets : packetsOf (outputs addByte (make t) (r ++ s)) =
      packetsOf (outputs addByte (after addByte (make t) r) s) := by
    rw [hbehind, packetsOf_append, packetsOf_replicate, List.nil_append]
  cases hread : readPacket t (r ++ s) with
  | more =>
    rw [hread] at hans
    refine .inl ⟨rfl, ?_⟩
    rw [← hpackets, show outputs addByte (make t) (r ++ s) = _ from hans, packetsOf_replicate]
  | packet ds rest =>
    rw [hread] at hans
    obtain ⟨used, hne, hs, hos⟩ := hans
    have hpos := List.length_pos_iff.mpr hne
    -- the packet ends behind `r`, whose bytes are all answered by `nullopt`
    have hlen : r.length < used.length := by
      by_contra hle
      have hsome : (outputs addByte (make t) (r ++ s))[used.length - 1]? =
          some (.ok (some { fields := ds })) := by
        rw [hos, List.getElem?_append_right (by simp)]
        simp
      rw [hbehind, List.getElem?_append_left (by simp; omega),
        List.getElem?_replicate, if_pos (by omega)] at hsome
      cases hsome
    obtain ⟨used', rfl⟩ : ∃ used', used = r ++ used' := by
      rcases List.append_eq_append_iff.mp hs with ⟨a, h, -⟩ | ⟨a, h, -⟩
      · exact ⟨a, h⟩
      · have := congrArg List.length h
        rw [List.length_append] at this
        omega
    rw [List.append_assoc] at hs
    refine .inr ⟨ds, used', rest, rfl, List.append_cancel_left hs, ?_, ?_⟩
    · rintro rfl
      simp at hlen
    · rw [← hpackets, hos, packetsOf_append, packetsOf_replicate, packetsOf_cons_some]
      rfl
  | broken rest =>
    rw [hread] at hans
    obtain ⟨used, what, d, -, -, hos⟩ := hans
    have hthrow : .error (.runtimeError what) ∈ outputs addByte (make t) (r ++ s) := by
      rw [hos]
      exact List.mem_append_right _ (.head _)
    rw [hbehind, List.mem_append] at hthrow
    rcases hthrow with hmem | hmem
    · cases List.eq_of_mem_replicate hmem
    · obtain ⟨o, ho⟩ := hok _ hmem
      cases ho

/-- **A packet is never starved.** Without headers, and as long as no call throws, every window of
`longest t` bytes delivers a packet, wherever in the stream it is. -/
theorem delivers_within (ht : PlainTemplate t) {u w : Bytes} (hok : AllReturn (make t) (u ++ w))
    (hw : longest t ≤ w.length) :
    packetsOf (outputs addByte (after addByte (make t) u) w) ≠ [] := by
  have hm : MarkedTemplate t := ⟨ht.noCallback, ht.distinct, ht.first⟩
  obtain ⟨r, hmore, hr⟩ := last_boundary hm hok.append.1
  have hne : w ≠ [] := by
    rintro rfl
    obtain ⟨f, fs, hf, -⟩ := ht.first
    simp [longest, hf] at hw
  have hok' := hok.append.2
  rw [AllReturn, hr w hne] at hok'
  rw [hr w hne]
  rcases packets_behind hm hmore hok' with ⟨hread, -⟩ | ⟨ds, used, rest, -, -, -, hp⟩
  · have hlt := readFields_more ht.noHeader hread
    rw [List.length_append] at hlt
    unfold longest at hw
    omega
  · rw [hp]
    exact List.cons_ne_nil _ _

/-- A template of one byte. -/
def singleByte : PacketDescriptor where
  fields := [{ name := lit "B", size := 1 }]

theorem plain_singleByte : PlainTemplate singleByte where
  noHeader := by decide
  noCallback := by simp [singleByte]
  distinct := by decide
  first := ⟨_, _, rfl, by decide⟩

theorem allReturn_singleByte (s : Bytes) : AllReturn (make singleByte) s := by
  have hconf : ∀ p ∈ s.map fun b => [(⟨lit "B", [b]⟩ : FieldData)], Conforming singleByte p := by
    intro p hp
    obtain ⟨b, -, rfl⟩ := List.mem_map.mp hp
    refine .present rfl rfl (fun _ => ⟨?_, ?_, ?_, ?_⟩) (.nil _)
    · exact fun h => absurd h (by decide)
    · exact fun h => absurd h (by decide)
    · exact fun h => absurd rfl h
    · exact fun h => absurd rfl h
  have hbytes : (s.map fun b => [(⟨lit "B", [b]⟩ : FieldData)]).flatMap encode = s := by
    simp [List.flatMap_map]
  have hos := plain_singleByte.outputs_packets hconf []
  rw [hbytes, List.append_nil, outputs_nil, List.append_nil] at hos
  rw [AllReturn, hos]
  intro o ho
  obtain ⟨p, -, hp⟩ := List.mem_flatMap.mp ho
  rw [answers, List.mem_append, List.mem_singleton] at hp
  rcases hp with hp | hp
  · exact ⟨_, List.eq_of_mem_replicate hp⟩
  · exact ⟨_, hp⟩

theorem delivers_within_singleByte : packetsOf (outputs addByte
    (after addByte (make singleByte) [7]) (List.replicate 65535 0)) ≠ [] := by
  refine delivers_within plain_singleByte (allReturn_singleByte _) ?_
  rw [List.length_replicate]
  exact Nat.le_refl 65535

end Boundary

/-! ## Behind garbage -/

/-- The first field is a header of at least one byte, and the only one; no callback, and distinct
names. -/
structure LockedTemplate (t : PacketDescriptor) (top : FieldDescriptor)
    (fs : List FieldDescriptor) : Prop where
  fields : t.fields = top :: fs
  isHeader : top.isHeaderValue = true
  value : top.value.length = top.size.toNat
  nonempty : top.value ≠ []
  plain : ∀ f ∈ fs, f.isHeaderValue = false
  noCallback : ∀ f ∈ t.fields, f.externalSizeCalculation = none
  distinct : (t.fields.map (·.name)).Nodup

/-- The header occurs in the garbage and the packets behind it only where a packet starts. -/
def OnlyAtStarts (w g : Bytes) (ps : List (List FieldData)) : Prop :=
  ∀ k, OccursAt w (g ++ ps.flatMap encode) k →
    ∃ before p behind, ps = before ++ p :: behind ∧ k = g.length + (before.flatMap encode).length

section Locked

variable {t : PacketDescriptor} {top : FieldDescriptor} {fs : List FieldDescriptor}

namespace LockedTemplate

theorem size_ne_zero (ht : LockedTemplate t top fs) : top.size.toNat ≠ 0 := by
  rw [← ht.value]
  exact fun h => ht.nonempty (List.length_eq_zero_iff.mp h)

theorem marked (ht : LockedTemplate t top fs) : MarkedTemplate t where
  noCallback := ht.noCallback
  distinct := ht.distinct
  first := ⟨top, fs, ht.fields, fun h => ht.size_ne_zero (by rw [h]; rfl)⟩

/-- The pass looks for the header. -/
theorem readPacket_eq (ht : LockedTemplate t top fs) (s : Bytes) :
    readPacket t s = match seek top.value s with
      | none => .more
      | some rest => if FieldOk [] top top.value fs then readFields [(top, top.value)] fs rest
        else .broken rest := by
  have hn : effectiveSize [] top = top.size.toNat := effectiveSize_nil top
  have hread : readField [] top s = (seek top.value s).map (top.value, ·) := by
    rw [readField, if_pos ht.isHeader, if_pos (ht.value.trans hn.symm)]
  rw [readPacket, ht.fields, readFields,
    if_neg (show ¬ removed [] top = true from Bool.false_ne_true), hn, if_neg ht.size_ne_zero,
    hread]
  cases seek top.value s <;> rfl

/-- A packet starts with the header. -/
theorem header_prefix (ht : LockedTemplate t top fs) {p : List FieldData} (hp : Conforming t p) :
    ∃ body, encode p = top.value ++ body := by
  have hread := readPacket_encode hp []
  rw [List.append_nil, ht.readPacket_eq] at hread
  unfold Conforming at hp
  rw [ht.fields] at hp
  cases hp with
  | removed hr _ => cases hr
  | @present _ _ v _ ds _ hv hok _ =>
    have hne : v ≠ [] := by
      rintro rfl
      rw [effectiveSize_nil] at hv
      exact ht.size_ne_zero hv.symm
    exact ⟨encode ds, by rw [encode_cons, (hok hne).header ht.isHeader]⟩

/-- Garbage before the first header is skipped. -/
theorem readPacket_garbage (ht : LockedTemplate t top fs) {p : List FieldData}
    (hp : Conforming t p) {g s : Bytes}
    (hg : ∀ k < g.length, ¬ OccursAt top.value (g ++ (encode p ++ s)) k) :
    readPacket t (g ++ (encode p ++ s)) = .packet p s := by
  obtain ⟨body, hbody⟩ := ht.header_prefix hp
  have hclean := readPacket_encode hp s
  rw [hbody, List.append_assoc] at hg hclean ⊢
  have hseek : seek top.value (top.value ++ (body ++ s)) = some (body ++ s) :=
    seek_first (g := []) fun k hk => absurd hk (Nat.not_lt_zero k)
  rw [ht.readPacket_eq, hseek] at hclean
  rw [ht.readPacket_eq, seek_first hg]
  exact hclean

/-- **Packets behind garbage** are delivered, when the header occurs only where they start. -/
theorem packets_after_garbage (ht : LockedTemplate t top fs) {g : Bytes}
    {ps : List (List FieldData)} (hps : ∀ p ∈ ps, Conforming t p)
    (honly : OnlyAtStarts top.value g ps) :
    packetsOf (outputs addByte (make t) (g ++ ps.flatMap encode)) =
      ps.map fun p => { fields := p } := by
  induction ps generalizing g with
  | nil =>
    have hread : readPacket t g = .more := by
      rw [ht.readPacket_eq]
      cases hs : seek top.value g with
      | none => rfl
      | some rest =>
        obtain ⟨g', rfl, -⟩ := seek_some hs
        obtain ⟨before, p, behind, h, -⟩ := honly g'.length
          ((occursAt_append g' top.value rest).append _)
        simp at h
    have hans := ht.marked.answered g
    rw [hread] at hans
    rw [List.flatMap_nil, List.append_nil, show outputs addByte (make t) g = _ from hans,
      packetsOf_replicate]
    rfl
  | cons p ps ih =>
    rw [List.forall_mem_cons] at hps
    have hpos := List.length_pos_iff.mpr (ht.marked.encode_ne_nil hps.1)
    have hread : readPacket t (g ++ (encode p ++ ps.flatMap encode)) =
        .packet p (ps.flatMap encode) := by
      refine ht.readPacket_garbage hps.1 fun k hk hocc => ?_
      obtain ⟨before, q, behind, -, hstart⟩ := honly k hocc
      omega
    have hrest : OnlyAtStarts top.value [] ps := by
      intro k hocc
      have hall : OccursAt top.value (g ++ (p :: ps).flatMap encode)
          ((g ++ encode p).length + k) := by
        rw [← OccursAt.drop, List.flatMap_cons, ← List.append_assoc, List.drop_left]
        exact hocc
      obtain ⟨before, q, behind, hsplit, hstart⟩ := honly _ hall
      rw [List.length_append] at hstart
      cases before with
      | nil => simp at hstart; omega
      | cons p' before =>
        obtain ⟨rfl, rfl⟩ := List.cons.inj hsplit
        rw [List.flatMap_cons, List.length_append] at hstart
        refine ⟨before, q, behind, rfl, ?_⟩
        rw [List.length_nil]
        omega
    have hans := ht.marked.answered (g ++ (encode p ++ ps.flatMap encode))
    rw [hread] at hans
    obtain ⟨used, -, -, hos⟩ := hans
    have hih := ih hps.2 hrest
    rw [List.nil_append] at hih
    rw [List.flatMap_cons, hos, packetsOf_append, packetsOf_replicate, packetsOf_cons_some, hih]
    rfl

/-- No packet that the dissector finds after the header is longer than `longest t`. -/
theorem length_used (ht : LockedTemplate t top fs) {s rest : Bytes} {ds : List FieldData} {k : Nat}
    (hk : OccursAt top.value s k) (hread : readPacket t s = .packet ds rest) :
    s.length ≤ k + longest t + rest.length := by
  have hsize := top.size.toNat_lt
  have hvalue := ht.value
  rw [ht.readPacket_eq] at hread
  cases hs : seek top.value s with
  | none => exact absurd hk (seek_none hs k)
  | some rest' =>
    rw [hs] at hread
    obtain ⟨g, rfl, hfirst⟩ := seek_some hs
    have hg : g.length ≤ k := by
      by_contra hlt
      exact hfirst k (by omega) hk
    simp only at hread
    split at hread
    · obtain ⟨used, rfl, hle⟩ := readFields_packet ht.plain hread
      simp only [List.length_append, longest, ht.fields, List.length_cons]
      omega
    · cases hread

theorem length_more (ht : LockedTemplate t top fs) {s : Bytes} {k : Nat}
    (hk : OccursAt top.value s k) (hread : readPacket t s = .more) :
    s.length < k + longest t := by
  have hsize := top.size.toNat_lt
  have hvalue := ht.value
  rw [ht.readPacket_eq] at hread
  cases hs : seek top.value s with
  | none => exact absurd hk (seek_none hs k)
  | some rest' =>
    rw [hs] at hread
    obtain ⟨g, rfl, hfirst⟩ := seek_some hs
    have hg : g.length ≤ k := by
      by_contra hlt
      exact hfirst k (by omega) hk
    simp only at hread
    split at hread
    · have hlt := readFields_more ht.plain hread
      simp only [List.length_append, longest, ht.fields, List.length_cons]
      omega
    · cases hread

end LockedTemplate

/-- The stream from the offset `m` on: the rest of the packet there is garbage before the next. -/
theorem drop_packets (g : Bytes) (ps : List (List FieldData)) (m : Nat) :
    ∃ lost kept g', ps = lost ++ kept ∧
      (g ++ ps.flatMap encode).drop m = g' ++ kept.flatMap encode ∧
      ∀ before p behind, lost = before ++ p :: behind →
        g.length + (before.flatMap encode).length < m := by
  induction ps generalizing g with
  | nil => exact ⟨[], [], g.drop m, rfl, by simp, by simp⟩
  | cons p ps ih =>
    by_cases hm : m ≤ g.length
    · exact ⟨[], p :: ps, g.drop m, rfl, List.drop_append_of_le_length hm, by simp⟩
    · obtain ⟨lost, kept, g', rfl, hdrop, hstart⟩ := ih (g ++ encode p)
      refine ⟨p :: lost, kept, g', rfl, ?_, fun before q behind h => ?_⟩
      · rw [← hdrop, List.flatMap_cons, List.append_assoc]
      · cases before with
        | nil => simpa using hm
        | cons q' before =>
          obtain ⟨rfl, hlost⟩ := List.cons.inj h
          have := hstart before q behind hlost
          rw [List.length_append] at this
          rw [List.flatMap_cons, List.length_append]
          omega

theorem OnlyAtStarts.drop {w g g' : Bytes} {lost kept : List (List FieldData)} {m : Nat}
    (honly : OnlyAtStarts w g (lost ++ kept))
    (hm : m ≤ (g ++ (lost ++ kept).flatMap encode).length)
    (hdrop : (g ++ (lost ++ kept).flatMap encode).drop m = g' ++ kept.flatMap encode)
    (hlost : ∀ before p behind, lost = before ++ p :: behind →
      g.length + (before.flatMap encode).length < m) : OnlyAtStarts w g' kept := by
  have hlen := congrArg List.length hdrop
  simp only [List.length_drop, List.length_append, List.flatMap_append] at hlen hm
  intro k hocc
  rw [← hdrop, OccursAt.drop] at hocc
  obtain ⟨before, p, behind, hsplit, hstart⟩ := honly _ hocc
  rcases List.append_eq_append_iff.mp hsplit with ⟨a, rfl, ha⟩ | ⟨a, rfl, ha⟩
  · refine ⟨a, p, behind, ha, ?_⟩
    rw [List.flatMap_append, List.length_append] at hstart
    omega
  · cases a with
    | nil =>
      refine ⟨[], p, behind, ha.symm, ?_⟩
      rw [List.append_nil] at hlen
      rw [List.flatMap_nil, List.length_nil]
      omega
    | cons q a =>
      obtain ⟨rfl, -⟩ := List.cons.inj ha
      have := hlost before p a rfl
      omega

/-- **The dissector finds the packets again.** Whatever it has read so far, packets behind garbage
are delivered once their header is seen: at most one packet that the stream does not contain comes
before them, and the packets of the stream that are lost are the first ones, each of which starts
within `longest t` bytes. -/
theorem resynchronises (ht : LockedTemplate t top fs) {u g : Bytes} {ps : List (List FieldData)}
    (hps : ∀ p ∈ ps, Conforming t p) (honly : OnlyAtStarts top.value g ps)
    (hok : AllReturn (make t) (u ++ (g ++ ps.flatMap encode))) :
    ∃ junk lost kept, ps = lost ++ kept ∧ junk.length ≤ 1 ∧
      packetsOf (outputs addByte (after addByte (make t) u) (g ++ ps.flatMap encode)) =
        junk ++ (kept.map fun p => { fields := p }) ∧
      ∀ before p behind, lost = before ++ p :: behind →
        g.length + (before.flatMap encode).length < longest t := by
  obtain ⟨r, hmore, hr⟩ := last_boundary ht.marked hok.append.1
  by_cases hne : g ++ ps.flatMap encode = []
  · obtain ⟨rfl, hflat⟩ := List.append_eq_nil_iff.mp hne
    cases ps with
    | nil => exact ⟨[], [], [], rfl, Nat.zero_le _, by simp [packetsOf], by simp⟩
    | cons p ps =>
      rw [List.flatMap_cons, List.append_eq_nil_iff] at hflat
      exact absurd hflat.1 (ht.marked.encode_ne_nil (hps p (.head _)))
  have hok' := hok.append.2
  rw [AllReturn, hr _ hne] at hok'
  rw [hr _ hne]
  by_cases hin : ∃ k < r.length, OccursAt top.value (r ++ (g ++ ps.flatMap encode)) k
  · -- a header before the stream, or across its start, begins another packet
    obtain ⟨k, hk, hocc⟩ := hin
    rcases packets_behind ht.marked hmore hok' with ⟨hread, hp⟩ | ⟨ds, used, rest, hread, hs, -, hp⟩
    · refine ⟨[], ps, [], (List.append_nil ps).symm, Nat.zero_le _, hp, ?_⟩
      rintro before p behind rfl
      have hlt := ht.length_more hocc hread
      simp only [List.length_append, List.flatMap_append] at hlt
      omega
    · have hle := ht.length_used hocc hread
      rw [hs] at hle
      simp only [List.length_append] at hle
      obtain ⟨lost, kept, g', rfl, hdrop, hstart⟩ := drop_packets g ps used.length
      have hrest : rest = g' ++ kept.flatMap encode := by rw [← hdrop, hs, List.drop_left]
      have hkept : OnlyAtStarts top.value g' kept :=
        honly.drop (by rw [hs, List.length_append]; omega) hdrop hstart
      refine ⟨[{ fields := ds }], lost, kept, rfl, Nat.le_refl _, ?_, fun before p behind h => ?_⟩
      · rw [hp, hrest, ht.packets_after_garbage
          (fun p hp => hps p (List.mem_append_right _ hp)) hkept]
        rfl
      · have := hstart before p behind h
        omega
  · have hgarbage : OnlyAtStarts top.value (r ++ g) ps := by
      intro k hocc
      rw [List.append_assoc] at hocc
      have hk : r.length ≤ k := by
        by_contra hlt
        exact hin ⟨k, by omega, hocc⟩
      obtain ⟨j, rfl⟩ := Nat.exists_eq_add_of_le hk
      rw [← OccursAt.drop, List.drop_left] at hocc
      obtain ⟨before, p, behind, hsplit, hstart⟩ := honly j hocc
      refine ⟨before, p, behind, hsplit, ?_⟩
      rw [List.length_append]
      omega
    have hp := ht.packets_after_garbage hps hgarbage
    rw [List.append_assoc, outputs_behind ht.marked hmore, packetsOf_append,
      packetsOf_replicate, List.nil_append] at hp
    exact ⟨[], [], ps, rfl, Nat.zero_le _, hp, by simp⟩

/-- A marker and one byte. -/
def lockedTemplate : PacketDescriptor where
  fields := [
    { name := lit "MARK", size := 2, value := [0xAA, 0xBB], isHeaderValue := true },
    { name := lit "DATA", size := 1 }]

theorem locked_lockedTemplate : LockedTemplate lockedTemplate
    { name := lit "MARK", size := 2, value := [0xAA, 0xBB], isHeaderValue := true }
    [{ name := lit "DATA", size := 1 }] where
  fields := rfl
  isHeader := rfl
  value := rfl
  nonempty := by simp
  plain := by decide
  noCallback := by simp [lockedTemplate]
  distinct := by decide

/-- A packet of the template with the marker first. -/
def lockedPacket (b : UInt8) : List FieldData := [⟨lit "MARK", [0xAA, 0xBB]⟩, ⟨lit "DATA", [b]⟩]

theorem conforming_lockedPacket (b : UInt8) : Conforming lockedTemplate (lockedPacket b) := by
  refine .present (by decide) (by decide) (fun _ => by decide) ?_
  refine .present rfl rfl (fun _ => ⟨?_, ?_, ?_, ?_⟩) (.nil _)
  · exact fun h => absurd h (by decide)
  · exact fun h => absurd h (by decide)
  · exact fun h => absurd rfl h
  · exact fun h => absurd rfl h

/-- The data byte after the first marker is lost: the next packet is, too. -/
theorem resynchronises_locked : ∃ junk lost kept,
    [lockedPacket 1, lockedPacket 2] = lost ++ kept ∧ junk.length ≤ 1 ∧
      packetsOf (outputs addByte (after addByte (make lockedTemplate) [0xAA, 0xBB])
        ([] ++ [lockedPacket 1, lockedPacket 2].flatMap encode)) =
          junk ++ (kept.map fun p => { fields := p }) ∧
      ∀ before p behind, lost = before ++ p :: behind →
        ([] : Bytes).length + (before.flatMap encode).length < longest lockedTemplate := by
  refine resynchronises locked_lockedTemplate ?_ ?_ ?_
  · rintro p hp
    rcases List.mem_pair.mp hp with rfl | rfl <;> exact conforming_lockedPacket _
  · intro k hocc
    have hle := hocc.length_le (by simp)
    have hk : k ≤ 4 := by simpa [lockedPacket] using hle
    have hocc' : ([0xAA, 0xBB] : Bytes) <+: [0xAA, 0xBB, 1, 0xAA, 0xBB, 2].drop k := hocc
    interval_cases k
    · exact ⟨[], _, _, rfl, rfl⟩
    · exact absurd hocc' (by decide)
    · exact absurd hocc' (by decide)
    · exact ⟨[_], _, _, rfl, rfl⟩
    · exact absurd hocc' (by decide)
  · have hos : outputs addByte (make lockedTemplate) [0xAA, 0xBB, 0xAA, 0xBB, 1, 0xAA, 0xBB, 2] =
        [.ok none, .ok none, .ok (some { fields := lockedPacket 0xAA }), .ok none, .ok none,
          .ok none, .ok none, .ok (some { fields := lockedPacket 2 })] := rfl
    rw [AllReturn, show [0xAA, 0xBB] ++ ([] ++ [lockedPacket 1, lockedPacket 2].flatMap encode) =
      [0xAA, 0xBB, 0xAA, 0xBB, 1, 0xAA, 0xBB, 2] from rfl, hos]
    simp

end Locked

end Protos

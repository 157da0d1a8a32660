import ProtoTools.Dissection.Chunks

/-!
# What `addBytes` reads of a stream in chunks

The streaming path of `addBytes` on any chunks, with the exceptions and the packets that end
anywhere in them.

* `Cut`: a chunk is read to its end, or to the first byte that gets an answer; the rest is lost.
  `Cut.unique`: there is one way to cut it.
* `streamLoop_cut`: one call. `addBytes_cuts`: the calls on all chunks are those of `addByte` on the
  bytes that are not lost.
-/

namespace Protos

open Machine GenericDissector

/-- What the calls answered, apart from `nullopt`. -/
def answersOf (os : List (Except Fault (Option PacketData))) :
    List (Except Fault (Option PacketData)) :=
  os.filter fun
    | .ok none => false
    | _ => true

/-- The part of a chunk that is used, and the part that is lost, by the answer of the call. -/
inductive Cut (d : GenericDissector) (used lost : Bytes) :
    Except Fault (Option PacketData) → Prop
  | whole : outputs addByte d used = List.replicate used.length (.ok none) → lost = [] →
      Cut d used lost (.ok none)
  /-- The last byte gets the packet or the exception. -/
  | answer (u : Bytes) (b : UInt8) (o : Except Fault (Option PacketData)) : used = u ++ [b] →
      outputs addByte d used = List.replicate u.length (.ok none) ++ [o] → o ≠ .ok none →
      Cut d used lost o

section Cuts

variable {d : GenericDissector} {used lost : Bytes} {o : Except Fault (Option PacketData)}

theorem answersOf_append (os os' : List (Except Fault (Option PacketData))) :
    answersOf (os ++ os') = answersOf os ++ answersOf os' := List.filter_append ..

theorem answersOf_replicate (n : Nat) : answersOf (List.replicate n (.ok none)) = [] := by
  induction n with
  | zero => rfl
  | succ n ih =>
    rw [List.replicate_succ, answersOf, List.filter_cons_of_neg (by simp)]
    exact ih

/-- The byte in front gets no answer. -/
theorem Cut.cons {b : UInt8} (hb : (d.addByte b).1 = .ok none)
    (h : Cut (d.addByte b).2 used lost o) : Cut d (b :: used) lost o := by
  cases h with
  | whole hos hlost =>
    refine .whole ?_ hlost
    rw [outputs_cons, hb, hos, List.length_cons, List.replicate_succ]
  | answer u b' o hused hos ho =>
    refine .answer (b :: u) b' o (by rw [hused, List.cons_append]) ?_ ho
    rw [outputs_cons, hb, hos, List.length_cons, List.replicate_succ, List.cons_append]

/-- **One call** reads its chunk as far as the first answer. -/
theorem streamLoop_cut (d : GenericDissector) (c : Bytes) :
    ∃ used lost, c = used ++ lost ∧ (d.streamLoop c).2 = after addByte d used ∧
      Cut d used lost (d.streamLoop c).1 := by
  induction c generalizing d with
  | nil => exact ⟨[], [], rfl, rfl, .whole rfl rfl⟩
  | cons b c ih =>
    rw [streamLoop]
    rcases hb : d.addByte b with ⟨r, d'⟩
    have hone : outputs addByte d [b] = [r] := by rw [outputs_cons, hb, outputs_nil]
    have hafter : after addByte d [b] = d' := by rw [after_cons, hb, after_nil]
    rcases r with e | (_ | packet)
    · exact ⟨[b], c, rfl, hafter.symm, .answer [] b _ rfl hone (by simp)⟩
    · obtain ⟨used, lost, rfl, hstate, hcut⟩ := ih d'
      have hnone : (d.addByte b).1 = .ok none := by rw [hb]
      have hnext : (d.addByte b).2 = d' := by rw [hb]
      refine ⟨b :: used, lost, rfl, ?_, .cons hnone (by rwa [hnext])⟩
      rw [after_cons, hb]
      exact hstate
    · exact ⟨[b], c, rfl, hafter.symm, .answer [] b _ rfl hone (by simp)⟩

/-- A call answers what the byte answers that ends it. -/
theorem Cut.answersOf_eq (h : Cut d used lost o) :
    answersOf [o] = answersOf (outputs addByte d used) := by
  cases h with
  | whole hos => rw [hos, answersOf_replicate]; rfl
  | answer u b o _ hos _ => rw [hos, answersOf_append, answersOf_replicate, List.nil_append]

/-- **`addBytes` on a stream in chunks**, whatever ends in them: it answers what `addByte` answers
to the bytes that are not lost, and the object is the same. Lost is what comes behind the first
answer in a chunk, be it a packet or an exception. -/
theorem addBytes_cuts (ht : d.packetTemplate.isFixedSize = false) (chunks : List Bytes) :
    ∃ cuts : List (Bytes × Bytes), chunks = cuts.map (fun c => c.1 ++ c.2) ∧
      after addBytes d chunks = after addByte d (cuts.flatMap (·.1)) ∧
      answersOf (outputs addBytes d chunks) =
        answersOf (outputs addByte d (cuts.flatMap (·.1))) ∧
      ∀ pre c post, cuts = pre ++ c :: post →
        Cut (after addByte d (pre.flatMap (·.1))) c.1 c.2
          ((after addByte d (pre.flatMap (·.1))).addBytes (c.1 ++ c.2)).1 := by
  induction chunks generalizing d with
  | nil => exact ⟨[], rfl, rfl, rfl, fun pre c post h => by simp at h⟩
  | cons c chunks ih =>
    obtain ⟨used, lost, rfl, hstate, hcut⟩ := streamLoop_cut d c
    rw [← addBytes_of_streaming ht] at hstate hcut
    have hnext : (after addByte d used).packetTemplate.isFixedSize = false := by
      rwa [packetTemplate_after]
    obtain ⟨cuts, rfl, hafter, hanswers, hcuts⟩ := ih hnext
    refine ⟨(used, lost) :: cuts, rfl, ?_, ?_, ?_⟩
    · rw [after_cons, hstate, hafter, List.flatMap_cons, after_append]
    · rw [outputs_cons, hstate, ← List.singleton_append, answersOf_append, hanswers,
        hcut.answersOf_eq, List.flatMap_cons, outputs_append, answersOf_append]
    · intro pre c post h
      cases pre with
      | nil =>
        obtain ⟨rfl, -⟩ := List.cons.inj h
        exact hcut
      | cons p pre =>
        obtain ⟨rfl, htail⟩ := List.cons.inj h
        have := hcuts pre c post htail
        rwa [← after_append] at this

/-- Only the last byte of the part that is used gets an answer. -/
theorem Cut.nullopt_before (h : Cut d used lost o) {v w : Bytes} {b : UInt8}
    (hused : used = v ++ b :: w) : ∀ r ∈ outputs addByte d v, r = .ok none := by
  intro r hr
  cases h with
  | whole hos =>
    rw [hused, outputs_append] at hos
    exact List.eq_of_mem_replicate (hos ▸ List.mem_append_left _ hr)
  | answer u b' o hlast hos =>
    obtain ⟨x, hu⟩ : v <+: u := by
      have hv : v <+: u ++ [b'] := ⟨b :: w, hused.symm.trans hlast⟩
      rcases List.prefix_concat_iff.mp hv with heq | hpre
      · have hlen := congrArg List.length (hused.symm.trans hlast)
        rw [heq] at hlen
        simp at hlen
      · exact hpre
    rw [hlast, outputs_append, ← hu, outputs_append] at hos
    have hmem : r ∈ List.replicate (v ++ x).length (Except.ok none) :=
      (List.append_inj_left hos (by simp)) ▸ List.mem_append_left _ hr
    exact List.eq_of_mem_replicate hmem

theorem Cut.lost_nil (h : Cut d used lost (.ok none)) : lost = [] := by
  cases h with
  | whole _ hlost => exact hlost
  | answer _ _ _ _ _ ho => exact absurd rfl ho

theorem Cut.mem_outputs (h : Cut d used lost o) (ho : o ≠ .ok none) :
    o ∈ outputs addByte d used := by
  cases h with
  | whole => exact absurd rfl ho
  | answer u b o _ hos => simp [hos]

/-- **A chunk is cut in one way** by the answer of the call. -/
theorem Cut.unique {used' lost' : Bytes} (h : Cut d used lost o) (h' : Cut d used' lost' o)
    (heq : used ++ lost = used' ++ lost') : used = used' ∧ lost = lost' := by
  by_cases ho : o = .ok none
  · subst ho
    obtain rfl := h.lost_nil
    obtain rfl := h'.lost_nil
    exact ⟨by simpa using heq, rfl⟩
  · -- the longer part would go on behind the answer
    rcases List.append_eq_append_iff.mp heq with ⟨_ | ⟨b, x⟩, h1, h2⟩ | ⟨_ | ⟨b, x⟩, h1, h2⟩
    · exact ⟨by simpa using h1.symm, by simpa using h2⟩
    · exact absurd (h'.nullopt_before h1 o (h.mem_outputs ho)) ho
    · exact ⟨by simpa using h1, by simpa using h2.symm⟩
    · exact absurd (h.nullopt_before h1 o (h'.mem_outputs ho)) ho

/-- The byte behind the first packet is lost, and the next one is taken for a length. -/
theorem addBytes_cuts_lengthData : ∃ cuts : List (Bytes × Bytes),
    cuts = [([1, 65], [1]), ([66, 67], [])] ∧
      after addBytes (make lengthDataTemplate) [[1, 65, 1], [66, 67]] =
        after addByte (make lengthDataTemplate) (cuts.flatMap (·.1)) ∧
      answersOf (outputs addBytes (make lengthDataTemplate) [[1, 65, 1], [66, 67]]) =
        answersOf (outputs addByte (make lengthDataTemplate) (cuts.flatMap (·.1))) ∧
      ∀ pre c post, cuts = pre ++ c :: post →
        Cut (after addByte (make lengthDataTemplate) (pre.flatMap (·.1))) c.1 c.2
          ((after addByte (make lengthDataTemplate) (pre.flatMap (·.1))).addBytes
            (c.1 ++ c.2)).1 := by
  obtain ⟨cuts, hchunks, hafter, hanswers, hcuts⟩ :=
    addBytes_cuts (d := make lengthDataTemplate) rfl [[1, 65, 1], [66, 67]]
  refine ⟨cuts, ?_, hafter, hanswers, hcuts⟩
  obtain ⟨⟨u₁, l₁⟩, rest, rfl, h₁, hrest⟩ := List.map_eq_cons_iff.mp hchunks.symm
  obtain ⟨⟨u₂, l₂⟩, rest, rfl, h₂, hnil⟩ := List.map_eq_cons_iff.mp hrest
  obtain rfl := List.map_eq_nil_iff.mp hnil
  simp only at h₁ h₂
  have hpacket : Cut (make lengthDataTemplate) [1, 65] [1]
      ((make lengthDataTemplate).addBytes [1, 65, 1]).1 := .answer [1] 65 _ rfl rfl nofun
  have hcut₁ := hcuts [] (u₁, l₁) _ rfl
  rw [h₁] at hcut₁
  obtain ⟨rfl, rfl⟩ := hcut₁.unique hpacket h₁
  have hnone : Cut (after addByte (make lengthDataTemplate) [1, 65]) [66, 67] []
      ((after addByte (make lengthDataTemplate) [1, 65]).addBytes [66, 67]).1 := .whole rfl rfl
  have hcut₂ := hcuts [([1, 65], [1])] (u₂, l₂) _ rfl
  rw [h₂] at hcut₂
  obtain ⟨rfl, rfl⟩ := hcut₂.unique hnone h₂
  rfl

end Cuts

end Protos

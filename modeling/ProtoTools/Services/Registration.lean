import ProtoTools.Services.DirectoryMap

/-!
# Registrations that fail

* `LeavesNoTrace`: an operation after which the directory is one that a failed `addProtocol` has not
  touched: the cached list describes the entries, and a valid entry can still be added.
* `coherent_serve`: every request leaves the cached list the one of the entries, also one that
  throws.
* `addProtocol_invalid`: an entry that cannot be serialized stays in the map.
* `failed_registration_iff`: the operations of a run leave no trace of a failure exactly when all
  entries that are added are well-formed UTF-8.
-/

namespace Protos

open Machine ProtocolDirectoryServer

/-- What holds of an operation when a call that throws is as if it had not been made. -/
structure LeavesNoTrace (E : Environment) (s : RequestServer) (op : Operation) : Prop where
  /-- An `addProtocol` that throws keeps the entries and the cached list. -/
  unchanged : ∀ p, op = .addProtocol p → (s.operate E op).1 ≠ none →
    (∀ kv, kv ∈ (s.operate E op).2.directory.protocols ↔ kv ∈ s.directory.protocols) ∧
      (s.operate E op).2.directory.completeListJson = s.directory.completeListJson
  /-- The cached list describes the entries. -/
  described : (s.operate E op).2.directory.Coherent E
  /-- A valid entry is added to the entries and published with them. -/
  later : ∀ p : ProtocolDirectoryEntry, p.ValidUtf8 → ∃ d,
    (s.operate E op).2.directory.addProtocol E p = (.ok (), d) ∧ d.Coherent E ∧
      ∀ kv, kv ∈ d.protocols ↔
        kv ∈ (s.operate E op).2.directory.protocols ∧ kv.1 ≠ p.key ∨ kv = (p.key, p)

/-- An entry that is added directly is well formed. -/
def Operation.AddsValid (op : Operation) : Prop :=
  ∀ p, op = .addProtocol p → p.ValidUtf8

section Directory

variable {E : Environment} {d : ProtocolDirectoryServer} {s : RequestServer}
  {p : ProtocolDirectoryEntry}

theorem allValid_of_coherent (hE : E.Documented) (hd : d.Coherent E) : AllValid d :=
  (validUtf8_listJson hE d).mp ((hE.dump_iff _).mp ⟨_, hd⟩)

theorem mem_assign {protocols : ProtocolDirectory} {key : Str} {kv : Str × ProtocolDirectoryEntry} :
    kv ∈ assign protocols key p ↔ kv ∈ protocols ∧ kv.1 ≠ key ∨ kv = (key, p) := by
  simp [assign, eraseKey]

/-- A valid entry. -/
theorem addProtocol_valid (hE : E.Documented) (hd : d.Coherent E) (hp : p.ValidUtf8) : ∃ d',
    d.addProtocol E p = (.ok (), d') ∧ d'.Coherent E ∧
      ∀ kv, kv ∈ d'.protocols ↔ kv ∈ d.protocols ∧ kv.1 ≠ p.key ∨ kv = (p.key, p) := by
  obtain ⟨text, hcoherent, hupdate⟩ :=
    updateCompleteList_ok hE ((allValid_assign_iff hp).mpr
      ((allValid_of_coherent hE hd).invalidUnder p.key))
  exact ⟨_, hupdate, hcoherent, fun kv => mem_assign⟩

/-- An entry that cannot be serialized: the call throws, and the entry stays. -/
theorem addProtocol_invalid (hE : E.Documented) (hp : ¬ p.ValidUtf8) :
    ∃ e, d.addProtocol E p = (.error e, d.change (assign d.protocols p.key p)) :=
  updateCompleteList_error hE fun hvalid => hp (hvalid (p.key, p) (mem_assign.mpr (.inr rfl)))

/-! ## Requests -/

theorem receiveEntry_directory : (s.receiveEntry E).2.directory = s.directory := by
  unfold RequestServer.receiveEntry
  split <;> rfl

theorem receiveEntry_valid (hE : E.Documented) {j : Json} {s' : RequestServer}
    (h : s.receiveEntry E = (.ok j, s')) : j.validUtf8 = true := by
  unfold RequestServer.receiveEntry at h
  split at h
  · cases h
  · exact hE.parse_valid _ _ (congrArg Prod.fst h)

/-- A request to add, whatever its text is. -/
theorem coherent_handleAdd_any (hE : E.Documented) (hs : s.directory.Coherent E) :
    (s.handleAdd E).2.directory.Coherent E := by
  have hdir := receiveEntry_directory (E := E) (s := s)
  unfold RequestServer.handleAdd
  split
  · rename_i hrecv
    rw [hrecv] at hdir
    exact hdir ▸ hs
  · rename_i entry s' hrecv
    rw [hrecv] at hdir
    split
    · exact hdir ▸ hs
    split
    · exact hdir ▸ hs
    · rename_i p hp
      -- the parser lets only well-formed strings through
      obtain ⟨d, hadd, hcoherent, -⟩ := addProtocol_valid hE (hdir ▸ hs)
        (validUtf8_fromJson (receiveEntry_valid hE hrecv) hp)
      simp only [hadd]
      exact hcoherent

theorem coherent_handleRemove_any (hE : E.Documented) (hs : s.directory.Coherent E) :
    (s.handleRemove E).2.directory.Coherent E := by
  have hdir := receiveEntry_directory (E := E) (s := s)
  unfold RequestServer.handleRemove
  split
  · rename_i hrecv
    rw [hrecv] at hdir
    exact hdir ▸ hs
  · rename_i entry s' hrecv
    rw [hrecv] at hdir
    split
    · exact hdir ▸ hs
    · rename_i protocolName adapterDescriptor _
      obtain ⟨text, hcoherent, hupdate⟩ := updateCompleteList_ok hE (allValid_eraseKey_iff.mpr
        ((allValid_of_coherent hE (hdir ▸ hs)).invalidUnder
          (protocolName ++ lit "|" ++ adapterDescriptor)))
      simp only [hupdate]
      exact hcoherent

theorem coherent_handle_any (hE : E.Documented) (hs : s.directory.Coherent E) (req : Bytes) :
    (s.handle E req).2.directory.Coherent E := by
  unfold RequestServer.handle
  split
  · exact hs
  split
  · exact coherent_handleAdd_any hE hs
  split
  · exact coherent_handleRemove_any hE hs
  · exact hs

/-- **A pass of the loop** leaves the cached list the one of the entries, also when it throws. -/
theorem coherent_serve (hE : E.Documented) (hs : s.directory.Coherent E) (ev : Event) :
    (s.serve E ev).2.directory.Coherent E := by
  unfold RequestServer.serve
  simp only
  split
  · exact hs
  · exact hs
  · rename_i req socket _
    have hhandle : ({ s with repSocket := socket }.handle E req).2.directory.Coherent E :=
      coherent_handle_any (s := { s with repSocket := socket }) hE hs req
    split
    · rename_i hres
      rw [hres] at hhandle
      exact hhandle
    · rename_i hres
      rw [hres] at hhandle
      split <;> exact hhandle

/-! ## Operations -/

/-- **One operation.** Its failure leaves a trace exactly when it adds an entry that cannot be
serialized. -/
theorem leavesNoTrace_iff (hE : E.Documented) (hs : s.directory.Coherent E) (op : Operation) :
    LeavesNoTrace E s op ↔ op.AddsValid := by
  constructor
  · rintro h p rfl
    by_contra hp
    obtain ⟨e, hadd⟩ := addProtocol_invalid (d := s.directory) hE hp
    have hop : s.operate E (.addProtocol p) = (some e, { s with
        directory := s.directory.change (assign s.directory.protocols p.key p) }) := by
      simp only [RequestServer.operate, hadd]
    have hkept := (h.unchanged p rfl (by simp [hop])).1 (p.key, p)
    rw [hop] at hkept
    exact hp (allValid_of_coherent hE hs _ (hkept.mp (mem_assign.mpr (.inr rfl))))
  · intro hop
    suffices hnext : (∀ p, op = .addProtocol p → (s.operate E op).1 = none) ∧
        (s.operate E op).2.directory.Coherent E from
      ⟨fun p hp hthrow => absurd (hnext.1 p hp) hthrow, hnext.2,
        fun p hp => addProtocol_valid hE hnext.2 hp⟩
    cases op with
    | addProtocol p =>
      obtain ⟨d, hadd, hcoherent, -⟩ := addProtocol_valid hE hs (hop p rfl)
      have hstep : s.operate E (.addProtocol p) = (none, { s with directory := d }) := by
        simp only [RequestServer.operate, hadd]
      rw [hstep]
      exact ⟨fun _ _ => rfl, hcoherent⟩
    | event ev => exact ⟨fun p hp => (by cases hp), coherent_serve hE hs ev⟩

/-- **When failed registrations leave no trace.** In a run of the server, exactly when every entry
that is added directly is well-formed UTF-8. -/
theorem failed_registration_iff (hE : E.Documented)
    (hd : ProtocolDirectoryServer.make E = (.ok (), d)) (ops : List Operation) :
    Along (RequestServer.operate E) (LeavesNoTrace E) { directory := d } ops ↔
      ∀ op ∈ ops, op.AddsValid := by
  have hstart : ({ directory := d } : RequestServer).directory.Coherent E :=
    coherent_of_updateCompleteList hd
  have hinput : Along (RequestServer.operate E) (fun _ op => op.AddsValid) { directory := d } ops ↔
      ∀ op ∈ ops, op.AddsValid := along_input
  rw [← hinput]
  constructor
  · intro h
    refine (h.mono_inv (I := fun s => s.directory.Coherent E) (fun s op hs hop => ?_) hstart).1
    exact ⟨(leavesNoTrace_iff hE hs op).mp hop, hop.described⟩
  · intro h
    refine (h.mono_inv (I := fun s => s.directory.Coherent E) (fun s op hs hop => ?_) hstart).1
    have hstep := (leavesNoTrace_iff hE hs op).mpr hop
    exact ⟨hstep, hstep.described⟩

end Directory

/-- A name that is no UTF-8. -/
def badEntry : ProtocolDirectoryEntry := { canEntry with protocolName := [0xFF] }

/-- Two valid entries, and a request whose text is no JSON between them. -/
theorem failed_registration_can : ∃ d,
    ProtocolDirectoryServer.make textEnvironment = (.ok (), d) ∧
      Along (RequestServer.operate textEnvironment) (LeavesNoTrace textEnvironment)
        { directory := d } [.addProtocol canEntry, .event (.request (lit "add") [lit "?"]),
          .addProtocol otherCanEntry] := by
  have hcan : canEntry.toJson.validUtf8 = true := by decide
  have hother : otherCanEntry.toJson.validUtf8 = true := by decide
  obtain ⟨d, hd, -⟩ := Refines.make documented_textEnvironment
  refine ⟨d, hd, (failed_registration_iff documented_textEnvironment hd _).mpr ?_⟩
  simp only [List.forall_mem_cons, Operation.AddsValid]
  refine ⟨?_, ?_, ?_, fun _ h => absurd h List.not_mem_nil⟩
  · rintro _ ⟨⟩
    exact hcan
  · rintro _ ⟨⟩
  · rintro _ ⟨⟩
    exact hother

/-- The entry stays in the map, and a valid one can no longer be added. -/
theorem failed_registration_stays : ¬ ∀ (E : Environment) (d : ProtocolDirectoryServer)
    (ops : List Operation), E.Documented → ProtocolDirectoryServer.make E = (.ok (), d) →
      Along (RequestServer.operate E) (LeavesNoTrace E) { directory := d } ops := by
  intro h
  obtain ⟨d, hd, hrefines⟩ := Refines.make documented_textEnvironment
  have hrun := (h textEnvironment d [.addProtocol badEntry] documented_textEnvironment hd).1
  have hvalid := (leavesNoTrace_iff documented_textEnvironment hrefines.coherent _).mp hrun
    badEntry rfl
  have hbad : badEntry.toJson.validUtf8 = false := by decide
  rw [ProtocolDirectoryEntry.ValidUtf8, hbad] at hvalid
  cases hvalid

end Protos

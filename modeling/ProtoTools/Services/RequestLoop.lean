import ProtoTools.Lib.Machine
import ProtoTools.Services.DirectoryServer

/-!
# Runs of the request loop

* `AllValid d`: the strings of the directory are well formed, so that its list can be serialized.
  `InvalidUnder d key`: they are, but for the entry under the key. That is enough for a change of
  this key (`allValid_assign_iff`, `allValid_eraseKey_iff`).
* `WellFormedRequest E ev`: what the protocol of the server asks of a request. `changeKey E ev`: the
  key that the request changes.
* `handle_socket`, `handle_replying`, `handle_text`: what a reply says of the request's frames.
* `serve_wellFormed`, `serve_uncovered`, `serve_malformed`: a pass of the loop answers a well-formed
  request once, unless the list cannot be serialized after its change; any other one throws.
* `requests_answered_iff`: every request of a run is answered, and the loop goes on, exactly when
  all of them are well formed, and the first change is one of the key under which the directory has
  an ill-formed string, if it has one.
-/

namespace Protos

open Machine ProtocolDirectoryServer

variable {E : Environment}

/-! ## The directory -/

/-- Every string of the directory is well formed. -/
def AllValid (d : ProtocolDirectoryServer) : Prop := ∀ kv ∈ d.protocols, kv.2.ValidUtf8

/-- No entry but the one under the key has an ill-formed string. -/
def InvalidUnder (d : ProtocolDirectoryServer) (key : Str) : Prop :=
  ∀ kv ∈ d.protocols, ¬ kv.2.ValidUtf8 → kv.1 = key

section Directory

variable {d : ProtocolDirectoryServer} {key : Str} {p : ProtocolDirectoryEntry}

theorem validUtf8_listJson (hE : E.Documented) (d : ProtocolDirectoryServer) :
    (listJson (d.values E)).validUtf8 = true ↔ AllValid d := by
  have hkey : validUtf8 (lit "protocols") = true := by decide
  simp only [listJson, values, Json.validUtf8, Json.validMembers, hkey, Bool.true_and,
    Bool.and_true, Json.validElements_iff, List.forall_mem_map,
    (hE.iterate_perm d.changes d.protocols).mem_iff]
  rfl

/-- The list is cached when every string is well formed. -/
theorem updateCompleteList_ok (hE : E.Documented) (hd : AllValid d) :
    ∃ text, E.dump (listJson (d.values E)) = .ok text ∧
      d.updateCompleteList E = (.ok (), { d with completeListJson := text }) := by
  obtain ⟨text, ht⟩ := (hE.dump_iff _).mpr ((validUtf8_listJson hE d).mpr hd)
  exact ⟨text, ht, by rw [updateCompleteList, ht]⟩

/-- When one is not, the call throws and the cached list stays. -/
theorem updateCompleteList_error (hE : E.Documented) (hd : ¬ AllValid d) :
    ∃ e, d.updateCompleteList E = (.error e, d) := by
  unfold updateCompleteList
  cases ht : E.dump (listJson (d.values E)) with
  | error e => exact ⟨e, rfl⟩
  | ok text => exact absurd ((validUtf8_listJson hE d).mp ((hE.dump_iff _).mp ⟨text, ht⟩)) hd

theorem AllValid.invalidUnder (hd : AllValid d) (key : Str) : InvalidUnder d key :=
  fun kv hkv hbad => absurd (hd kv hkv) hbad

theorem allValid_eraseKey_iff :
    AllValid (d.change (eraseKey d.protocols key)) ↔ InvalidUnder d key := by
  simp only [AllValid, InvalidUnder, change_protocols, eraseKey, List.mem_filter, bne_iff_ne]
  grind

/-- A valid entry makes up for the one that was under its key. -/
theorem allValid_assign_iff (hp : p.ValidUtf8) :
    AllValid (d.change (assign d.protocols key p)) ↔ InvalidUnder d key := by
  rw [← allValid_eraseKey_iff]
  simp only [AllValid, change_protocols, assign, List.forall_mem_append, List.mem_singleton,
    forall_eq, and_iff_left hp]

end Directory

/-! ## Requests -/

/-- The keys that name an entry. -/
def nameKeys : List Str := [lit "protocol_name", lit "adapter_descriptor"]

/-- What the server's protocol asks: one frame that is no `add` or `remove`; or `add` and the JSON
text of an entry; or `remove` and the JSON text of its two names. -/
def WellFormedRequest (E : Environment) : Event → Prop
  | .timeout => True
  | .request first [] => first ≠ lit "add" ∧ first ≠ lit "remove"
  | .request first [text] => ∃ j, E.parse text = .ok j ∧
      (first = lit "add" ∧ j.HasStrings ProtocolDirectoryEntry.keys ∨
        first = lit "remove" ∧ j.HasStrings nameKeys)
  | .request _ (_ :: _ :: _) => False

/-- The key that the request changes: the one of the two names in its text. -/
def changeKey (E : Environment) : Event → Option Str
  | .request first [text] =>
    if first = lit "add" ∨ first = lit "remove" then
      match E.parse text >>= entryNames with
      | .ok (protocolName, adapterDescriptor) =>
        some (protocolName ++ lit "|" ++ adapterDescriptor)
      | .error _ => none
    else none
  | _ => none

/-- The replies that the event asks for. -/
def Event.repliesDue : Event → Nat
  | .timeout => 0
  | .request _ _ => 1

theorem bind_ok_iff {ε α β : Type} {e : Except ε α} {f : α → Except ε β} {b : β} :
    e >>= f = .ok b ↔ ∃ a, e = .ok a ∧ f a = .ok b := by
  cases e <;> simp [Bind.bind, Except.bind]

theorem entryNames_ok_iff {j : Json} : (∃ names, entryNames j = .ok names) ↔
    j.HasStrings nameKeys := by
  simp only [entryNames, bind_ok_iff, Json.stringOf_ok, Json.HasStrings, nameKeys, List.mem_cons,
    List.not_mem_nil, or_false, forall_eq_or_imp, forall_eq]
  constructor
  · rintro ⟨_, p, ⟨members, rfl, hp⟩, a, ⟨_, h, ha⟩, -⟩
    cases h
    exact ⟨members, rfl, ⟨p, hp⟩, a, ha⟩
  · rintro ⟨members, rfl, ⟨p, hp⟩, a, ha⟩
    exact ⟨_, p, ⟨members, rfl, hp⟩, a, ⟨members, rfl, ha⟩, rfl⟩

theorem fromJson_ok_iff {j : Json} : (∃ p, ProtocolDirectoryEntry.fromJson j = .ok p) ↔
    j.HasStrings ProtocolDirectoryEntry.keys := by
  simp only [ProtocolDirectoryEntry.fromJson, bind_ok_iff, Json.stringAt_ok, Json.HasStrings,
    ProtocolDirectoryEntry.keys, List.mem_cons, List.not_mem_nil, or_false, forall_eq_or_imp,
    forall_eq]
  constructor
  · rintro ⟨_, p, ⟨members, rfl, hp⟩, a, ⟨_, h1, ha⟩, q, ⟨_, h2, hq⟩, c, ⟨_, h3, hc⟩, -⟩
    cases h1
    cases h2
    cases h3
    exact ⟨members, rfl, ⟨p, hp⟩, ⟨a, ha⟩, ⟨q, hq⟩, c, hc⟩
  · rintro ⟨members, rfl, ⟨p, hp⟩, ⟨a, ha⟩, ⟨q, hq⟩, c, hc⟩
    exact ⟨_, p, ⟨members, rfl, hp⟩, a, ⟨members, rfl, ha⟩, q, ⟨members, rfl, hq⟩, c,
      ⟨members, rfl, hc⟩, rfl⟩

/-- An entry read from a well-formed value is well formed. -/
theorem validUtf8_fromJson {j : Json} (hj : j.validUtf8 = true) {p : ProtocolDirectoryEntry}
    (h : ProtocolDirectoryEntry.fromJson j = .ok p) : p.ValidUtf8 := by
  simp only [ProtocolDirectoryEntry.fromJson, bind_ok_iff, Json.stringAt_ok] at h
  obtain ⟨_, ⟨ms, rfl, h1⟩, _, ⟨_, e2, h2⟩, _, ⟨_, e3, h3⟩, _, ⟨_, e4, h4⟩, hp⟩ := h
  cases e2
  cases e3
  cases e4
  cases hp
  have hkeys : validUtf8 (lit "adapter_descriptor") = true ∧
      validUtf8 (lit "command_endpoint") = true ∧ validUtf8 (lit "protocol_name") = true ∧
      validUtf8 (lit "publisher_endpoint") = true := by decide
  simp [ProtocolDirectoryEntry.ValidUtf8, ProtocolDirectoryEntry.toJson, Json.validUtf8,
    Json.validMembers, hkeys, Json.validUtf8_of_lookup hj h1, Json.validUtf8_of_lookup hj h2,
    Json.validUtf8_of_lookup hj h3, Json.validUtf8_of_lookup hj h4]

/-- The log line reads the names of the entry. -/
theorem entryNames_of_fromJson {j : Json} {p : ProtocolDirectoryEntry}
    (h : ProtocolDirectoryEntry.fromJson j = .ok p) :
    entryNames j = .ok (p.protocolName, p.adapterDescriptor) := by
  simp only [ProtocolDirectoryEntry.fromJson, bind_ok_iff, Json.stringAt_ok] at h
  obtain ⟨_, ⟨ms, rfl, h1⟩, _, ⟨_, e2, h2⟩, _, -, _, -, hp⟩ := h
  cases e2
  cases hp
  simp only [entryNames, bind_ok_iff, Json.stringOf_ok]
  exact ⟨_, ⟨ms, rfl, h1⟩, _, ⟨ms, rfl, h2⟩, rfl⟩

theorem changeKey_text {first text : Bytes} {j : Json} {protocolName adapterDescriptor : Str}
    (hfirst : first = lit "add" ∨ first = lit "remove") (hp : E.parse text = .ok j)
    (hn : entryNames j = .ok (protocolName, adapterDescriptor)) :
    changeKey E (.request first [text]) = some (protocolName ++ lit "|" ++ adapterDescriptor) := by
  have hnames : E.parse text >>= entryNames = .ok (protocolName, adapterDescriptor) :=
    bind_ok_iff.mpr ⟨j, hp, hn⟩
  simp only [changeKey, if_pos hfirst, hnames]

/-! ## One pass of the loop -/

section Pass

variable {s : RequestServer} {text : Bytes} {rest : List Bytes} {j : Json}

theorem receiveEntry_receiving (hs : s.repSocket = .receiving text rest) :
    s.receiveEntry E = (E.parse text, { s with repSocket := RepSocket.afterFrame rest }) := by
  rw [RequestServer.receiveEntry, hs]
  rfl

theorem receiveEntry_replying (hs : s.repSocket = .replying) :
    s.receiveEntry E = (.error .efsm, s) := by
  rw [RequestServer.receiveEntry, hs]
  rfl

/-- The text of an entry is added. -/
theorem handleAdd_eq {p : ProtocolDirectoryEntry} (hs : s.repSocket = .receiving text rest)
    (hp : E.parse text = .ok j) (hf : ProtocolDirectoryEntry.fromJson j = .ok p) :
    s.handleAdd E = ((s.directory.addProtocol E p).1.map fun _ => lit "OK" ++ [0],
      ⟨(s.directory.addProtocol E p).2, RepSocket.afterFrame rest⟩) := by
  rw [RequestServer.handleAdd, receiveEntry_receiving hs, hp]
  simp only [entryNames_of_fromJson hf, hf]
  rcases s.directory.addProtocol E p with ⟨_ | _, d⟩ <;> rfl

/-- The text of the two names is removed. -/
theorem handleRemove_eq {protocolName adapterDescriptor : Str}
    (hs : s.repSocket = .receiving text rest) (hp : E.parse text = .ok j)
    (hn : entryNames j = .ok (protocolName, adapterDescriptor))
    {r : Except Fault Unit × ProtocolDirectoryServer}
    (hr : updateCompleteList E (s.directory.change (eraseKey s.directory.protocols
      (protocolName ++ lit "|" ++ adapterDescriptor))) = r) :
    s.handleRemove E = (r.1.map fun _ => lit "OK" ++ [0], ⟨r.2, RepSocket.afterFrame rest⟩) := by
  rw [RequestServer.handleRemove, receiveEntry_receiving hs, hp]
  simp only [hn, hr]
  rcases r with ⟨_ | _, d⟩ <;> rfl

/-- A well-formed `add` or `remove` changes the map under its key and has the list serialized. -/
theorem handle_change (hE : E.Documented) {first : Bytes}
    (hs : s.repSocket = .receiving text rest) (hev : WellFormedRequest E (.request first [text])) :
    ∃ key protocols, changeKey E (.request first [text]) = some key ∧
      (AllValid (s.directory.change protocols) ↔ InvalidUnder s.directory key) ∧
      ∀ r, (s.directory.change protocols).updateCompleteList E = r →
        s.handle E first =
          (r.1.map fun _ => lit "OK" ++ [0], ⟨r.2, RepSocket.afterFrame rest⟩) := by
  obtain ⟨j, hp, ⟨rfl, hj⟩ | ⟨rfl, hj⟩⟩ := hev
  · obtain ⟨p, hf⟩ := fromJson_ok_iff.mpr hj
    refine ⟨p.key, assign s.directory.protocols p.key p,
      changeKey_text (.inl rfl) hp (entryNames_of_fromJson hf),
      allValid_assign_iff (validUtf8_fromJson (hE.parse_valid _ _ hp) hf), ?_⟩
    rintro r rfl
    rw [RequestServer.handle, if_neg (by decide), if_pos rfl]
    exact handleAdd_eq hs hp hf
  · obtain ⟨⟨protocolName, adapterDescriptor⟩, hn⟩ := entryNames_ok_iff.mpr hj
    refine ⟨protocolName ++ lit "|" ++ adapterDescriptor, eraseKey s.directory.protocols _,
      changeKey_text (.inr rfl) hp hn, allValid_eraseKey_iff, fun r hr => ?_⟩
    rw [RequestServer.handle, if_neg (by decide), if_neg (by decide), if_pos rfl]
    exact handleRemove_eq hs hp hn hr

/-- A text that is not one of an entry throws. -/
theorem handleAdd_error (hs : s.repSocket = .receiving text rest)
    (hno : ∀ j, E.parse text = .ok j → ¬ j.HasStrings ProtocolDirectoryEntry.keys) :
    ∃ e s', s.handleAdd E = (.error e, s') := by
  rw [RequestServer.handleAdd, receiveEntry_receiving hs]
  cases hp : E.parse text with
  | error e => exact ⟨e, _, rfl⟩
  | ok j =>
    simp only
    cases hn : entryNames j with
    | error e => exact ⟨e, _, rfl⟩
    | ok names =>
      cases hf : ProtocolDirectoryEntry.fromJson j with
      | error e => exact ⟨e, _, rfl⟩
      | ok p => exact absurd (fromJson_ok_iff.mp ⟨p, hf⟩) (hno j hp)

theorem handleRemove_error (hs : s.repSocket = .receiving text rest)
    (hno : ∀ j, E.parse text = .ok j → ¬ j.HasStrings nameKeys) :
    ∃ e s', s.handleRemove E = (.error e, s') := by
  rw [RequestServer.handleRemove, receiveEntry_receiving hs]
  cases hp : E.parse text with
  | error e => exact ⟨e, _, rfl⟩
  | ok j =>
    simp only
    cases hn : entryNames j with
    | error e => exact ⟨e, _, rfl⟩
    | ok names => exact absurd (entryNames_ok_iff.mp ⟨names, hn⟩) (hno j hp)

/-- A reply to `add` or `remove` leaves the frames after the second one. -/
theorem handleAdd_socket {reply : Bytes} {s' : RequestServer}
    (hs : s.repSocket = .receiving text rest) (h : s.handleAdd E = (.ok reply, s')) :
    s'.repSocket = RepSocket.afterFrame rest := by
  rw [RequestServer.handleAdd, receiveEntry_receiving hs] at h
  cases hp : E.parse text with
  | error e => simp [hp] at h
  | ok j =>
    simp only [hp] at h
    split at h
    · simp at h
    · split at h
      · simp at h
      · split at h
        · simp at h
        · cases h
          rfl

theorem handleRemove_socket {reply : Bytes} {s' : RequestServer}
    (hs : s.repSocket = .receiving text rest) (h : s.handleRemove E = (.ok reply, s')) :
    s'.repSocket = RepSocket.afterFrame rest := by
  rw [RequestServer.handleRemove, receiveEntry_receiving hs] at h
  cases hp : E.parse text with
  | error e => simp [hp] at h
  | ok j =>
    simp only [hp] at h
    split at h
    · simp at h
    · split at h
      · simp at h
      · cases h
        rfl

/-- A reply after one frame leaves the others. -/
theorem handle_socket {req reply : Bytes} {s' : RequestServer}
    (hs : s.repSocket = .receiving text rest) (h : s.handle E req = (.ok reply, s')) :
    s'.repSocket = .receiving text rest ∨
      (req = lit "add" ∨ req = lit "remove") ∧ s'.repSocket = RepSocket.afterFrame rest := by
  unfold RequestServer.handle at h
  split at h
  · cases h
    exact .inl hs
  · split at h
    · rename_i hadd
      exact .inr ⟨.inl hadd, handleAdd_socket hs h⟩
    · split at h
      · rename_i hremove
        exact .inr ⟨.inr hremove, handleRemove_socket hs h⟩
      · cases h
        exact .inl hs

/-- A request of one frame that gets a reply is neither `add` nor `remove`. -/
theorem handle_replying {req reply : Bytes} {s' : RequestServer} (hs : s.repSocket = .replying)
    (h : s.handle E req = (.ok reply, s')) : req ≠ lit "add" ∧ req ≠ lit "remove" := by
  constructor
  · rintro rfl
    rw [RequestServer.handle, if_neg (by decide), if_pos rfl, RequestServer.handleAdd,
      receiveEntry_replying hs] at h
    cases h
  · rintro rfl
    rw [RequestServer.handle, if_neg (by decide), if_neg (by decide), if_pos rfl,
      RequestServer.handleRemove, receiveEntry_replying hs] at h
    cases h

/-- `add` or `remove` gets a reply only for the JSON text that it asks for. -/
theorem handle_text {req reply : Bytes} {s' : RequestServer}
    (hs : s.repSocket = .receiving text rest) (h : s.handle E req = (.ok reply, s')) :
    (req = lit "add" → ∃ j, E.parse text = .ok j ∧ j.HasStrings ProtocolDirectoryEntry.keys) ∧
      (req = lit "remove" → ∃ j, E.parse text = .ok j ∧ j.HasStrings nameKeys) := by
  constructor
  · rintro rfl
    by_contra hno
    obtain ⟨e, x, he⟩ := handleAdd_error (E := E) hs fun j hp hj => hno ⟨j, hp, hj⟩
    rw [RequestServer.handle, if_neg (by decide), if_pos rfl, he] at h
    cases h
  · rintro rfl
    by_contra hno
    obtain ⟨e, x, he⟩ := handleRemove_error (E := E) hs fun j hp hj => hno ⟨j, hp, hj⟩
    rw [RequestServer.handle, if_neg (by decide), if_neg (by decide), if_pos rfl, he] at h
    cases h

end Pass

section Serve

variable {d : ProtocolDirectoryServer} {ev : Event}

/-- **A well-formed request** is answered once, and a timeout is not; the loop goes on. The
directory is unchanged, or it was changed and can be serialized. -/
theorem serve_wellFormed (hE : E.Documented) (hev : WellFormedRequest E ev)
    (hkey : ∀ key, changeKey E ev = some key → InvalidUnder d key) :
    ∃ outcome d', RequestServer.serve E { directory := d } ev = (outcome, { directory := d' }) ∧
      outcome.thrown = none ∧ outcome.replies.length = ev.repliesDue ∧
      (changeKey E ev = none ∧ d' = d ∨ (∃ key, changeKey E ev = some key) ∧ AllValid d') := by
  cases ev with
  | timeout => exact ⟨_, d, rfl, rfl, rfl, .inl ⟨rfl, rfl⟩⟩
  | request first rest =>
    -- the handler gives a reply, and all frames are received
    suffices hhandle : ∃ reply d', RequestServer.handle E ⟨d, RepSocket.afterFrame rest⟩ first =
        (.ok reply, ⟨d', .replying⟩) ∧
        (changeKey E (.request first rest) = none ∧ d' = d ∨
          (∃ key, changeKey E (.request first rest) = some key) ∧ AllValid d') by
      obtain ⟨reply, d', h, hd'⟩ := hhandle
      refine ⟨{ published := [d.completeListJson], replies := [reply] }, d', ?_, rfl, rfl, hd'⟩
      simp only [RequestServer.serve, RepSocket.recv, h, RepSocket.send]
    match rest with
    | [] =>
      obtain ⟨h1, h2⟩ := hev
      unfold RequestServer.handle
      by_cases hl : first = lit "list"
      · exact ⟨_, d, if_pos hl, .inl ⟨rfl, rfl⟩⟩
      · exact ⟨_, d, by rw [if_neg hl, if_neg h1, if_neg h2]; rfl, .inl ⟨rfl, rfl⟩⟩
    | [text] =>
      obtain ⟨key, protocols, hk, hvalid, hhandle⟩ :=
        handle_change (s := ⟨d, RepSocket.afterFrame [text]⟩) hE rfl hev
      have hd : AllValid (d.change protocols) := hvalid.mpr (hkey key hk)
      obtain ⟨json, -, hupdate⟩ := updateCompleteList_ok hE hd
      exact ⟨_, _, hhandle _ hupdate, .inr ⟨⟨key, hk⟩, hd⟩⟩

/-- **A change that leaves an ill-formed string** in the directory throws. -/
theorem serve_uncovered (hE : E.Documented) (hev : WellFormedRequest E ev) {key : Str}
    (hkey : changeKey E ev = some key) (hd : ¬ InvalidUnder d key) :
    (RequestServer.serve E { directory := d } ev).1.thrown.isSome = true := by
  match ev with
  | .timeout => cases hkey
  | .request first [] => cases hkey
  | .request first [text] =>
    obtain ⟨key', protocols, hk, hvalid, hhandle⟩ :=
      handle_change (s := ⟨d, RepSocket.afterFrame [text]⟩) hE rfl hev
    obtain rfl : key' = key := Option.some.inj (hk.symm.trans hkey)
    obtain ⟨e, hupdate⟩ := updateCompleteList_error hE fun h => hd (hvalid.mp h)
    simp only [RequestServer.serve, RepSocket.recv, hhandle _ hupdate, Except.map]
    rfl
  | .request _ (_ :: _ :: _) => cases hev

/-- **Any other request** makes an exception leave the loop. -/
theorem serve_malformed (hev : ¬ WellFormedRequest E ev) :
    (RequestServer.serve E { directory := d } ev).1.thrown.isSome = true := by
  cases ev with
  | timeout => exact absurd trivial hev
  | request first rest =>
    simp only [RequestServer.serve, RepSocket.recv]
    cases hh : RequestServer.handle E ⟨d, RepSocket.afterFrame rest⟩ first with
    | mk r s' =>
      cases r with
      | error e => rfl
      | ok reply =>
        simp only
        -- a reply is there, so the request has frames that the reply comes too early for
        match rest, hev, hh with
        | [], hev, hh => exact absurd (handle_replying rfl hh) hev
        | [text], hev, hh =>
          have hs : (⟨d, RepSocket.afterFrame [text]⟩ : RequestServer).repSocket =
            .receiving text [] := rfl
          obtain ⟨hadd, hremove⟩ := handle_text hs hh
          rcases handle_socket hs hh with h | ⟨h, -⟩
          · simp [h, RepSocket.send]
          · refine absurd ?_ hev
            rcases h with h | h
            · obtain ⟨j, hp, hj⟩ := hadd h
              exact ⟨j, hp, .inl ⟨h, hj⟩⟩
            · obtain ⟨j, hp, hj⟩ := hremove h
              exact ⟨j, hp, .inr ⟨h, hj⟩⟩
        | text :: next :: more, hev, hh =>
          have hs : (⟨d, RepSocket.afterFrame (text :: next :: more)⟩ : RequestServer).repSocket =
            .receiving text (next :: more) := rfl
          rcases handle_socket hs hh with h | ⟨-, h⟩ <;>
            simp [h, RepSocket.afterFrame, RepSocket.send]

end Serve

/-! ## Runs -/

/-- The event gets the replies that it asks for, and the loop goes on. -/
def Answered (E : Environment) (t : Thread) (ev : Event) : Prop :=
  (∃ s, (t.step E ev).2 = .running s) ∧ (t.step E ev).1.replies.length = ev.repliesDue

/-- The first change of the run, if there is one, is one of the key under which the directory has
an ill-formed string, if it has one. -/
def Repairs (E : Environment) (d : ProtocolDirectoryServer) (events : List Event) : Prop :=
  ∀ key, events.findSome? (changeKey E) = some key → InvalidUnder d key

section Runs

variable {d : ProtocolDirectoryServer} {ev : Event} {events : List Event}

theorem repairs_cons_none (h : changeKey E ev = none) :
    Repairs E d (ev :: events) ↔ Repairs E d events := by
  simp only [Repairs, List.findSome?_cons, h]

theorem repairs_cons_some {key : Str} (h : changeKey E ev = some key) :
    Repairs E d (ev :: events) ↔ InvalidUnder d key := by
  simp only [Repairs, List.findSome?_cons, h, Option.some.injEq, forall_eq']

/-- The event is answered, and the directory after it is repaired by the rest of the run as the one
before it is by the whole run. -/
theorem answered_next (hE : E.Documented) (hev : WellFormedRequest E ev)
    (hkey : ∀ key, changeKey E ev = some key → InvalidUnder d key) (events : List Event) :
    ∃ d', Answered E (.running { directory := d }) ev ∧
      (Thread.step E (.running { directory := d }) ev).2 = .running { directory := d' } ∧
      (Repairs E d' events ↔ Repairs E d (ev :: events)) := by
  obtain ⟨outcome, d', hserve, hthrown, hreplies, hd'⟩ := serve_wellFormed hE hev hkey
  have hstep : Thread.step E (.running { directory := d }) ev =
      (outcome, .running { directory := d' }) := by
    simp only [Thread.step, hserve, hthrown]
    rfl
  refine ⟨d', ⟨⟨_, by rw [hstep]⟩, by rw [hstep]; exact hreplies⟩, by rw [hstep], ?_⟩
  rcases hd' with ⟨hnone, rfl⟩ | ⟨⟨key, hk⟩, hvalid⟩
  · exact (repairs_cons_none hnone).symm
  · exact iff_of_true (fun key' _ => hvalid.invalidUnder key')
      ((repairs_cons_some hk).mpr (hkey key hk))

/-- **One event.** -/
theorem answered_iff (hE : E.Documented) :
    Answered E (.running { directory := d }) ev ↔
      WellFormedRequest E ev ∧ ∀ key, changeKey E ev = some key → InvalidUnder d key := by
  -- an exception leaves the loop
  have hends : (RequestServer.serve E { directory := d } ev).1.thrown.isSome = true →
      ¬ Answered E (.running { directory := d }) ev := by
    rintro h ⟨⟨s, hs⟩, -⟩
    simp only [Thread.step, h, if_true] at hs
    cases hs
  constructor
  · intro h
    have hev : WellFormedRequest E ev := by
      by_contra hno
      exact hends (serve_malformed hno) h
    refine ⟨hev, fun key hkey => ?_⟩
    by_contra hno
    exact hends (serve_uncovered hE hev hkey hno) h
  · rintro ⟨hev, hkey⟩
    obtain ⟨_, h, -⟩ := answered_next hE hev hkey []
    exact h

/-- **When no request brings the server down.** From any directory, every request of a run gets
exactly one reply and the loop goes on, exactly when every request is well formed, and the first
change leaves no string in the directory that is no UTF-8. -/
theorem requests_answered_iff (hE : E.Documented) (d : ProtocolDirectoryServer)
    (events : List Event) :
    Along (Thread.step E) (Answered E) (.running { directory := d }) events ↔
      (∀ ev ∈ events, WellFormedRequest E ev) ∧ Repairs E d events := by
  induction events generalizing d with
  | nil => simp [Repairs]
  | cons ev events ih =>
    rw [along_cons, answered_iff hE, List.forall_mem_cons]
    constructor
    · rintro ⟨⟨hev, hkey⟩, hrest⟩
      obtain ⟨d', -, hstep, hrepairs⟩ := answered_next hE hev hkey events
      rw [hstep, ih d', hrepairs] at hrest
      exact ⟨⟨hev, hrest.1⟩, hrest.2⟩
    · rintro ⟨⟨hev, hall⟩, hfirst⟩
      have hkey : ∀ key, changeKey E ev = some key → InvalidUnder d key :=
        fun key hk => (repairs_cons_some hk).mp hfirst
      obtain ⟨d', -, hstep, hrepairs⟩ := answered_next hE hev hkey events
      rw [hstep, ih d', hrepairs]
      exact ⟨⟨hev, hkey⟩, hall, hfirst⟩

end Runs

/-! ## An environment -/

/-- The entry of a CAN bus. -/
def canEntry : ProtocolDirectoryEntry :=
  ⟨lit "CAN", lit "USB", lit "tcp://localhost:1", lit "tcp://localhost:2"⟩

/-- The serializer without indentation, a parser of the entry's text, and a map in the order of its
assignments. -/
def canEnvironment : Environment where
  parse text :=
    if text = canEntry.toJson.compact then .ok canEntry.toJson else .error (.jsonError 101)
  dump j := if j.validUtf8 then .ok j.compact else .error (.jsonError 316)
  iterate _ protocols := protocols

theorem documented_canEnvironment : canEnvironment.Documented where
  parse_valid := by
    intro text j h
    simp only [canEnvironment] at h
    split at h
    · cases h
      decide
    · cases h
  dump_iff := by
    intro j
    simp only [canEnvironment]
    split <;> simp_all
  iterate_perm := fun _ _ => List.Perm.refl _

/-- A frame after `list`: the reply comes too early, and the exception leaves the loop. -/
theorem list_with_frame_ends_loop : ¬ ∀ (E : Environment) (d : ProtocolDirectoryServer),
    E.Documented → ProtocolDirectoryServer.make E = (.ok (), d) → ∀ events,
      Along (Thread.step E) (Answered E) (.running { directory := d }) events := by
  intro h
  have hmake : (ProtocolDirectoryServer.make canEnvironment).1 = .ok () := rfl
  obtain ⟨⟨⟨s, hs⟩, -⟩, -⟩ := h canEnvironment _ documented_canEnvironment
    (Prod.ext hmake rfl) [.request (lit "list") [[]]]
  cases hs

/-- The directory after a call of `addProtocol` that threw: the entry's endpoint is no UTF-8. -/
def brokenServer : ProtocolDirectoryServer :=
  ((ProtocolDirectoryServer.make canEnvironment).2.addProtocol canEnvironment
    { canEntry with commandEndpoint := [0xFF] }).2

/-- A timeout, a list, the entry added once more and listed, and a request that the server does not
know. -/
theorem requests_answered_can :
    Along (Thread.step canEnvironment) (Answered canEnvironment)
      (.running { directory := brokenServer })
      [.timeout, .request (lit "list") [], .request (lit "add") [canEntry.toJson.compact],
        .request (lit "list") [], .request (lit "query") []] := by
  have hparse : canEnvironment.parse canEntry.toJson.compact = .ok canEntry.toJson := by
    simp [canEnvironment]
  have hadd : WellFormedRequest canEnvironment
      (.request (lit "add") [canEntry.toJson.compact]) := by
    refine ⟨canEntry.toJson, hparse, .inl ⟨rfl, _, rfl, ?_⟩⟩
    simp only [ProtocolDirectoryEntry.keys, List.forall_mem_cons]
    exact ⟨⟨_, rfl⟩, ⟨_, rfl⟩, ⟨_, rfl⟩, ⟨_, rfl⟩, fun _ h => absurd h List.not_mem_nil⟩
  apply (requests_answered_iff documented_canEnvironment brokenServer _).mpr
  constructor
  · simp only [List.forall_mem_cons]
    exact ⟨trivial, ⟨by decide, by decide⟩, hadd, ⟨by decide, by decide⟩,
      ⟨by decide, by decide⟩, fun _ h => absurd h List.not_mem_nil⟩
  · -- the first change is the one of the entry
    have hkey : changeKey canEnvironment (.request (lit "add") [canEntry.toJson.compact]) =
        some canEntry.key := changeKey_text (.inl rfl) hparse rfl
    apply (repairs_cons_none rfl).mpr
    apply (repairs_cons_none rfl).mpr
    apply (repairs_cons_some hkey).mpr
    intro kv hkv _
    rw [show brokenServer.protocols = [(canEntry.key, _)] from rfl, List.mem_singleton] at hkv
    rw [hkv]

end Protos

import ProtoTools.Services.DirectoryClient
import ProtoTools.Services.Messages
import ProtoTools.Services.RequestLoop

/-!
# The directory as a map

* `Registry`: what the directory is for, a map from the name of a protocol and its adapter to an
  entry. `Change` is what an operation does to it.
* `Stores`: the entries of the server are those of the registry. Its lemmas are about the lists that
  the server builds (`Stores.put`, `Stores.drop`), and rest on the keys being distinct
  (`key_inj`).
* `coherent_operate`: an operation that does not throw leaves the cached list the one of the
  entries.
* `Refines`: the directory between two operations. `Refines.operate`: each operation is the change
  that it asks for.
* `directory_refines_map`: after every run the cached list is read back as the registry.
-/

namespace Protos

open Machine ProtocolDirectoryServer

/-! ## The registry -/

/-- The pair that names the entry. -/
def ProtocolDirectoryEntry.pair (p : ProtocolDirectoryEntry) : Str × Str :=
  (p.protocolName, p.adapterDescriptor)

/-- The entries by the pairs that name them. -/
abbrev Registry := Str × Str → Option ProtocolDirectoryEntry

inductive Change where
  | put (p : ProtocolDirectoryEntry)
  | drop (protocolName adapterDescriptor : Str)
  | keep

def Registry.apply (r : Registry) : Change → Registry
  | .put p => Function.update r p.pair (some p)
  | .drop protocolName adapterDescriptor =>
    Function.update r (protocolName, adapterDescriptor) none
  | .keep => r

/-- The registry after the changes, from the empty one. -/
def Registry.afterAll (changes : List Change) : Registry :=
  changes.foldl Registry.apply fun _ => none

/-- The name in the change has no `|`. -/
def Change.Plain : Change → Prop
  | .put p => bar ∉ p.protocolName
  | .drop protocolName _ => bar ∉ protocolName
  | .keep => True

/-! ## The entries of the server -/

/-- The key of a pair. -/
def keyOf (pair : Str × Str) : Str := pair.1 ++ lit "|" ++ pair.2

/-- **Keys are distinct** when names have no `|`. -/
theorem keyOf_inj {a b : Str × Str} (ha : bar ∉ a.1) (hb : bar ∉ b.1) :
    keyOf a = keyOf b ↔ a = b := by
  constructor
  · intro h
    simp only [keyOf, lit_bar, List.append_assoc, List.singleton_append] at h
    have hsplit := congrArg splitHeader h
    rw [splitHeader_source ha, splitHeader_source hb, ProtoHeader.mk.injEq] at hsplit
    exact Prod.ext hsplit.1 hsplit.2
  · rintro rfl
    rfl

/-- The server has the entries of the registry. -/
structure Stores (protocols : ProtocolDirectory) (r : Registry) : Prop where
  /-- Each entry is under its own key. -/
  keys : ∀ kv ∈ protocols, kv.1 = keyOf kv.2.pair ∧ bar ∉ kv.2.protocolName
  nodup : (protocols.map (·.1)).Nodup
  mem : ∀ p : ProtocolDirectoryEntry, (keyOf p.pair, p) ∈ protocols ↔ r p.pair = some p
  pairs : ∀ pair p, r pair = some p → p.pair = pair

section Stores

variable {protocols : ProtocolDirectory} {r : Registry}

theorem Stores.nil : Stores [] fun _ => none where
  keys := by simp
  nodup := List.nodup_nil
  mem := by simp
  pairs := by simp

/-- The entries without the one of a pair. -/
theorem Stores.drop (h : Stores protocols r) (pair : Str × Str) (hpair : bar ∉ pair.1) :
    Stores (eraseKey protocols (keyOf pair)) (Function.update r pair none) where
  keys kv hkv := h.keys kv (List.mem_filter.mp hkv).1
  nodup := h.nodup.sublist (List.filter_sublist.map _)
  mem p := by
    rw [eraseKey, List.mem_filter, h.mem, bne_iff_ne]
    by_cases hp : p.pair = pair
    · subst hp
      simp
    · rw [Function.update_of_ne hp]
      refine ⟨And.left, fun hr => ⟨hr, fun hkey => hp ?_⟩⟩
      exact (keyOf_inj (h.keys _ ((h.mem p).mpr hr)).2 hpair).mp hkey
  pairs pair' p hr := by
    by_cases hp : pair' = pair
    · subst hp
      simp at hr
    · exact h.pairs pair' p (by rwa [Function.update_of_ne hp] at hr)

/-- An entry for a pair that has none. -/
theorem Stores.add (h : Stores protocols r) {p : ProtocolDirectoryEntry}
    (hname : bar ∉ p.protocolName) (hnone : r p.pair = none) :
    Stores (protocols ++ [(keyOf p.pair, p)]) (Function.update r p.pair (some p)) where
  keys kv hkv := by
    rcases List.mem_append.mp hkv with hkv | hkv
    · exact h.keys kv hkv
    · rw [List.mem_singleton.mp hkv]
      exact ⟨rfl, hname⟩
  nodup := by
    rw [List.map_append, List.nodup_append]
    refine ⟨h.nodup, List.nodup_singleton _, ?_⟩
    intro key hkey key' hkey' heq
    obtain ⟨kv, hkv, rfl⟩ := List.mem_map.mp hkey
    obtain ⟨hkv1, hkv2⟩ := h.keys kv hkv
    -- an entry under this key is one for the pair
    rw [List.mem_singleton.mp hkey', hkv1] at heq
    have hpair : kv.2.pair = p.pair := (keyOf_inj hkv2 hname).mp heq
    have hmem := (h.mem kv.2).mp (by rw [← hkv1]; exact hkv)
    rw [hpair, hnone] at hmem
    cases hmem
  mem q := by
    rw [List.mem_append, h.mem, List.mem_singleton, Prod.mk.injEq]
    by_cases hq : q.pair = p.pair
    · rw [hq, hnone, Function.update_self]
      simp [eq_comm]
    · rw [Function.update_of_ne hq]
      refine ⟨fun hor => hor.resolve_right fun hqp => hq (by rw [hqp.2]), .inl⟩
  pairs pair q hr := by
    by_cases hp : pair = p.pair
    · subst hp
      rw [Function.update_self, Option.some.injEq] at hr
      rw [hr]
    · exact h.pairs pair q (by rwa [Function.update_of_ne hp] at hr)

/-- The assignment of an entry. -/
theorem Stores.put (h : Stores protocols r) {p : ProtocolDirectoryEntry}
    (hname : bar ∉ p.protocolName) :
    Stores (assign protocols p.key p) (Function.update r p.pair (some p)) := by
  have hadd := (h.drop p.pair hname).add hname (Function.update_self _ _ _)
  rwa [Function.update_idem] at hadd

/-- The entries in any order name each pair once. -/
theorem Stores.nodup_pairs (h : Stores protocols r) {entries : ProtocolDirectory}
    (hperm : entries.Perm protocols) : ((entries.map (·.2)).map (·.pair)).Nodup := by
  -- the keys are those of the pairs
  have hkeys : ((entries.map (·.2)).map (·.pair)).map keyOf = entries.map (·.1) := by
    rw [List.map_map, List.map_map]
    exact List.map_congr_left fun kv hkv => (h.keys kv (hperm.mem_iff.mp hkv)).1.symm
  apply List.Nodup.of_map keyOf
  rw [hkeys]
  exact (hperm.map _).nodup_iff.mpr h.nodup

/-- The entries in any order are those of the registry. -/
theorem Stores.mem_entries (h : Stores protocols r) {entries : ProtocolDirectory}
    (hperm : entries.Perm protocols) (pair : Str × Str) (p : ProtocolDirectoryEntry) :
    r pair = some p ↔ p ∈ entries.map (·.2) ∧ p.pair = pair := by
  have hmem : p ∈ entries.map (·.2) ↔ r p.pair = some p := by
    rw [← h.mem, List.mem_map]
    constructor
    · rintro ⟨kv, hkv, rfl⟩
      have hkv := hperm.mem_iff.mp hkv
      rwa [← (h.keys kv hkv).1]
    · exact fun hp => ⟨_, hperm.mem_iff.mpr hp, rfl⟩
  rw [hmem]
  constructor
  · intro hr
    obtain rfl := h.pairs pair p hr
    exact ⟨hr, rfl⟩
  · rintro ⟨hr, rfl⟩
    exact hr

end Stores

/-! ## The operations -/

/-- What is done to the server, one after the other: direct calls, and passes of its loop. -/
inductive Operation where
  | addProtocol (p : ProtocolDirectoryEntry)
  | event (ev : Event)

/-- One operation, to the exception that it throws. -/
def RequestServer.operate (E : Environment) (s : RequestServer) :
    Operation → Option Fault × RequestServer
  | .addProtocol p =>
    match s.directory.addProtocol E p with
    | (.error e, d) => (some e, { s with directory := d })
    | (.ok _, d) => (none, { s with directory := d })
  | .event ev => ((s.serve E ev).1.thrown, (s.serve E ev).2)

/-- The well-formed operations, and the changes that they ask for. -/
inductive Operation.Means (E : Environment) : Operation → Change → Prop
  | addProtocol {p : ProtocolDirectoryEntry} : p.ValidUtf8 → Means E (.addProtocol p) (.put p)
  | timeout : Means E (.event .timeout) .keep
  /-- `list`, or a request that the server does not know. -/
  | other {first : Bytes} : first ≠ lit "add" → first ≠ lit "remove" →
      Means E (.event (.request first [])) .keep
  | add {text : Bytes} {j : Json} {p : ProtocolDirectoryEntry} : E.parse text = .ok j →
      ProtocolDirectoryEntry.fromJson j = .ok p →
      Means E (.event (.request (lit "add") [text])) (.put p)
  | remove {text : Bytes} {j : Json} {protocolName adapterDescriptor : Str} :
      E.parse text = .ok j → entryNames j = .ok (protocolName, adapterDescriptor) →
      Means E (.event (.request (lit "remove") [text])) (.drop protocolName adapterDescriptor)

/-- The cached list is the one of the entries. -/
def ProtocolDirectoryServer.Coherent (E : Environment) (d : ProtocolDirectoryServer) : Prop :=
  E.dump (listJson (d.values E)) = .ok d.completeListJson

section Coherent

variable {E : Environment} {s s' : RequestServer} {reply req : Bytes}

theorem coherent_of_updateCompleteList {d d' : ProtocolDirectoryServer}
    (h : d.updateCompleteList E = (.ok (), d')) : d'.Coherent E := by
  unfold updateCompleteList at h
  split at h
  · cases h
  · rename_i text ht
    cases h
    exact ht

theorem coherent_handleAdd (h : s.handleAdd E = (.ok reply, s')) : s'.directory.Coherent E := by
  unfold RequestServer.handleAdd at h
  split at h
  · cases h
  split at h
  · cases h
  split at h
  · cases h
  split at h
  · cases h
  · rename_i hd
    cases h
    exact coherent_of_updateCompleteList hd

theorem coherent_handleRemove (h : s.handleRemove E = (.ok reply, s')) :
    s'.directory.Coherent E := by
  unfold RequestServer.handleRemove at h
  split at h
  · cases h
  split at h
  · cases h
  simp only at h
  split at h
  · cases h
  · rename_i hd
    cases h
    exact coherent_of_updateCompleteList hd

theorem coherent_handle (hs : s.directory.Coherent E) (h : s.handle E req = (.ok reply, s')) :
    s'.directory.Coherent E := by
  unfold RequestServer.handle at h
  split at h
  · cases h
    exact hs
  split at h
  · exact coherent_handleAdd h
  split at h
  · exact coherent_handleRemove h
  · cases h
    exact hs

/-- **The cached list** stays the one of the entries in every operation that does not throw,
whatever is asked for. -/
theorem coherent_operate (hs : s.directory.Coherent E) {op : Operation}
    (h : (s.operate E op).1 = none) : (s.operate E op).2.directory.Coherent E := by
  cases op with
  | addProtocol p =>
    cases hd : s.directory.addProtocol E p with
    | mk result d =>
      simp only [RequestServer.operate, hd] at h ⊢
      cases result with
      | error e => cases h
      | ok _ => exact coherent_of_updateCompleteList hd
  | event ev =>
    simp only [RequestServer.operate, RequestServer.serve] at h ⊢
    split at h
    · cases h
    · exact hs
    · rename_i socket hrecv
      split at h
      · cases h
      · rename_i s' hhandle
        have hs' : s'.directory.Coherent E :=
          coherent_handle (s := { s with repSocket := socket }) hs hhandle
        split at h
        · cases h
        · exact hs'

end Coherent

/-- The directory between two operations. -/
structure Refines (E : Environment) (d : ProtocolDirectoryServer) (r : Registry) : Prop where
  valid : AllValid d
  coherent : d.Coherent E
  stores : Stores d.protocols r

section Operate

variable {E : Environment} {d : ProtocolDirectoryServer} {r : Registry}

/-- The list of the entries is cached. -/
theorem Refines.update (hE : E.Documented) (hd : AllValid d) (hr : Stores d.protocols r) :
    ∃ d', d.updateCompleteList E = (.ok (), d') ∧ Refines E d' r := by
  obtain ⟨text, ht, hupdate⟩ := updateCompleteList_ok hE hd
  exact ⟨_, hupdate, hd, ht, hr⟩

theorem Refines.make (hE : E.Documented) :
    ∃ d, ProtocolDirectoryServer.make E = (.ok (), d) ∧ Refines E d fun _ => none :=
  Refines.update hE (by simp [AllValid]) .nil

theorem Refines.put (hE : E.Documented) (h : Refines E d r) {p : ProtocolDirectoryEntry}
    (hp : p.ValidUtf8) (hname : bar ∉ p.protocolName) :
    ∃ d', d.addProtocol E p = (.ok (), d') ∧ Refines E d' (r.apply (.put p)) :=
  Refines.update hE ((allValid_assign_iff hp).mpr (h.valid.invalidUnder p.key))
    (h.stores.put hname)

theorem Refines.drop (hE : E.Documented) (h : Refines E d r) {protocolName : Str}
    (adapterDescriptor : Str) (hname : bar ∉ protocolName) :
    ∃ d', updateCompleteList E (d.change (eraseKey d.protocols
        (protocolName ++ lit "|" ++ adapterDescriptor))) = (.ok (), d') ∧
      Refines E d' (r.apply (.drop protocolName adapterDescriptor)) :=
  Refines.update hE (allValid_eraseKey_iff.mpr (h.valid.invalidUnder _))
    (h.stores.drop (protocolName, adapterDescriptor) hname)

/-- **One operation** is the change that it asks for. -/
theorem Refines.operate (hE : E.Documented) (h : Refines E d r) {op : Operation} {c : Change}
    (hop : op.Means E c) (hc : c.Plain) : ∃ d',
      RequestServer.operate E { directory := d } op = (none, { directory := d' }) ∧
        Refines E d' (r.apply c) := by
  cases hop with
  | addProtocol hp =>
    obtain ⟨d', hd, hr⟩ := h.put hE hp hc
    exact ⟨d', by simp only [RequestServer.operate, hd], hr⟩
  | timeout => exact ⟨d, rfl, h⟩
  | @other first h1 h2 =>
    refine ⟨d, ?_, h⟩
    by_cases hl : first = lit "list"
    · simp only [RequestServer.operate, RequestServer.serve, RepSocket.recv, RequestServer.handle,
        if_pos hl]
      rfl
    · simp only [RequestServer.operate, RequestServer.serve, RepSocket.recv, RequestServer.handle,
        if_neg hl, if_neg h1, if_neg h2]
      rfl
  | add hp hf =>
    obtain ⟨d', hd, hr⟩ := h.put hE (validUtf8_fromJson (hE.parse_valid _ _ hp) hf) hc
    refine ⟨d', ?_, hr⟩
    have hadd := handleAdd_eq (E := E) (s := ⟨d, .receiving _ []⟩) rfl hp hf
    simp only [RequestServer.operate, RequestServer.serve, RepSocket.recv, RepSocket.afterFrame,
      RequestServer.handle, if_neg (by decide : ¬ lit "add" = lit "list"), if_pos, hadd, hd]
    rfl
  | remove hp hn =>
    obtain ⟨d', hd, hr⟩ := h.drop hE _ hc
    refine ⟨d', ?_, hr⟩
    have hremove := handleRemove_eq (s := ⟨d, .receiving _ []⟩) rfl hp hn hd
    simp only [RequestServer.operate, RequestServer.serve, RepSocket.recv, RepSocket.afterFrame,
      RequestServer.handle, if_neg (by decide : ¬ lit "remove" = lit "list"),
      if_neg (by decide : ¬ lit "remove" = lit "add"), if_pos, hremove]
    rfl

end Operate

/-! ## Runs -/

section Runs

variable {E : Environment}

/-- What the cached list shows of the registry: one entry for each of its pairs and nothing else. It
is the next reply to `list`, and the next message that is published. -/
structure Shows (E : Environment) (s : RequestServer) (r : Registry) : Prop where
  entries : ∃ entries, decodeDirectory E s.directory.completeListJson = .ok entries ∧
    (entries.map (·.pair)).Nodup ∧
    ∀ pair p, r pair = some p ↔ p ∈ entries ∧ p.pair = pair
  listed : (s.serve E (.request (lit "list") [])).1.replies = [s.directory.completeListJson]
  published : ∀ ev, (s.serve E ev).1.published.head? = some s.directory.completeListJson

theorem Refines.shows (hE : E.Documented) (hparse : E.ParsesDumps) {d : ProtocolDirectoryServer}
    {r : Registry} (h : Refines E d r) : Shows E { directory := d } r where
  entries :=
    have hperm := hE.iterate_perm d.changes d.protocols
    ⟨_, decodeDirectory_list hparse h.coherent, h.stores.nodup_pairs hperm,
      h.stores.mem_entries hperm⟩
  listed := rfl
  published ev := by
    cases ev with
    | timeout => rfl
    | request first rest =>
      simp only [RequestServer.serve, RepSocket.recv]
      split
      · rfl
      · split <;> rfl

/-- **The directory refines a map.** No operation of the run throws, and after it the cached list
shows the registry after the changes that were asked for. -/
theorem directory_refines_map (hE : E.Documented) (hparse : E.ParsesDumps)
    {ops : List Operation} {changes : List Change}
    (hops : List.Forall₂ (Operation.Means E) ops changes)
    (hnames : ∀ c ∈ changes, c.Plain) :
    ∃ d, ProtocolDirectoryServer.make E = (.ok (), d) ∧
      (∀ thrown ∈ outputs (RequestServer.operate E) { directory := d } ops, thrown = none) ∧
      Shows E (after (RequestServer.operate E) { directory := d } ops)
        (Registry.afterAll changes) := by
  obtain ⟨d, hd, hrefines⟩ := Refines.make hE
  refine ⟨d, hd, ?_⟩
  clear hd
  unfold Registry.afterAll
  generalize (fun _ => none : Registry) = r at hrefines
  induction hops generalizing d r with
  | nil => exact ⟨by simp, hrefines.shows hE hparse⟩
  | cons hop hops ih =>
    rw [List.forall_mem_cons] at hnames
    obtain ⟨d', hstep, hrefines'⟩ := hrefines.operate hE hop hnames.1
    rw [outputs_cons, after_cons, List.foldl_cons, List.forall_mem_cons, hstep]
    obtain ⟨hout, hshows⟩ := ih hnames.2 d' _ hrefines'
    exact ⟨⟨rfl, hout⟩, hshows⟩

end Runs

/-! ## An environment that parses -/

/-- The serializer without indentation, the parser of its texts, and a map in the order of its
assignments. -/
def textEnvironment : Environment where
  parse := Json.parse
  dump j := if j.validUtf8 then .ok j.compact else .error (.jsonError 316)
  iterate _ protocols := protocols

theorem dump_textEnvironment {j : Json} (h : j.validUtf8 = true) :
    textEnvironment.dump j = .ok j.compact := if_pos h

theorem documented_textEnvironment : textEnvironment.Documented where
  parse_valid := by
    intro text j h
    simp only [textEnvironment, Json.parse] at h
    split at h
    · split at h
      · cases h
        assumption
      · cases h
    · cases h
  dump_iff := by
    intro j
    simp only [textEnvironment]
    split <;> simp_all
  iterate_perm := fun _ _ => List.Perm.refl _

theorem parsesDumps_textEnvironment : textEnvironment.ParsesDumps where
  parse_dump := by
    intro j text hj h
    simp only [textEnvironment] at h ⊢
    split at h
    · cases h
      exact Json.parse_compact hj ‹_›
    · cases h

/-- The entry of a CAN bus with another adapter, whose descriptor has a `|`. -/
def otherCanEntry : ProtocolDirectoryEntry := { canEntry with adapterDescriptor := lit "PCI|1" }

/-- An entry added directly and one by a request, a list, and the first one removed. -/
theorem directory_refines_map_can : ∃ d,
    ProtocolDirectoryServer.make textEnvironment = (.ok (), d) ∧
      (∀ thrown ∈ outputs (RequestServer.operate textEnvironment) { directory := d }
        [.addProtocol canEntry, .event (.request (lit "add") [otherCanEntry.toJson.compact]),
          .event (.request (lit "list") []),
          .event (.request (lit "remove") [canEntry.toJson.compact])], thrown = none) ∧
      Shows textEnvironment (after (RequestServer.operate textEnvironment) { directory := d }
        [.addProtocol canEntry, .event (.request (lit "add") [otherCanEntry.toJson.compact]),
          .event (.request (lit "list") []),
          .event (.request (lit "remove") [canEntry.toJson.compact])])
        (Registry.afterAll [.put canEntry, .put otherCanEntry, .keep,
          .drop (lit "CAN") (lit "USB")]) := by
  have hparse : ∀ p : ProtocolDirectoryEntry, p.ValidUtf8 →
      textEnvironment.parse p.toJson.compact = .ok p.toJson := fun p hp =>
    Json.parse_compact (textual_toJson p) hp
  have hcan : canEntry.toJson.validUtf8 = true := by decide
  have hother : otherCanEntry.toJson.validUtf8 = true := by decide
  refine directory_refines_map documented_textEnvironment parsesDumps_textEnvironment ?_ ?_
  · refine .cons (.addProtocol hcan) (.cons (.add (hparse _ hother) rfl) ?_)
    exact .cons (.other (by decide) (by decide)) (.cons (.remove (hparse _ hcan) rfl) .nil)
  · simp only [List.forall_mem_cons, Change.Plain]
    exact ⟨by decide, by decide, trivial, by decide, fun _ h => absurd h List.not_mem_nil⟩

end Protos

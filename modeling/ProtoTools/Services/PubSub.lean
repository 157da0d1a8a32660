import ProtoTools.Lib.Machine
import ProtoTools.Services.Messages
import ProtoTools.Services.Zmq

/-!
# Publishers and a subscriber (`ProtocolPublisher.cpp`, `ProtocolClient.cpp`)

* `ProtocolPublisher.send`, `ProtocolClient.receiveSubscribed`: what the calls do to their sockets.
  `Network.step` is one call, of any publisher or of the client.
* `Aligned`: between two calls every message that waits is the whole message of one package.
  `Aligned.step`: each call keeps it; `Aligned.flow`: and the order of each publisher's packages.
* `packages_unmixed`: a client that is subscribed to everything gets what each publisher sends.
* `only_subscribed_iff`: a client that is subscribed to some names gets the packages with these
  names, exactly when none of them begins another name that is sent.
-/

namespace Protos

open Machine

variable {ι : Type*}

/-! ## The calls -/

/-- `send`, with the frames that are pending in the PUB socket: the messages that go out. -/
def ProtocolPublisher.send (pubSocket : List Bytes) (header : ProtoHeader) (package : ProtoData) :
    List Message × List Bytes :=
  let (first, pubSocket) := sendFrame pubSocket (makeHeaderMessage header) .sndmore
  let (second, pubSocket) := sendFrame pubSocket (makeProtoMessage package) .none
  (first.toList ++ second.toList, pubSocket)

section Calls

variable [DecidableEq ι]

/-- `subscribe`. -/
def ProtocolClient.subscribe (subSocket : SubSocket ι) (topic : Str) : SubSocket ι :=
  subSocket.subscribe topic

/-- `receiveSubscribed`: the package, or nothing as long as the call waits for a frame. `i` and `j`
are the publishers whose messages the two `recv` take when there is no current one. -/
def ProtocolClient.receiveSubscribed (subSocket : SubSocket ι) (i j : ι) :
    Option ProtoPackage × SubSocket ι :=
  match subSocket.recv i with
  | (none, subSocket) => (none, subSocket)
  | (some headerMsg, subSocket) =>
    match subSocket.recv j with
    | (none, subSocket) => (none, subSocket)
    | (some packageMsg, subSocket) =>
      (some { header := splitHeader headerMsg, data := { data := packageMsg } }, subSocket)

/-- The PUB sockets of the publishers, and the SUB socket of the client. -/
structure Network (ι : Type*) where
  pubSockets : ι → List Bytes := fun _ => []
  client : SubSocket ι

/-- A call, of a publisher or of the client. -/
inductive Traffic (ι : Type*) where
  | send (i : ι) (header : ProtoHeader) (package : ProtoData)
  | receive (i j : ι)

namespace Network

def send (n : Network ι) (i : ι) (header : ProtoHeader) (package : ProtoData) : Network ι :=
  let (messages, pubSocket) := ProtocolPublisher.send (n.pubSockets i) header package
  { pubSockets := Function.update n.pubSockets i pubSocket
    client := messages.foldl (·.deliver i) n.client }

/-- One call, to the package that it returns. -/
def step (n : Network ι) : Traffic ι → Option ProtoPackage × Network ι
  | .send i header package => (none, n.send i header package)
  | .receive i j =>
    let (package, client) := ProtocolClient.receiveSubscribed n.client i j
    (package, { n with client })

/-- The network with a client that has subscribed to the topics, before any package is sent. -/
def connected (topics : List Str) : Network ι where
  client := topics.foldl ProtocolClient.subscribe {}

end Network

/-! ## What is sent and what is received -/

/-- The packages that the publisher sends in a call. -/
def sentBy (i : ι) : Traffic ι → List ProtoPackage
  | .send k header data => if k = i then [{ header, data }] else []
  | .receive _ _ => []

/-- The packages of the publisher that a call returns. -/
def returnedFrom (i : ι) : Traffic ι × Option ProtoPackage → List ProtoPackage
  | (.receive k _, some package) => if k = i then [package] else []
  | _ => []

/-- The message of a package. -/
def packageMessage (p : ProtoPackage) : Message where
  first := makeHeaderMessage p.header
  rest := [makeProtoMessage p.data]

/-- A call of `receiveSubscribed` takes exactly one message, all its frames, or waits when there is
none. -/
def ConsumesOne (n : Network ι) : Traffic ι → Prop
  | .send _ _ _ => True
  | .receive i j => n.client.current = [] ∧
    match n.client.queues i with
    | [] => n.step (.receive i j) = (none, n)
    | _ :: ms => ∃ package, n.step (.receive i j) = (some package,
        { n with client := { n.client with queues := Function.update n.client.queues i ms } })

/-- These are the packages of the publisher that the client gets in the run, or by calling on. -/
def Gets (topics : List Str) (events : List (Traffic ι)) (i : ι) (packages : List ProtoPackage) :
    Prop :=
  ∃ waiting : List ProtoPackage,
    (after Network.step (.connected topics) events).client.queues i =
      waiting.map packageMessage ∧
    outputs Network.step (after Network.step (.connected topics) events)
      (List.replicate waiting.length (.receive i i)) = waiting.map some ∧
    packages = (trace Network.step (.connected topics) events).flatMap (returnedFrom i) ++ waiting

/-- The names that are sent have no `|`. -/
def PlainName : Traffic ι → Prop
  | .send _ header _ => bar ∉ header.protocolName
  | .receive _ _ => True

/-! ## Between two calls -/

/-- Every message that waits is the one of a package, and none is half sent or half received. -/
structure Aligned (topics : List Str) (n : Network ι) : Prop where
  pubSockets : ∀ i, n.pubSockets i = []
  topics : n.client.topics = topics
  current : n.client.current = []
  whole : ∀ i, ∀ m ∈ n.client.queues i, ∃ p : ProtoPackage, bar ∉ p.header.protocolName ∧
    m = packageMessage p

/-- The package of a message. -/
def packageOf (m : Message) : ProtoPackage where
  header := splitHeader m.first
  data := { data := m.rest.headD [] }

theorem packageOf_packageMessage {p : ProtoPackage} (h : bar ∉ p.header.protocolName) :
    packageOf (packageMessage p) = p := by
  unfold packageOf packageMessage
  rw [splitHeader_makeHeaderMessage h]
  rfl

/-- The packages of the publisher that wait to be received. -/
def Network.waiting (n : Network ι) (i : ι) : List ProtoPackage :=
  (n.client.queues i).map packageOf

section Step

variable {topics : List Str} {n : Network ι} {header : ProtoHeader} {data : ProtoData} {i j : ι}

omit [DecidableEq ι] in
theorem Aligned.queue (hn : Aligned topics n) (i : ι) :
    n.client.queues i = (n.waiting i).map packageMessage := by
  have hid : ∀ m ∈ n.client.queues i, packageMessage (packageOf m) = m := by
    intro m hm
    obtain ⟨p, hp, rfl⟩ := hn.whole i m hm
    rw [packageOf_packageMessage hp]
  rw [Network.waiting, List.map_map]
  exact ((List.map_congr_left hid).trans (List.map_id _)).symm

theorem Aligned.send_eq (hn : Aligned topics n) : n.send i header data =
    { n with client := n.client.deliver i (packageMessage { header, data }) } := by
  have hpub : Function.update n.pubSockets i [] = n.pubSockets := by
    rw [← hn.pubSockets i, Function.update_eq_self]
  simp only [Network.send, ProtocolPublisher.send, hn.pubSockets i, sendFrame, hpub]
  rfl

/-- The call waits when there is no message. -/
theorem Aligned.receive_nil (hn : Aligned topics n) (hq : n.client.queues i = []) :
    n.step (.receive i j) = (none, n) := by
  simp only [Network.step, ProtocolClient.receiveSubscribed, SubSocket.recv, hn.current, hq]

/-- The call takes the message of a package, and returns the package. -/
theorem Aligned.receive_cons (hn : Aligned topics n) {p : ProtoPackage} {ms : List Message}
    (hp : bar ∉ p.header.protocolName) (hq : n.client.queues i = packageMessage p :: ms) :
    n.step (.receive i j) = (some p,
      { n with client := { n.client with queues := Function.update n.client.queues i ms } }) := by
  simp only [Network.step, ProtocolClient.receiveSubscribed, SubSocket.recv, hn.current, hq,
    packageMessage, splitHeader_makeHeaderMessage hp]
  rfl

/-- The queue of one publisher changes. -/
theorem waiting_update (n : Network ι) (i k : ι) (ms : List Message) :
    Network.waiting { n with client := { n.client with
      queues := Function.update n.client.queues i ms } } k =
      if k = i then ms.map packageOf else n.waiting k := by
  unfold Network.waiting
  by_cases hk : k = i
  · subst hk
    simp
  · simp [hk]

theorem Aligned.update (hn : Aligned topics n) {ms : List Message}
    (hms : ∀ m ∈ ms, ∃ p : ProtoPackage, bar ∉ p.header.protocolName ∧ m = packageMessage p) :
    Aligned topics { n with client := { n.client with
      queues := Function.update n.client.queues i ms } } where
  pubSockets := hn.pubSockets
  topics := hn.topics
  current := hn.current
  whole := by
    intro k
    by_cases hk : k = i
    · subst hk
      simpa using hms
    · simpa [hk] using hn.whole k

/-- The client's socket takes the message of the package. -/
def arrives (topics : List Str) (p : ProtoPackage) : Bool :=
  topics.any (·.isPrefixOf (makeHeaderMessage p.header))

/-- **A call of a publisher** puts its package at the end of its queue. -/
theorem Aligned.send (hn : Aligned topics n) (i : ι) (data : ProtoData)
    (hname : bar ∉ header.protocolName) :
    Aligned topics (n.send i header data) ∧ ∀ k, (n.send i header data).waiting k =
      n.waiting k ++ (sentBy k (.send i header data)).filter (arrives topics) := by
  have harrives : n.client.topics.any (·.isPrefixOf (packageMessage { header, data }).first) =
      arrives topics { header, data } := by rw [hn.topics]; rfl
  rw [hn.send_eq, SubSocket.deliver, harrives]
  cases hm : arrives topics { header, data } with
  | false =>
    refine ⟨hn, fun k => ?_⟩
    by_cases hk : i = k <;> simp [sentBy, hk, hm]
  | true =>
    have hwhole : ∀ m ∈ n.client.queues i ++ [packageMessage { header, data }],
        ∃ p : ProtoPackage, bar ∉ p.header.protocolName ∧ m = packageMessage p := by
      intro m hmem
      rcases List.mem_append.mp hmem with h | h
      · exact hn.whole i m h
      · exact ⟨_, hname, List.mem_singleton.mp h⟩
    refine ⟨hn.update hwhole, fun k => ?_⟩
    rw [if_pos rfl, waiting_update]
    by_cases hk : k = i
    · subst hk
      simp [sentBy, Network.waiting, hm, packageOf_packageMessage (p := { header, data }) hname]
    · simp [sentBy, hk, Ne.symm hk]

/-- **A call of the client** takes the first message of a queue, if there is one. -/
theorem Aligned.receive (hn : Aligned topics n) (i j : ι) :
    ConsumesOne n (.receive i j) ∧ Aligned topics (n.step (.receive i j)).2 ∧
      ∀ k, n.waiting k = returnedFrom k (.receive i j, (n.step (.receive i j)).1) ++
        (n.step (.receive i j)).2.waiting k := by
  cases hq : n.client.queues i with
  | nil =>
    have hstep := hn.receive_nil (j := j) hq
    refine ⟨⟨hn.current, ?_⟩, ?_, fun k => ?_⟩
    · rw [hq]
      exact hstep
    · rw [hstep]
      exact hn
    · rw [hstep]
      rfl
  | cons m ms =>
    obtain ⟨p, hp, rfl⟩ := hn.whole i m (by rw [hq]; exact .head _)
    have hstep := hn.receive_cons (j := j) hp hq
    refine ⟨⟨hn.current, ?_⟩, ?_, fun k => ?_⟩
    · rw [hq]
      exact ⟨p, hstep⟩
    · rw [hstep]
      refine hn.update fun m hm => hn.whole i m ?_
      rw [hq]
      exact .tail _ hm
    · rw [hstep, waiting_update]
      by_cases hk : k = i
      · subst hk
        simp [Network.waiting, hq, returnedFrom, packageOf_packageMessage hp]
      · simp [returnedFrom, hk, Ne.symm hk]

/-- **One call**, of any party. -/
theorem Aligned.step (hn : Aligned topics n) {ev : Traffic ι} (hev : PlainName ev) :
    ConsumesOne n ev ∧ Aligned topics (n.step ev).2 ∧
      ∀ k, n.waiting k ++ (sentBy k ev).filter (arrives topics) =
        returnedFrom k (ev, (n.step ev).1) ++ (n.step ev).2.waiting k := by
  cases ev with
  | send i header data =>
    obtain ⟨h, hk⟩ := hn.send i data hev
    exact ⟨trivial, h, fun k => (hk k).symm⟩
  | receive i j =>
    obtain ⟨h1, h2, h3⟩ := hn.receive i j
    refine ⟨h1, h2, fun k => ?_⟩
    rw [← h3]
    exact List.append_nil _

end Step

/-! ## Runs -/

section Runs

variable {topics : List Str}

omit [DecidableEq ι] in
theorem client_connected (topics : List Str) :
    (.connected topics : Network ι).client = { topics } := by
  have hfold : ∀ (ts : List Str) (s : SubSocket ι),
      ts.foldl ProtocolClient.subscribe s = { s with topics := s.topics ++ ts } := by
    intro ts
    induction ts with
    | nil => simp
    | cons t ts ih =>
      intro s
      rw [List.foldl_cons, ih]
      simp [ProtocolClient.subscribe, SubSocket.subscribe]
  exact hfold topics {}

omit [DecidableEq ι] in
theorem aligned_connected (topics : List Str) :
    Aligned topics (.connected topics : Network ι) where
  pubSockets := fun _ => rfl
  topics := by rw [client_connected]
  current := by rw [client_connected]
  whole := by
    intro i m hm
    rw [client_connected] at hm
    cases hm

/-- The calls that return the packages that wait. -/
theorem Aligned.receive_waiting {n : Network ι} (hn : Aligned topics n) (i : ι) :
    outputs Network.step n (List.replicate (n.waiting i).length (.receive i i)) =
      (n.waiting i).map some := by
  generalize hw : n.waiting i = waiting
  induction waiting generalizing n with
  | nil => rfl
  | cons p waiting ih =>
    have hq : n.client.queues i = packageMessage p :: waiting.map packageMessage := by
      rw [hn.queue i, hw]
      rfl
    obtain ⟨⟨-, hone⟩, hnext, hk⟩ := hn.receive i i
    rw [hq] at hone
    obtain ⟨package, hstep⟩ := hone
    -- the package that is returned is the first of those that wait
    have hfirst := hk i
    rw [hw, hstep, returnedFrom, if_pos rfl, List.singleton_append, List.cons.injEq] at hfirst
    obtain ⟨rfl, hrest⟩ := hfirst
    rw [hstep] at hnext
    rw [List.length_cons, List.replicate_succ, outputs_cons, hstep, ih hnext hrest.symm]
    rfl

variable (topics) in
/-- **Every run** keeps the order of each publisher's packages. -/
theorem gets_arriving {events : List (Traffic ι)} (hnames : ∀ ev ∈ events, PlainName ev) :
    Along Network.step ConsumesOne (.connected topics) events ∧
      ∀ i, Gets topics events i ((events.flatMap (sentBy i)).filter (arrives topics)) := by
  have hplain : Along Network.step (fun _ ev => PlainName ev) (.connected topics) events :=
    along_input.mpr hnames
  have hstart : Aligned topics (.connected topics : Network ι) := aligned_connected topics
  obtain ⟨hone, hend⟩ := hplain.mono_inv (I := Aligned topics)
    (fun n ev hn hev => ⟨(hn.step hev).1, (hn.step hev).2.1⟩) hstart
  refine ⟨hone, fun i => ⟨_, hend.queue i, hend.receive_waiting i, ?_⟩⟩
  have hflow := hplain.flow (I := Aligned topics) (·.waiting i)
    (fun p => (sentBy i p.1).filter (arrives topics)) (returnedFrom i)
    (fun n ev hn hev => ⟨(hn.step hev).2.2 i, (hn.step hev).2.1⟩) hstart
  have hempty : (.connected topics : Network ι).waiting i = [] := by
    rw [Network.waiting, client_connected]
    rfl
  rw [flatMap_trace_input fun ev => (sentBy i ev).filter (arrives topics), hempty] at hflow
  rw [List.filter_flatMap]
  exact hflow

/-- **Packages reach the subscriber unmixed and unchanged.** With names without a `|`, each call of
a client that is subscribed to everything takes one whole message, and the client gets what each
publisher sends, in its order. -/
theorem packages_unmixed {events : List (Traffic ι)} (hall : [] ∈ topics)
    (hnames : ∀ ev ∈ events, PlainName ev) :
    Along Network.step ConsumesOne (.connected topics) events ∧
      ∀ i, Gets topics events i (events.flatMap (sentBy i)) := by
  obtain ⟨hone, hgets⟩ := gets_arriving topics hnames
  have harrives : ∀ p, arrives topics p = true := fun p =>
    List.any_eq_true.mpr ⟨[], hall, by simp⟩
  refine ⟨hone, fun i => ?_⟩
  have := hgets i
  rwa [List.filter_eq_self.mpr fun p _ => harrives p] at this

/-- Two publishers, one with a source that has a `|` and one without a source. -/
def twoPublishers : List (Traffic Bool) :=
  [.send true ⟨lit "CAN", lit "USB|1"⟩ ⟨[1, 2]⟩, .send false ⟨lit "LIN", []⟩ ⟨[]⟩,
    .receive false true, .send true ⟨lit "CAN", []⟩ ⟨[0x7C]⟩, .receive true false]

theorem plainName_twoPublishers : ∀ ev ∈ twoPublishers, PlainName ev := by
  simp only [twoPublishers, List.forall_mem_cons, PlainName]
  exact ⟨by decide, by decide, trivial, by decide, trivial, fun _ h => absurd h List.not_mem_nil⟩

theorem packages_unmixed_twoPublishers :
    Along Network.step ConsumesOne (.connected [[]]) twoPublishers ∧
      ∀ i, Gets [[]] twoPublishers i (twoPublishers.flatMap (sentBy i)) :=
  packages_unmixed (.head _) plainName_twoPublishers

/-- A package arrives when a topic begins its name. -/
theorem arrives_iff {p : ProtoPackage} (htopics : ∀ t ∈ topics, bar ∉ t) :
    arrives topics p = true ↔ ∃ t ∈ topics, t <+: p.header.protocolName := by
  simp only [arrives, List.any_eq_true, List.isPrefixOf_iff_prefix]
  refine exists_congr fun t => and_congr_right fun ht => ?_
  exact prefix_makeHeaderMessage (htopics t ht)

theorem mem_sent {events : List (Traffic ι)} {i : ι} {p : ProtoPackage} :
    p ∈ events.flatMap (sentBy i) ↔ .send i p.header p.data ∈ events := by
  rw [List.mem_flatMap]
  constructor
  · rintro ⟨ev, hev, hp⟩
    cases ev with
    | send k header data =>
      by_cases hk : k = i
      · subst hk
        simp only [sentBy, if_pos, List.mem_singleton] at hp
        subst hp
        exact hev
      · simp [sentBy, hk] at hp
    | receive k j => cases hp
  · exact fun h => ⟨_, h, by simp [sentBy]⟩

/-- The number of packages that the client gets is one number. -/
theorem Gets.length_eq {events : List (Traffic ι)} {i : ι} {ps qs : List ProtoPackage}
    (hp : Gets topics events i ps) (hq : Gets topics events i qs) : ps.length = qs.length := by
  obtain ⟨waiting, hw, -, rfl⟩ := hp
  obtain ⟨waiting', hw', -, rfl⟩ := hq
  have hlength := congrArg List.length (hw.symm.trans hw')
  rw [List.length_map, List.length_map] at hlength
  rw [List.length_append, List.length_append, hlength]

theorem arrives_of_mem {p : ProtoPackage} (htopics : ∀ t ∈ topics, bar ∉ t)
    (hp : p.header.protocolName ∈ topics) : arrives topics p = true :=
  (arrives_iff htopics).mpr ⟨_, hp, List.prefix_refl _⟩

/-- The packages that arrive are those that are subscribed to, when no topic begins another name. -/
theorem filter_subscribed_iff {ps : List ProtoPackage} (htopics : ∀ t ∈ topics, bar ∉ t) :
    ps.filter (·.header.protocolName ∈ topics) = ps.filter (arrives topics) ↔
      ∀ p ∈ ps, p.header.protocolName ∉ topics →
        ∀ t ∈ topics, ¬ t <+: p.header.protocolName := by
  constructor
  · intro h p hp hnot t ht hprefix
    have harr : p ∈ ps.filter (arrives topics) :=
      List.mem_filter.mpr ⟨hp, (arrives_iff htopics).mpr ⟨t, ht, hprefix⟩⟩
    rw [← h] at harr
    exact hnot (by simpa using (List.mem_filter.mp harr).2)
  · intro h
    apply List.filter_congr
    intro p hp
    by_cases hin : p.header.protocolName ∈ topics
    · simp [hin, arrives_of_mem htopics hin]
    · have hnone : ¬ arrives topics p = true := by
        intro harr
        obtain ⟨t, ht, hprefix⟩ := (arrives_iff htopics).mp harr
        exact h p hp hin t ht hprefix
      simp [hin, hnone]

/-- **When a client gets only what it subscribed to.** The client gets the packages whose name it
has subscribed to and no others, exactly when no other name that is sent begins with one that it
has subscribed to. -/
theorem only_subscribed_iff {events : List (Traffic ι)} (htopics : ∀ t ∈ topics, bar ∉ t)
    (hnames : ∀ ev ∈ events, PlainName ev) :
    (∀ i, Gets topics events i
        ((events.flatMap (sentBy i)).filter (·.header.protocolName ∈ topics))) ↔
      ∀ i header data, .send i header data ∈ events → header.protocolName ∉ topics →
        ∀ t ∈ topics, ¬ t <+: header.protocolName := by
  have hgets := (gets_arriving topics hnames).2
  constructor
  · intro h i header data hsent
    -- all packages that are subscribed to arrive, and as many do
    have hsub : ((events.flatMap (sentBy i)).filter (·.header.protocolName ∈ topics)).Sublist
        ((events.flatMap (sentBy i)).filter (arrives topics)) := by
      apply List.monotone_filter_right
      intro p hp
      exact arrives_of_mem htopics (by simpa using hp)
    have heq := hsub.eq_of_length ((h i).length_eq (hgets i))
    have hmem : { header, data } ∈ events.flatMap (sentBy i) := mem_sent.mpr hsent
    exact (filter_subscribed_iff htopics).mp heq _ hmem
  · intro h i
    rw [(filter_subscribed_iff htopics).mpr fun p hp => h i _ _ (mem_sent.mp hp)]
    exact hgets i

/-- A client that wants the CAN packages, and a publisher of another protocol. -/
def canopenTraffic : List (Traffic Unit) :=
  [.send () ⟨lit "CANopen", []⟩ ⟨[1]⟩, .receive () ()]

/-- The subscription to `CAN` lets `CANopen` through. -/
theorem prefix_received : ¬ ∀ (topics : List Str) (events : List (Traffic Unit)),
    (∀ t ∈ topics, bar ∉ t) → (∀ ev ∈ events, PlainName ev) → ∀ i, Gets topics events i
      ((events.flatMap (sentBy i)).filter (·.header.protocolName ∈ topics)) := by
  intro h
  have hnames : ∀ ev ∈ canopenTraffic, PlainName ev := by
    simp only [canopenTraffic, List.forall_mem_cons, PlainName]
    exact ⟨by decide, trivial, fun _ h => absurd h List.not_mem_nil⟩
  obtain ⟨waiting, -, -, hgot⟩ := h [lit "CAN"] canopenTraffic (by decide) hnames ()
  have hreturned : (trace Network.step (.connected [lit "CAN"]) canopenTraffic).flatMap
      (returnedFrom ()) = [⟨⟨lit "CANopen", []⟩, ⟨[1]⟩⟩] := by decide
  rw [hreturned] at hgot
  cases hgot

/-- Two names of which none begins the other. -/
theorem only_subscribed_twoPublishers :
    Gets [lit "CAN"] twoPublishers true ((twoPublishers.flatMap (sentBy true)).filter
        (·.header.protocolName ∈ [lit "CAN"])) ∧
      Gets [lit "CAN"] twoPublishers false ((twoPublishers.flatMap (sentBy false)).filter
        (·.header.protocolName ∈ [lit "CAN"])) := by
  suffices hgets : ∀ i, Gets [lit "CAN"] twoPublishers i ((twoPublishers.flatMap (sentBy i)).filter
      (·.header.protocolName ∈ [lit "CAN"])) from ⟨hgets true, hgets false⟩
  apply (only_subscribed_iff (by decide) plainName_twoPublishers).mpr
  intro i header data hsent hnot t ht
  simp only [twoPublishers, List.mem_cons, Traffic.send.injEq, reduceCtorEq, List.not_mem_nil,
    or_false, false_or] at hsent
  obtain rfl := List.mem_singleton.mp ht
  rcases hsent with ⟨-, rfl, -⟩ | ⟨-, rfl, -⟩ | ⟨-, rfl, -⟩
  · exact absurd (by decide) hnot
  · decide
  · exact absurd (by decide) hnot

end Runs

end Calls

end Protos

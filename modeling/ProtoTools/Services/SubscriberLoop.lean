import Mathlib.Algebra.Group.Even
import ProtoTools.Services.PubSub

/-!
# A subscriber, and publishers of messages of any shape

What `PubSub.lean` leaves out: a thread that calls `receiveSubscribed` again and again, while any
programs publish messages of any number of frames. Each `recv` is a step of its own.

* `Subscriber.step`: a message is published, or a `recv` takes a frame. `receiveSubscribed_steps`: a
  call that returns is two of these steps.
* `Takes`: the messages that the socket has taken, and what became of their frames.
* `packages_pair_frames`: the packages are the frames of the messages in pairs, whoever published
  them; they are the packages of single messages as long as all have an even number of frames.
-/

namespace Protos

open Machine

variable {ι : Type*}

/-! ## The thread -/

/-- A thread that calls `receiveSubscribed` again and again. -/
structure Subscriber (ι : Type*) where
  subSocket : SubSocket ι
  /-- What the first `recv` of the call has returned. -/
  headerMsg : Option Bytes := none

inductive Arrival (ι : Type*) where
  | send (i : ι) (m : Message)
  /-- The `recv` that the thread waits in, with the publisher whose message it takes when there is
  no current one. -/
  | recv (i : ι)

/-- The thread after the subscriptions. -/
def Subscriber.start (topics : List Str) : Subscriber ι where
  subSocket := { topics }

/-- One step, to the package that a call returns. -/
def Subscriber.step [DecidableEq ι] (s : Subscriber ι) :
    Arrival ι → Option ProtoPackage × Subscriber ι
  | .send i m => (none, { s with subSocket := s.subSocket.deliver i m })
  | .recv i =>
    match s.subSocket.recv i with
    | (none, subSocket) => (none, { s with subSocket })
    | (some frame, subSocket) =>
      match s.headerMsg with
      | none => (none, { subSocket, headerMsg := some frame })
      | some headerMsg =>
        (some { header := splitHeader headerMsg, data := { data := frame } }, { subSocket })

/-- A call that returns a package is two steps of the thread. -/
theorem receiveSubscribed_steps [DecidableEq ι] {subSocket subSocket' : SubSocket ι} {i j : ι}
    {package : ProtoPackage}
    (h : ProtocolClient.receiveSubscribed subSocket i j = (some package, subSocket')) :
    outputs Subscriber.step { subSocket } [.recv i, .recv j] = [none, some package] ∧
      after Subscriber.step { subSocket } [.recv i, .recv j] = { subSocket := subSocket' } := by
  rw [ProtocolClient.receiveSubscribed] at h
  split at h
  · cases h
  · rename_i headerMsg subSocket₁ hheader
    split at h
    · cases h
    · rename_i packageMsg subSocket₂ hpackage
      cases h
      simp only [outputs_cons, outputs_nil, after_cons, after_nil, Subscriber.step, hheader,
        hpackage, and_self]

/-! ## Frames in pairs -/

def Message.frames (m : Message) : List Bytes := m.first :: m.rest

/-- The packages that the frames are, two by two. A last frame without another is none. -/
def packagesOf : List Bytes → List ProtoPackage
  | header :: data :: frames =>
    { header := splitHeader header, data := { data } } :: packagesOf frames
  | _ => []

theorem packagesOf_append : ∀ {frames : List Bytes}, Even frames.length → ∀ more,
    packagesOf (frames ++ more) = packagesOf frames ++ packagesOf more
  | [], _, _ => rfl
  | [_], h, _ => absurd h (by simp)
  | header :: data :: frames, h, more => by
    rw [List.length_cons, List.length_cons, Nat.even_add_one, Nat.even_add_one, not_not] at h
    rw [List.cons_append, List.cons_append, packagesOf, packagesOf, packagesOf_append h,
      List.cons_append]

/-- Messages of an even number of frames do not mix. -/
theorem packagesOf_flatMap {α : Type*} {f : α → List Bytes} {xs : List α}
    (h : ∀ x ∈ xs, Even (f x).length) :
    packagesOf (xs.flatMap f) = xs.flatMap fun x => packagesOf (f x) := by
  induction xs with
  | nil => rfl
  | cons x xs ih =>
    rw [List.forall_mem_cons] at h
    rw [List.flatMap_cons, List.flatMap_cons, packagesOf_append h.1, ih h.2]

/-! ## Runs -/

/-- The messages of the publisher. -/
def sentFrom [DecidableEq ι] (i : ι) : Arrival ι → List Message
  | .send k m => if k = i then [m] else []
  | .recv _ => []

/-- The messages among them that are the publisher's. -/
def takenFrom [DecidableEq ι] (i : ι) (taken : List (ι × Message)) : List Message :=
  (taken.filter (·.1 = i)).map (·.2)

/-- The frames that wait for the next one, or to be received. -/
def Subscriber.unpaired (s : Subscriber ι) : List Bytes :=
  s.headerMsg.toList ++ s.subSocket.current

/-- These messages were taken, in this order, and of their frames the packages were made. -/
structure Takes [DecidableEq ι] (topics : List Str) (events : List (Arrival ι))
    (taken : List (ι × Message)) (packages : List ProtoPackage) (s : Subscriber ι) : Prop where
  subscribed : s.subSocket.topics = topics
  queues : ∀ i, takenFrom i taken ++ s.subSocket.queues i =
    (events.flatMap (sentFrom i)).filter fun m => topics.any (·.isPrefixOf m.first)
  packages : ∃ used, Even used.length ∧ packagesOf used = packages ∧
    taken.flatMap (·.2.frames) = used ++ s.unpaired

section Runs

variable [DecidableEq ι] {topics : List Str} {events : List (Arrival ι)}
  {taken : List (ι × Message)} {packages : List ProtoPackage} {s : Subscriber ι}

theorem takenFrom_concat (i k : ι) (taken : List (ι × Message)) (m : Message) :
    takenFrom i (taken ++ [(k, m)]) = takenFrom i taken ++ if k = i then [m] else [] := by
  rw [takenFrom, takenFrom, List.filter_append, List.map_append]
  by_cases hk : k = i <;> simp [hk]

/-- A message is published: it waits, when the thread has subscribed to it. -/
theorem Takes.send (h : Takes topics events taken packages s) (k : ι) (m : Message) :
    Takes topics (events ++ [.send k m]) taken packages
      { s with subSocket := s.subSocket.deliver k m } := by
  by_cases hm : topics.any (·.isPrefixOf m.first) = true
  · have hdeliver : s.subSocket.deliver k m = { s.subSocket with
        queues := Function.update s.subSocket.queues k (s.subSocket.queues k ++ [m]) } := by
      rw [SubSocket.deliver, if_pos (by rwa [h.subscribed])]
    rw [hdeliver]
    refine ⟨h.subscribed, fun i => ?_, h.packages⟩
    rw [List.flatMap_append, List.filter_append, ← h.queues i, List.append_assoc]
    by_cases hi : k = i
    · subst hi
      simp [sentFrom, hm]
    · simp [sentFrom, hi, Ne.symm hi]
  · have hdeliver : s.subSocket.deliver k m = s.subSocket := by
      rw [SubSocket.deliver, if_neg (by rwa [h.subscribed])]
    rw [hdeliver]
    refine ⟨h.subscribed, fun i => ?_, h.packages⟩
    rw [List.flatMap_append, List.filter_append, ← h.queues i]
    by_cases hi : k = i <;> simp [sentFrom, hi, hm]

/-- A `recv` that waits. -/
theorem recv_none {subSocket subSocket' : SubSocket ι} {k : ι}
    (h : subSocket.recv k = (none, subSocket')) : subSocket' = subSocket := by
  rw [SubSocket.recv] at h
  split at h
  · cases h
  · split at h
    · exact (Prod.mk.inj h).2.symm
    · cases h

/-- A `recv` takes a frame: of the current message, or the first one of another. -/
theorem recv_cases {subSocket subSocket' : SubSocket ι} {k : ι} {frame : Bytes}
    (h : subSocket.recv k = (some frame, subSocket')) : subSocket'.topics = subSocket.topics ∧
      (subSocket.current = frame :: subSocket'.current ∧ subSocket'.queues = subSocket.queues ∨
        ∃ m ms, subSocket.current = [] ∧ subSocket.queues k = m :: ms ∧
          subSocket'.queues = Function.update subSocket.queues k ms ∧
          m.frames = frame :: subSocket'.current) := by
  rw [SubSocket.recv] at h
  split at h
  · rename_i frame' rest hcurrent
    cases h
    exact ⟨rfl, .inl ⟨hcurrent, rfl⟩⟩
  · rename_i hcurrent
    split at h
    · cases h
    · rename_i m ms hqueue
      cases h
      exact ⟨rfl, .inr ⟨m, ms, hcurrent, hqueue, rfl, rfl⟩⟩

/-- The messages taken after a `recv`, and their frames. -/
theorem Takes.recv (h : Takes topics events taken packages s) {k : ι} {frame : Bytes}
    {subSocket : SubSocket ι} (hrecv : s.subSocket.recv k = (some frame, subSocket)) :
    subSocket.topics = topics ∧ ∃ taken',
      (∀ i, takenFrom i taken' ++ subSocket.queues i =
        takenFrom i taken ++ s.subSocket.queues i) ∧
      ∃ used, Even used.length ∧ packagesOf used = packages ∧
        taken'.flatMap (·.2.frames) =
          used ++ (s.headerMsg.toList ++ frame :: subSocket.current) := by
  obtain ⟨htopics, hcases⟩ := recv_cases hrecv
  obtain ⟨used, heven, hpackages, hframes⟩ := h.packages
  rw [Subscriber.unpaired] at hframes
  refine ⟨htopics.trans h.subscribed, ?_⟩
  rcases hcases with ⟨hcurrent, hqueues⟩ | ⟨m, ms, hcurrent, hqueue, hqueues, hm⟩
  · refine ⟨taken, fun i => by rw [hqueues], used, heven, hpackages, ?_⟩
    rw [hframes, hcurrent]
  · refine ⟨taken ++ [(k, m)], fun i => ?_, used, heven, hpackages, ?_⟩
    · rw [takenFrom_concat, hqueues]
      by_cases hi : k = i
      · subst hi
        simp [hqueue]
      · simp [hi, Ne.symm hi]
    · rw [List.flatMap_append, hframes, hcurrent, List.flatMap_singleton, hm]
      simp

/-- **One step.** -/
theorem Takes.step (h : Takes topics events taken packages s) (ev : Arrival ι) :
    ∃ taken', Takes topics (events ++ [ev]) taken' (packages ++ (s.step ev).1.toList)
      (s.step ev).2 := by
  cases ev with
  | send k m =>
    refine ⟨taken, ?_⟩
    rw [Subscriber.step, Option.toList_none, List.append_nil]
    exact h.send k m
  | recv k =>
    have hsent : ∀ i, (events ++ [Arrival.recv k]).flatMap (sentFrom i) =
        events.flatMap (sentFrom i) := by
      simp [sentFrom]
    rcases hrecv : s.subSocket.recv k with ⟨_ | frame, subSocket⟩
    · refine ⟨taken, ?_⟩
      obtain rfl : subSocket = s.subSocket := recv_none hrecv
      simp only [Subscriber.step, hrecv, Option.toList_none, List.append_nil]
      exact ⟨h.subscribed, fun i => by rw [hsent, h.queues], h.packages⟩
    · obtain ⟨htopics, taken', hqueues, used, heven, hpackages, hframes⟩ := h.recv hrecv
      refine ⟨taken', ?_⟩
      cases hheader : s.headerMsg with
      | none =>
        simp only [Subscriber.step, hrecv, hheader, Option.toList_none, List.append_nil]
        refine ⟨htopics, fun i => ?_, used, heven, hpackages, ?_⟩
        · rw [hqueues, hsent, h.queues]
        · rw [hframes, hheader]
          rfl
      | some headerMsg =>
        simp only [Subscriber.step, hrecv, hheader, Option.toList_some]
        refine ⟨htopics, fun i => ?_, used ++ [headerMsg, frame], ?_, ?_, ?_⟩
        · rw [hqueues, hsent, h.queues]
        · rw [List.length_append]
          exact heven.add even_two
        · rw [packagesOf_append heven, hpackages]
          rfl
        · rw [hframes, hheader, List.append_assoc]
          rfl

theorem takes_run (topics : List Str) (events : List (Arrival ι)) :
    ∃ taken, Takes topics events taken
      ((outputs Subscriber.step (.start topics) events).flatMap Option.toList)
      (after Subscriber.step (.start topics) events) := by
  induction events using List.reverseRecOn with
  | nil => exact ⟨[], rfl, fun _ => rfl, [], ⟨0, rfl⟩, rfl, rfl⟩
  | append_singleton events ev ih =>
    obtain ⟨taken, htaken⟩ := ih
    obtain ⟨taken', hnext⟩ := htaken.step ev
    refine ⟨taken', ?_⟩
    rw [outputs_append, List.flatMap_append, after_append]
    simpa using hnext

/-- **Packages are frames in pairs.** Whatever is published and in whatever order the steps are
made, the messages of each publisher that the thread has subscribed to are taken in their order, and
the packages that its calls return are the frames of all messages that were taken, two by two. When
all have an even number of frames, each package is made of one message. -/
theorem packages_pair_frames (topics : List Str) (events : List (Arrival ι)) :
    ∃ taken : List (ι × Message),
      (∀ i, takenFrom i taken ++
          (after Subscriber.step (.start topics) events).subSocket.queues i =
        (events.flatMap (sentFrom i)).filter fun m => topics.any (·.isPrefixOf m.first)) ∧
      (outputs Subscriber.step (.start topics) events).flatMap Option.toList ++
          packagesOf (after Subscriber.step (.start topics) events).unpaired =
        packagesOf (taken.flatMap (·.2.frames)) ∧
      ((∀ m ∈ taken, Even m.2.frames.length) →
        (outputs Subscriber.step (.start topics) events).flatMap Option.toList ++
            packagesOf (after Subscriber.step (.start topics) events).unpaired =
          taken.flatMap (packagesOf ·.2.frames)) := by
  obtain ⟨taken, htaken⟩ := takes_run topics events
  obtain ⟨used, heven, hpackages, hframes⟩ := htaken.packages
  have hpairs : (outputs Subscriber.step (.start topics) events).flatMap Option.toList ++
      packagesOf (after Subscriber.step (.start topics) events).unpaired =
        packagesOf (taken.flatMap (·.2.frames)) := by
    rw [hframes, packagesOf_append heven, hpackages]
  exact ⟨taken, htaken.queues, hpairs, fun h => hpairs.trans (packagesOf_flatMap h)⟩

/-- After a message of one frame, the header of a message is the data of the one before. -/
example : outputs Subscriber.step (.start [[]]) [.send () { first := [1] },
    .send () { first := [2], rest := [[3]] }, .recv (), .recv ()] =
      [none, none, none, some { header := { protocolName := [1] }, data := { data := [2] } }] :=
  rfl

end Runs

end Protos

import Mathlib.Data.List.Induction
import Mathlib.Logic.Function.Basic
import ProtoTools.Lib.Machine

/-!
# A service that many clients call

Each client has one call at a time: its request is on its way, the server takes it in some later
step, and the client gets the reply in a step after that, or leaves. The server takes the requests
of all clients one by one, in any order.

* `step serve`: one step of any party. `serve s a` is what the server makes of a request in the
  state `s`: a reply or none, and its next state. A request without a reply stays as it is.
* `Called`, `Served`: where in the run a client's call comes from, and where it was served.
* `finished_between`: **linearizability**. What a call returns is the reply of the server to its
  request in a step between the call and its return.
* `reply_comes`: a call returns once the server has answered at its turn.
-/

namespace Service

open Machine

variable {ι σ α β : Type*}

/-- Where a client is: it can call, it is in a call, or it has left a call. -/
inductive Phase where
  | ready
  | calling
  | left
  deriving DecidableEq

structure State (ι σ α β : Type*) where
  server : σ
  phase : ι → Phase := fun _ => .ready
  /-- The requests on their way to the server. -/
  request : ι → Option α := fun _ => none
  /-- The replies on their way to the clients. -/
  reply : ι → Option β := fun _ => none

inductive Event (ι α : Type*) where
  | call (i : ι) (a : α)
  /-- The server takes the request of the client. -/
  | serve (i : ι)
  /-- The client gets its reply. -/
  | finish (i : ι)
  | leave (i : ι)
  /-- Nothing happens. -/
  | pause

inductive Happening (ι α β : Type*) where
  | nothing
  | called (i : ι) (a : α)
  | served (i : ι) (a : α) (b : Option β)
  | finished (i : ι) (b : β)
  | left (i : ι)

section Step

variable [DecidableEq ι] (serve : σ → α → Option β × σ)

def step (s : State ι σ α β) : Event ι α → Happening ι α β × State ι σ α β
  | .call i a =>
    match s.phase i with
    | .ready => (.called i a, { s with
        phase := Function.update s.phase i .calling
        request := Function.update s.request i (some a) })
    | _ => (.nothing, s)
  | .serve i =>
    match s.request i with
    | none => (.nothing, s)
    | some a =>
      match serve s.server a with
      | (none, server) => (.served i a none, { s with server })
      | (some b, server) => (.served i a (some b), { s with
          server
          request := Function.update s.request i none
          reply := Function.update s.reply i (some b) })
  | .finish i =>
    match s.phase i, s.reply i with
    | .calling, some b => (.finished i b, { s with
        phase := Function.update s.phase i .ready
        reply := Function.update s.reply i none })
    | _, _ => (.nothing, s)
  | .leave i =>
    match s.phase i with
    | .calling => (.left i, { s with phase := Function.update s.phase i .left })
    | _ => (.nothing, s)
  | .pause => (.nothing, s)

section Cases

variable {serve} {s : State ι σ α β} {i : ι} {a : α} {b : β}

theorem step_call (hp : s.phase i = .ready) (a : α) :
    step serve s (.call i a) = (.called i a, { s with
      phase := Function.update s.phase i .calling
      request := Function.update s.request i (some a) }) := by
  simp only [step, hp]

/-- A client in a call makes no other one. -/
theorem step_call_busy (hp : s.phase i ≠ .ready) (a : α) :
    step serve s (.call i a) = (.nothing, s) := by
  cases h : s.phase i with
  | ready => exact absurd h hp
  | _ => simp only [step, h]

theorem step_serve_none (hr : s.request i = none) :
    step serve s (.serve i) = (.nothing, s) := by
  simp only [step, hr]

theorem step_serve_silent {server : σ} (hr : s.request i = some a)
    (hs : serve s.server a = (none, server)) :
    step serve s (.serve i) = (.served i a none, { s with server }) := by
  simp only [step, hr, hs]

theorem step_serve {server : σ} (hr : s.request i = some a)
    (hs : serve s.server a = (some b, server)) :
    step serve s (.serve i) = (.served i a (some b), { s with
      server
      request := Function.update s.request i none
      reply := Function.update s.reply i (some b) }) := by
  simp only [step, hr, hs]

theorem step_finish (hp : s.phase i = .calling) (hb : s.reply i = some b) :
    step serve s (.finish i) = (.finished i b, { s with
      phase := Function.update s.phase i .ready
      reply := Function.update s.reply i none }) := by
  simp only [step, hp, hb]

/-- Without a reply, or outside of a call, nothing is finished. -/
theorem step_finish_idle (h : ¬ (s.phase i = .calling ∧ ∃ b, s.reply i = some b)) :
    step serve s (.finish i) = (.nothing, s) := by
  simp only [step]
  split
  · rename_i b hp hb
    exact absurd ⟨hp, b, hb⟩ h
  · rfl

theorem step_leave (hp : s.phase i = .calling) :
    step serve s (.leave i) = (.left i, { s with phase := Function.update s.phase i .left }) := by
  simp only [step, hp]

theorem step_leave_idle (hp : s.phase i ≠ .calling) :
    step serve s (.leave i) = (.nothing, s) := by
  cases h : s.phase i with
  | calling => exact absurd h hp
  | _ => simp only [step, h]

/-- A call that is finished was one, and its reply was there. -/
theorem reply_of_finished (h : (step serve s (.finish i)).1 = .finished i b) :
    s.phase i = .calling ∧ s.reply i = some b := by
  simp only [step] at h
  split at h
  · rename_i b' hp hb
    cases h
    exact ⟨hp, hb⟩
  · cases h

end Cases

/-! ## Where a call comes from -/

/-- The client is in its call in every state of the run. -/
def InCall (s : State ι σ α β) (i : ι) (events : List (Event ι α)) : Prop :=
  ∀ u, u <+: events → (after (step serve) s u).phase i = .calling

/-- The run from `s` goes on after the call of the client with the request `a`, which has not
returned. -/
structure Called (s : State ι σ α β) (events : List (Event ι α)) (i : ι) (a : α)
    (before since : List (Event ι α)) : Prop where
  events : events = before ++ .call i a :: since
  ready : (after (step serve) s before).phase i = .ready
  inCall : InCall serve (after (step serve) s (before ++ [.call i a])) i since

/-- And the server has taken the request, and its reply is `b`. -/
structure Served (s : State ι σ α β) (events : List (Event ι α)) (i : ι) (a : α) (b : β)
    (before mid since : List (Event ι α)) : Prop
    extends Called serve s events i a before (mid ++ .serve i :: since) where
  reply : (serve (after (step serve) s (before ++ .call i a :: mid)).server a).1 = some b

/-- What a step does to one client. -/
inductive Moves (s : State ι σ α β) (i : ι) : Event ι α → State ι σ α β → Prop
  | stay {ev : Event ι α} {s' : State ι σ α β} : s'.phase i = s.phase i →
      s'.request i = s.request i → s'.reply i = s.reply i → Moves s i ev s'
  | call {s' : State ι σ α β} (a : α) : s.phase i = .ready → s'.phase i = .calling →
      s'.request i = some a → s'.reply i = s.reply i → Moves s i (.call i a) s'
  | serve {s' : State ι σ α β} (a : α) (b : β) : s.request i = some a →
      (serve s.server a).1 = some b → s'.phase i = s.phase i → s'.request i = none →
      s'.reply i = some b → Moves s i (.serve i) s'
  | finish {s' : State ι σ α β} (b : β) : s.phase i = .calling → s.reply i = some b →
      s'.phase i = .ready → s'.request i = s.request i → s'.reply i = none →
      Moves s i (.finish i) s'
  | leave {s' : State ι σ α β} : s.phase i = .calling → s'.phase i = .left →
      s'.request i = s.request i → s'.reply i = s.reply i → Moves s i (.leave i) s'

variable {serve} {s : State ι σ α β} {events : List (Event ι α)} {i : ι} {a : α} {b : β}
  {before mid since : List (Event ι α)}

variable (serve) in
theorem moves (s : State ι σ α β) (i : ι) (ev : Event ι α) :
    Moves serve s i ev (step serve s ev).2 := by
  cases ev with
  | call k a =>
    by_cases hp : s.phase k = .ready
    · rw [step_call hp]
      by_cases hk : i = k
      · subst hk
        exact .call a hp (by simp) (by simp) rfl
      · exact .stay (by simp [hk]) (by simp [hk]) rfl
    · rw [step_call_busy hp]
      exact .stay rfl rfl rfl
  | serve k =>
    cases hr : s.request k with
    | none =>
      rw [step_serve_none hr]
      exact .stay rfl rfl rfl
    | some a =>
      rcases hs : serve s.server a with ⟨_ | b, server⟩
      · rw [step_serve_silent hr hs]
        exact .stay rfl rfl rfl
      · rw [step_serve hr hs]
        by_cases hk : i = k
        · subst hk
          exact .serve a b hr (by rw [hs]) rfl (by simp) (by simp)
        · exact .stay rfl (by simp [hk]) (by simp [hk])
  | finish k =>
    by_cases hin : s.phase k = .calling ∧ ∃ b, s.reply k = some b
    · obtain ⟨hp, b, hb⟩ := hin
      rw [step_finish hp hb]
      by_cases hk : i = k
      · subst hk
        exact .finish b hp hb (by simp) rfl (by simp)
      · exact .stay (by simp [hk]) rfl (by simp [hk])
    · rw [step_finish_idle hin]
      exact .stay rfl rfl rfl
  | leave k =>
    by_cases hp : s.phase k = .calling
    · rw [step_leave hp]
      by_cases hk : i = k
      · subst hk
        exact .leave hp (by simp) rfl rfl
      · exact .stay (by simp [hk]) rfl rfl
    · rw [step_leave_idle hp]
      exact .stay rfl rfl rfl
  | pause => exact .stay rfl rfl rfl

theorem Called.extend (h : Called serve s events i a before since) (ev : Event ι α)
    (hp : (after (step serve) s (events ++ [ev])).phase i = .calling) :
    Called serve s (events ++ [ev]) i a before (since ++ [ev]) where
  events := by rw [h.events, List.append_assoc, List.cons_append]
  ready := h.ready
  inCall u hu := by
    rcases List.prefix_concat_iff.mp hu with rfl | hu
    · rw [← after_append, List.append_assoc, List.singleton_append, ← List.cons_append,
        ← List.append_assoc, ← h.events]
      exact hp
    · exact h.inCall u hu

theorem Served.extend (h : Served serve s events i a b before mid since) (ev : Event ι α)
    (hp : (after (step serve) s (events ++ [ev])).phase i = .calling) :
    Served serve s (events ++ [ev]) i a b before mid (since ++ [ev]) where
  toCalled := by
    have := h.toCalled.extend ev hp
    rwa [List.append_assoc, List.cons_append] at this
  reply := h.reply

variable (serve) in
/-- The requests and replies on their way are those of calls. -/
structure Accounted (s : State ι σ α β) (events : List (Event ι α)) (i : ι)
    (s' : State ι σ α β) : Prop where
  ready : s'.phase i = .ready → s'.request i = none ∧ s'.reply i = none
  apart : s'.request i = none ∨ s'.reply i = none
  called : ∀ a, s'.phase i = .calling → s'.request i = some a →
    ∃ before since, Called serve s events i a before since
  served : ∀ b, s'.phase i = .calling → s'.reply i = some b →
    ∃ a before mid since, Served serve s events i a b before mid since

/-- **One step** of any party. -/
theorem Accounted.next (h : Accounted serve s events i (after (step serve) s events))
    (ev : Event ι α) :
    Accounted serve s (events ++ [ev]) i (after (step serve) s (events ++ [ev])) := by
  have hnext : after (step serve) s (events ++ [ev]) =
      (step serve (after (step serve) s events) ev).2 := after_append _ _ _
  have hmoves := moves serve (after (step serve) s events) i ev
  rw [← hnext] at hmoves
  cases hmoves with
  | stay hp hreq hrep =>
    refine ⟨fun hr => ?_, ?_, fun a hc ha => ?_, fun b hc hb => ?_⟩
    · rw [hreq, hrep]
      exact h.ready (hp ▸ hr)
    · rw [hreq, hrep]
      exact h.apart
    · obtain ⟨before, since, hcalled⟩ := h.called a (hp ▸ hc) (hreq ▸ ha)
      exact ⟨before, _, hcalled.extend ev hc⟩
    · obtain ⟨a, before, mid, since, hserved⟩ := h.served b (hp ▸ hc) (hrep ▸ hb)
      exact ⟨a, before, mid, _, hserved.extend ev hc⟩
  | call a hready hp hreq hrep =>
    have hnone := hrep.trans (h.ready hready).2
    refine ⟨fun hr => absurd (hp.symm.trans hr) Phase.noConfusion, .inr hnone,
      fun a' hc ha => ?_, fun b hc hb => ?_⟩
    · rw [hreq, Option.some.injEq] at ha
      subst ha
      refine ⟨events, [], rfl, hready, fun u hu => ?_⟩
      rw [List.prefix_nil.mp hu]
      exact hc
    · rw [hnone] at hb
      cases hb
  | serve a b hreq hreply hp hreq' hrep =>
    refine ⟨fun hr => ?_, .inl hreq', fun a' hc ha => ?_, fun b' hc hb => ?_⟩
    · rw [(h.ready (hp ▸ hr)).1] at hreq
      cases hreq
    · rw [hreq'] at ha
      cases ha
    · rw [hrep, Option.some.injEq] at hb
      subst hb
      obtain ⟨before, since, hcalled⟩ := h.called a (hp ▸ hc) hreq
      refine ⟨a, before, since, [], hcalled.extend (.serve i) hc, ?_⟩
      rw [← hcalled.events]
      exact hreply
  | finish b hc hb hp hreq hrep =>
    have hnone : (after (step serve) s events).request i = none :=
      h.apart.resolve_right (by rw [hb]; exact Option.some_ne_none b)
    refine ⟨fun _ => ⟨hreq.trans hnone, hrep⟩, .inr hrep, fun a hc' _ => ?_, fun b hc' _ => ?_⟩
    · exact absurd (hp.symm.trans hc') Phase.noConfusion
    · exact absurd (hp.symm.trans hc') Phase.noConfusion
  | leave hc hp hreq hrep =>
    refine ⟨fun hr => ?_, ?_, fun a hc' _ => ?_, fun b hc' _ => ?_⟩
    · exact absurd (hp.symm.trans hr) Phase.noConfusion
    · rw [hreq, hrep]
      exact h.apart
    · exact absurd (hp.symm.trans hc') Phase.noConfusion
    · exact absurd (hp.symm.trans hc') Phase.noConfusion

variable (serve) in
theorem accounted (server : σ) (events : List (Event ι α)) (i : ι) :
    Accounted serve { server } events i
      (after (step serve) ({ server } : State ι σ α β) events) := by
  induction events using List.reverseRecOn with
  | nil =>
    refine ⟨fun _ => ⟨rfl, rfl⟩, .inl rfl, fun a hc _ => ?_, fun b hc _ => ?_⟩
    · exact absurd hc Phase.noConfusion
    · exact absurd hc Phase.noConfusion
  | append_singleton events ev ih => exact ih.next ev

/-- A request on its way is the one of a call. -/
theorem mem_call_of_request {server : σ} {events : List (Event ι α)}
    (h : (after (step serve) ({ server } : State ι σ α β) events).request i = some a) :
    .call i a ∈ events := by
  induction events using List.reverseRecOn with
  | nil => cases h
  | append_singleton events ev ih =>
    rw [after_append] at h
    have hmoves := moves serve (after (step serve) ({ server } : State ι σ α β) events) i ev
    rw [List.mem_append, List.mem_singleton]
    cases hmoves with
    | stay hp hreq hrep => exact .inl (ih (hreq ▸ h))
    | call a' hready hp hreq hrep =>
      right
      have := hreq.symm.trans h
      rw [Option.some.inj this]
    | serve a' b hreq hreply hp hreq' hrep =>
      have := hreq'.symm.trans h
      cases this
    | finish b hc hb hp hreq hrep => exact .inl (ih (hreq ▸ h))
    | leave hc hp hreq hrep => exact .inl (ih (hreq ▸ h))

/-- **Linearizability.** A call that returns got the reply of the server to its request in a step
between the call and its return. -/
theorem finished_between {server : σ} {events : List (Event ι α)}
    (h : (step serve (after (step serve) { server } events) (.finish i)).1 =
      .finished i b) :
    ∃ a before mid since, Served serve { server } events i a b before mid since := by
  obtain ⟨hp, hb⟩ := reply_of_finished h
  exact (accounted serve server events i).served b hp hb

/-! ## Calls that return -/

/-- A call has its request or its reply on its way. -/
def Open (s : State ι σ α β) (i : ι) : Prop := s.request i ≠ none ∨ s.reply i ≠ none

theorem open_step (h : s.phase i = .calling → Open s i) {ev : Event ι α}
    (hp : (step serve s ev).2.phase i = .calling) : Open (step serve s ev).2 i := by
  have hmoves := moves serve s i ev
  unfold Open at h ⊢
  cases hmoves with
  | stay hphase hreq hrep =>
    rw [hreq, hrep]
    exact h (hphase.symm.trans hp)
  | call a _ _ hreq => exact .inl (by rw [hreq]; exact Option.some_ne_none a)
  | serve a b _ _ _ _ hrep => exact .inr (by rw [hrep]; exact Option.some_ne_none b)
  | finish b _ _ hready => exact absurd (hready.symm.trans hp) Phase.noConfusion
  | leave _ hleft => exact absurd (hleft.symm.trans hp) Phase.noConfusion

theorem open_of_calling {server : σ}
    (h : (after (step serve) ({ server } : State ι σ α β) events).phase i = .calling) :
    Open (after (step serve) ({ server } : State ι σ α β) events) i := by
  induction events using List.reverseRecOn with
  | nil => exact absurd h Phase.noConfusion
  | append_singleton events ev ih =>
    rw [after_append] at h ⊢
    exact open_step ih h

theorem InCall.left (h : InCall serve s i (mid ++ since)) : InCall serve s i mid :=
  fun u hu => h u (hu.trans (List.prefix_append mid since))

theorem InCall.right (h : InCall serve s i (mid ++ since)) :
    InCall serve (after (step serve) s mid) i since := by
  intro u hu
  rw [← after_append]
  exact h _ ((List.prefix_append_right_inj mid).mpr hu)

/-- A reply stays there as long as it has not been got. -/
theorem InCall.reply (h : InCall serve s i events) (hrep : s.reply i ≠ none) :
    (after (step serve) s events).reply i ≠ none := by
  induction events using List.reverseRecOn with
  | nil => exact hrep
  | append_singleton events ev ih =>
    have hp := h.left events (List.prefix_refl events)
    have hp' := h (events ++ [ev]) (List.prefix_refl _)
    have hstay := ih h.left
    rw [after_append] at hp' ⊢
    have hmoves := moves serve (after (step serve) s events) i ev
    change (step serve (after (step serve) s events) ev).2.phase i = .calling at hp'
    change (step serve (after (step serve) s events) ev).2.reply i ≠ none
    cases hmoves with
    | stay _ _ hrep => rwa [hrep]
    | call a hready => exact absurd (hready.symm.trans hp) Phase.noConfusion
    | serve a b _ _ _ _ hrep => exact hrep ▸ Option.some_ne_none b
    | finish b _ _ hready => exact absurd (hready.symm.trans hp') Phase.noConfusion
    | leave _ hleft => exact absurd (hleft.symm.trans hp') Phase.noConfusion

/-- **The reply is there** once the server has answered. -/
theorem reply_of_inCall {server : σ}
    (hin : InCall serve (after (step serve) { server } events) i (mid ++ .serve i :: since))
    (hserve : ∀ a, (after (step serve) { server } (events ++ mid)).request i = some a →
      (serve (after (step serve) { server } (events ++ mid)).server a).1 ≠ none) :
    (after (step serve) { server } (events ++ (mid ++ .serve i :: since))).reply i ≠ none := by
  have hmid := hin.right
  rw [← after_append, ← List.singleton_append] at hmid
  have hopen : Open (after (step serve) { server } (events ++ mid)) i :=
    open_of_calling (hmid [] List.nil_prefix)
  rw [← List.append_assoc, after_append, ← List.singleton_append, after_append]
  apply hmid.right.reply
  by_cases hrep : (after (step serve) { server } (events ++ mid)).reply i = none
  · obtain ⟨a, ha⟩ := Option.ne_none_iff_exists'.mp (hopen.resolve_right (not_not.mpr hrep))
    obtain ⟨b, hb⟩ := Option.ne_none_iff_exists'.mp (hserve a ha)
    rcases hs : serve (after (step serve) { server } (events ++ mid)).server a with ⟨b', server'⟩
    rw [hs] at hb
    subst hb
    rw [after_cons, after_nil, step_serve ha hs]
    simp
  · exact hmid.left.reply hrep

variable (serve) in
/-- A call goes on as long as its client neither leaves it nor gets its reply. -/
theorem finished_or_inCall (hp : s.phase i = .calling) (hleave : .leave i ∉ events) :
    (∃ u b, u ++ [.finish i] <+: events ∧
      (step serve (after (step serve) s u) (.finish i)).1 = .finished i b) ∨
      InCall serve s i events := by
  induction events using List.reverseRecOn with
  | nil =>
    refine .inr fun u hu => ?_
    rw [List.prefix_nil.mp hu]
    exact hp
  | append_singleton events ev ih =>
    rw [List.mem_append, not_or, List.mem_singleton] at hleave
    rcases ih hleave.1 with ⟨u, b, hu, hfinish⟩ | hin
    · exact .inl ⟨u, b, hu.trans (List.prefix_append _ _), hfinish⟩
    · have hcalling := hin events (List.prefix_refl events)
      have hmoves := moves serve (after (step serve) s events) i ev
      by_cases hp' : (step serve (after (step serve) s events) ev).2.phase i = .calling
      · refine .inr fun u hu => ?_
        rcases List.prefix_concat_iff.mp hu with rfl | hu
        · rw [after_append]
          exact hp'
        · exact hin u hu
      · cases hmoves with
        | stay hphase => exact absurd (hphase.trans hcalling) hp'
        | call a hready => exact absurd (hready.symm.trans hcalling) Phase.noConfusion
        | serve a b _ _ hphase => exact absurd (hphase.trans hcalling) hp'
        | finish b _ hb =>
          exact .inl ⟨events, b, List.prefix_refl _, congrArg Prod.fst (step_finish hcalling hb)⟩
        | leave => exact absurd rfl hleave.2

/-- **Calls return.** When the server answers at some turn of a client that stays in its call, its
reply comes: the client gets it before the end, or it is there at the end. -/
theorem reply_comes {server : σ}
    (hp : (after (step serve) ({ server } : State ι σ α β) events).phase i = .calling)
    (hleave : .leave i ∉ mid ++ .serve i :: since)
    (hserve : ∀ a, (after (step serve) { server } (events ++ mid)).request i = some a →
      (serve (after (step serve) { server } (events ++ mid)).server a).1 ≠ none) :
    ∃ w, (w ++ [.finish i] <+: mid ++ .serve i :: since ∨ w = mid ++ .serve i :: since) ∧
      (after (step serve) ({ server } : State ι σ α β) (events ++ w)).phase i = .calling ∧
      (after (step serve) ({ server } : State ι σ α β) (events ++ w)).reply i ≠ none := by
  rcases finished_or_inCall serve hp hleave with ⟨w, b, hw, hfinish⟩ | hin
  · rw [← after_append] at hfinish
    obtain ⟨hcalling, hreply⟩ := reply_of_finished hfinish
    exact ⟨w, .inl hw, hcalling, by rw [hreply]; exact Option.some_ne_none b⟩
  · have hcalling := hin _ (List.prefix_refl _)
    rw [← after_append] at hcalling
    exact ⟨_, .inr rfl, hcalling, reply_of_inCall hin hserve⟩

end Step

/-- Where a run stops among the images of the events, it stops among the events. -/
theorem map_of_prefix {γ δ : Type*} {f : γ → δ} {y : δ} (x : γ) (hx : ∀ z, f z = y → z = x)
    {w : List δ} {l : List γ} (h : w ++ [y] <+: l.map f ∨ w = l.map f) :
    ∃ w₀, w = w₀.map f ∧ (w₀ ++ [x] <+: l ∨ w₀ = l) := by
  rcases h with hpre | rfl
  · obtain ⟨l₀, hl, hmap⟩ := List.prefix_map_iff.mp hpre
    obtain ⟨w₀, last, rfl, rfl, hlast⟩ := List.map_eq_append_iff.mp hmap.symm
    obtain ⟨z, rfl, hz⟩ := List.map_eq_singleton_iff.mp hlast
    obtain rfl := hx z hz
    exact ⟨w₀, rfl, .inl hl⟩
  · exact ⟨l, rfl, .inr rfl⟩

end Service

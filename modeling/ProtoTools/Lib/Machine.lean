import Mathlib.Data.List.Basic

/-!
# Runs of a machine that takes one input after the other

A machine is a step function `step : σ → ι → ο × σ`: one call with an input gives an output and
the next state. A call that fails is an output like any other; the machine goes on from the state
the failed call left.

* `outputs step s xs`, `after step s xs`: the outputs of the calls on `xs` from `s`, and the state
  after them. `outputs_append`/`after_append` cut a run in two.
* `Along step G s xs`: every call of the run satisfies `G` (a property of the state before the call
  and its input).
* `Along.mono_inv`: the induction rule. An invariant that every call with `G` keeps gives `G'` of
  every call.
* `Along.simulation`: two machines side by side.
* `trace step s xs`: the inputs with their outputs. `Along.flow`: what goes into a machine comes out
  of it in the same order, or is still inside. `outputs_sublist`: some of it may be lost.
  `Along.fold`: a part of the state as a fold over the trace.
* `blockStep`: the machine that takes a block of inputs in one call (`along_blockStep`).
* `along_map`: a property of the calls of a machine inside another one.
-/

namespace Machine

variable {σ τ ι ο : Type*} (step : σ → ι → ο × σ)

/-- The state after the calls on `xs`. -/
def after (s : σ) (xs : List ι) : σ := xs.foldl (fun s x => (step s x).2) s

/-- The outputs of the calls on `xs`, one per input. -/
def outputs : σ → List ι → List ο
  | _, [] => []
  | s, x :: xs => (step s x).1 :: outputs (step s x).2 xs

/-- Every call of the run satisfies `G`. -/
def Along (G : σ → ι → Prop) : σ → List ι → Prop
  | _, [] => True
  | s, x :: xs => G s x ∧ Along G (step s x).2 xs

variable {step}

@[simp] theorem after_nil (s : σ) : after step s [] = s := rfl

@[simp] theorem after_cons (s : σ) (x : ι) (xs : List ι) :
    after step s (x :: xs) = after step (step s x).2 xs := rfl

@[simp] theorem outputs_nil (s : σ) : outputs step s [] = [] := rfl

@[simp] theorem outputs_cons (s : σ) (x : ι) (xs : List ι) :
    outputs step s (x :: xs) = (step s x).1 :: outputs step (step s x).2 xs := rfl

@[simp] theorem along_nil (G : σ → ι → Prop) (s : σ) : Along step G s [] := trivial

@[simp] theorem along_cons {G : σ → ι → Prop} {s : σ} {x : ι} {xs : List ι} :
    Along step G s (x :: xs) ↔ G s x ∧ Along step G (step s x).2 xs := Iff.rfl

theorem after_append (s : σ) (xs ys : List ι) :
    after step s (xs ++ ys) = after step (after step s xs) ys := List.foldl_append

theorem outputs_append (s : σ) (xs ys : List ι) :
    outputs step s (xs ++ ys) = outputs step s xs ++ outputs step (after step s xs) ys := by
  induction xs generalizing s with
  | nil => rfl
  | cons x xs ih => simp [ih]

@[simp] theorem length_outputs (s : σ) (xs : List ι) :
    (outputs step s xs).length = xs.length := by
  induction xs generalizing s with
  | nil => rfl
  | cons x xs ih => simp [ih]

/-- The outputs of a run and a property of every call's output. -/
theorem along_output {P : ο → Prop} {s : σ} {xs : List ι} :
    Along step (fun s x => P (step s x).1) s xs ↔ ∀ o ∈ outputs step s xs, P o := by
  induction xs generalizing s with
  | nil => simp
  | cons x xs ih => simp [ih]

/-- A property of every input. -/
theorem along_input {P : ι → Prop} {s : σ} {xs : List ι} :
    Along step (fun _ x => P x) s xs ↔ ∀ x ∈ xs, P x := by
  induction xs generalizing s with
  | nil => simp
  | cons x xs ih => simp [ih]

/-- A property of every state of the run. -/
theorem forall_after {P : σ → Prop} {s : σ} {xs : List ι} :
    (∀ n, P (after step s (xs.take n))) ↔
      P s ∧ Along step (fun s x => P (step s x).2) s xs := by
  induction xs generalizing s with
  | nil => simp
  | cons x xs ih =>
    rw [along_cons, ← ih]
    constructor
    · exact fun h => ⟨h 0, fun n => h (n + 1)⟩
    · rintro ⟨h0, h⟩ n
      cases n with
      | zero => exact h0
      | succ n => exact h n

/-- **Induction over a run.** An invariant `I` of the states, kept by each call with `G`, gives
`G'` of each call that satisfies `G`, and holds after the run. -/
theorem Along.mono_inv {I : σ → Prop} {G G' : σ → ι → Prop}
    (hstep : ∀ s x, I s → G s x → G' s x ∧ I (step s x).2) {s : σ} {xs : List ι} (h0 : I s)
    (h : Along step G s xs) : Along step G' s xs ∧ I (after step s xs) := by
  induction xs generalizing s with
  | nil => exact ⟨trivial, h0⟩
  | cons x xs ih =>
    obtain ⟨hg, hi⟩ := hstep s x h0 h.1
    obtain ⟨h1, h2⟩ := ih hi h.2
    exact ⟨⟨hg, h1⟩, h2⟩

theorem Along.mono {G G' : σ → ι → Prop} (hG : ∀ s x, G s x → G' s x) {s : σ} {xs : List ι}
    (h : Along step G s xs) : Along step G' s xs :=
  (h.mono_inv (I := fun _ => True) (fun s x _ hg => ⟨hG s x hg, trivial⟩) trivial).1

/-- A property of the states that the run goes through. -/
theorem along_of_prefix {P : σ → Prop} {s : σ} {xs : List ι}
    (h : ∀ ys, ys <+: xs → P (after step s ys)) : Along step (fun s _ => P s) s xs := by
  induction xs generalizing s with
  | nil => trivial
  | cons x xs ih =>
    refine ⟨h [] (List.nil_prefix), ih fun ys hys => ?_⟩
    exact h (x :: ys) (List.cons_prefix_cons.mpr ⟨rfl, hys⟩)

theorem Along.and {G G' : σ → ι → Prop} {s : σ} {xs : List ι} (h : Along step G s xs)
    (h' : Along step G' s xs) : Along step (fun s x => G s x ∧ G' s x) s xs := by
  induction xs generalizing s with
  | nil => trivial
  | cons x xs ih => exact ⟨⟨h.1, h'.1⟩, ih h.2 h'.2⟩

/-- The calls of a machine inside another one, whose state it is a part of. -/
theorem along_map {step' : τ → ι → ο × τ} (f : σ → τ)
    (hf : ∀ s x, f (step s x).2 = (step' (f s) x).2) {G : τ → ι → Prop} {s : σ} {xs : List ι} :
    Along step (fun s x => G (f s) x) s xs ↔ Along step' G (f s) xs := by
  induction xs generalizing s with
  | nil => exact Iff.rfl
  | cons x xs ih => rw [along_cons, along_cons, ih, hf]

/-- **Simulation.** A relation between the states of two machines, kept by each pair of calls with
`G`, gives the outputs of the second machine from those of the first. -/
theorem Along.simulation {ο' : Type*} {step' : τ → ι → ο' × τ} {R : σ → τ → Prop} {f : ο → ο'}
    {G : σ → ι → Prop}
    (hstep : ∀ s t x, R s t → G s x → (step' t x).1 = f (step s x).1 ∧ R (step s x).2 (step' t x).2)
    {s : σ} {t : τ} {xs : List ι} (h0 : R s t) (h : Along step G s xs) :
    outputs step' t xs = (outputs step s xs).map f ∧
      R (after step s xs) (after step' t xs) := by
  induction xs generalizing s t with
  | nil => exact ⟨rfl, h0⟩
  | cons x xs ih =>
    obtain ⟨hout, hnext⟩ := hstep s t x h0 h.1
    obtain ⟨h1, h2⟩ := ih hnext h.2
    exact ⟨by rw [outputs_cons, outputs_cons, List.map_cons, hout, h1], h2⟩

/-! ## What flows through a machine -/

section Flow

variable (step) in
/-- The inputs, each with the output of its call. -/
def trace (s : σ) (xs : List ι) : List (ι × ο) := xs.zip (outputs step s xs)

@[simp] theorem trace_nil (s : σ) : trace step s [] = [] := rfl

@[simp] theorem trace_cons (s : σ) (x : ι) (xs : List ι) :
    trace step s (x :: xs) = (x, (step s x).1) :: trace step (step s x).2 xs := rfl

theorem trace_append (s : σ) (xs ys : List ι) :
    trace step s (xs ++ ys) = trace step s xs ++ trace step (after step s xs) ys := by
  rw [trace, outputs_append, List.zip_append (length_outputs s xs).symm]
  rfl

theorem flatMap_trace_input {α : Type*} (f : ι → List α) {s : σ} {xs : List ι} :
    (trace step s xs).flatMap (fun p => f p.1) = xs.flatMap f := by
  induction xs generalizing s with
  | nil => rfl
  | cons x xs ih => simp [ih]

theorem flatMap_trace_output {α : Type*} (f : ο → List α) {s : σ} {xs : List ι} :
    (trace step s xs).flatMap (fun p => f p.2) = (outputs step s xs).flatMap f := by
  induction xs generalizing s with
  | nil => rfl
  | cons x xs ih => simp [ih]

/-- **First in, first out.** `enters` and `leaves` are what a call puts in and takes out, and
`inside` is what a state holds. When each call with `G` keeps the order, so does the run. -/
theorem Along.flow {α : Type*} {I : σ → Prop} {G : σ → ι → Prop} (inside : σ → List α)
    (enters leaves : ι × ο → List α)
    (hstep : ∀ s x, I s → G s x → inside s ++ enters (x, (step s x).1) =
      leaves (x, (step s x).1) ++ inside (step s x).2 ∧ I (step s x).2)
    {s : σ} {xs : List ι} (h0 : I s) (h : Along step G s xs) :
    inside s ++ (trace step s xs).flatMap enters =
      (trace step s xs).flatMap leaves ++ inside (after step s xs) := by
  induction xs generalizing s with
  | nil => simp
  | cons x xs ih =>
    obtain ⟨horder, hnext⟩ := hstep s x h0 h.1
    calc inside s ++ (trace step s (x :: xs)).flatMap enters
        = inside s ++ enters (x, (step s x).1) ++
            (trace step (step s x).2 xs).flatMap enters := by simp
      _ = leaves (x, (step s x).1) ++ (inside (step s x).2 ++
            (trace step (step s x).2 xs).flatMap enters) := by rw [horder, List.append_assoc]
      _ = (trace step s (x :: xs)).flatMap leaves ++ inside (after step s (x :: xs)) := by
          rw [ih hnext h.2]
          simp

/-- A part of the state that each call with `G` takes on with a part of its trace. -/
theorem Along.fold {α : Type*} {G : σ → ι → Prop} (inside : σ → τ) (g : τ → α → τ)
    (part : ι × ο → List α)
    (hstep : ∀ s x, G s x →
      inside (step s x).2 = (part (x, (step s x).1)).foldl g (inside s))
    {s : σ} {xs : List ι} (h : Along step G s xs) :
    inside (after step s xs) = ((trace step s xs).flatMap part).foldl g (inside s) := by
  induction xs generalizing s with
  | nil => rfl
  | cons x xs ih =>
    rw [after_cons, trace_cons, List.flatMap_cons, List.foldl_append, ← hstep s x h.1]
    exact ih h.2

/-- A property of what each call with `G` gives. -/
theorem Along.forall_flatMap {α : Type*} {P : α → Prop} {G : σ → ι → Prop} (part : ι × ο → List α)
    (hstep : ∀ s x, G s x → ∀ a ∈ part (x, (step s x).1), P a)
    {s : σ} {xs : List ι} (h : Along step G s xs) : ∀ a ∈ (trace step s xs).flatMap part, P a := by
  induction xs generalizing s with
  | nil => simp
  | cons x xs ih =>
    rw [trace_cons, List.flatMap_cons, List.forall_mem_append]
    exact ⟨hstep s x h.1, ih h.2⟩

/-- What each call with `G` gives of two kinds, one a part of the other. -/
theorem Along.flatMap_sublist {α : Type*} {G : σ → ι → Prop} (part whole : ι × ο → List α)
    (hstep : ∀ s x, G s x →
      (part (x, (step s x).1)).Sublist (whole (x, (step s x).1)))
    {s : σ} {xs : List ι} (h : Along step G s xs) :
    ((trace step s xs).flatMap part).Sublist ((trace step s xs).flatMap whole) := by
  induction xs generalizing s with
  | nil => exact .slnil
  | cons x xs ih => exact (hstep s x h.1).append (ih h.2)

/-- Nothing comes out of a machine that did not go in, nor twice, nor in another order, when no call
does it. -/
theorem outputs_sublist {α : Type*} (inside : σ → List α) (enters : ι → List α)
    (leaves : ο → List α)
    (hstep : ∀ s x, (leaves (step s x).1 ++ inside (step s x).2).Sublist (inside s ++ enters x))
    (s : σ) (xs : List ι) :
    ((outputs step s xs).flatMap leaves ++ inside (after step s xs)).Sublist
      (inside s ++ xs.flatMap enters) := by
  induction xs generalizing s with
  | nil => simp
  | cons x xs ih =>
    have hrest := (ih (step s x).2).append_left (leaves (step s x).1)
    have hfirst := (hstep s x).append_right (xs.flatMap enters)
    rw [List.append_assoc, List.append_assoc] at hfirst
    rw [outputs_cons, after_cons, List.flatMap_cons, List.flatMap_cons, List.append_assoc]
    exact hrest.trans hfirst

end Flow

/-! ## Calls that take a block of inputs -/

/-- The machine that takes a block of inputs in one call. -/
def blockStep (step : σ → ι → ο × σ) (s : σ) (xs : List ι) : List ο × σ :=
  (outputs step s xs, after step s xs)

/-- A property of every output, block by block. -/
theorem along_blockStep {P : ο → Prop} {s : σ} {xss : List (List ι)} :
    Along (blockStep step) (fun s xs => ∀ o ∈ outputs step s xs, P o) s xss ↔
      ∀ o ∈ outputs step s xss.flatten, P o := by
  induction xss generalizing s with
  | nil => simp
  | cons xs xss ih =>
    rw [along_cons, ih, List.flatten_cons, outputs_append, List.forall_mem_append]
    rfl

end Machine

import Mathlib.Data.List.Basic

/-!
# A window over a stream

A scanner that looks for a word `w` of length `m + 1` keeps the last `m` elements of what it has
read: with the next element they are the only place where a new occurrence of `w` can end.

* `last m xs`: the last `m` elements. `last_concat_of_lt`/`last_concat_tail`: how the window moves.
* `OccursAt w xs k`: `w` occurs in `xs` at offset `k`. `occursAt_concat`: the occurrence that ends
  at a new element is the one in the window. `OccursAt.append`, `OccursAt.of_take`: an occurrence
  in a part of the stream is one in the whole.
* `seek w xs`: what comes after the first occurrence of `w`.
-/

namespace Window

variable {α : Type*}

/-- The last `m` elements of `xs`. -/
def last (m : Nat) (xs : List α) : List α := xs.drop (xs.length - m)

/-- `w` occurs in `xs` at offset `k`. -/
def OccursAt (w xs : List α) (k : Nat) : Prop := w <+: xs.drop k

@[simp] theorem length_last (m : Nat) (xs : List α) : (last m xs).length = min m xs.length := by
  simp only [last, List.length_drop]
  omega

@[simp] theorem last_nil (m : Nat) : last m ([] : List α) = [] := by simp [last]

/-- The window is not full: it grows. -/
theorem last_concat_of_lt {m : Nat} {xs : List α} (h : xs.length < m) (x : α) :
    last m (xs ++ [x]) = last m xs ++ [x] := by
  have h1 : (xs ++ [x]).length - m = 0 := by simp; omega
  have h2 : xs.length - m = 0 := by omega
  rw [last, last, h1, h2, List.drop_zero, List.drop_zero]

/-- The window is full: its oldest element drops out. -/
theorem last_concat_tail {m : Nat} {xs : List α} (h : m ≤ xs.length) (x : α) :
    last m (xs ++ [x]) = (last m xs ++ [x]).tail := by
  have h1 : (xs ++ [x]).length - m = xs.length - m + 1 := by simp; omega
  rw [last, last, h1, ← List.tail_drop, List.drop_append_of_le_length (by omega)]

theorem last_of_le {m : Nat} {xs : List α} (h : xs.length ≤ m) : last m xs = xs := by
  simp [last, Nat.sub_eq_zero_of_le h]

/-- The window is the end of what has been read. -/
theorem last_eq_drop {m k : Nat} {xs : List α} (h : xs.length = k + m) : last m xs = xs.drop k := by
  rw [last, h, Nat.add_sub_cancel]

/-- The occurrence that ends at the new element is the window with this element. -/
theorem occursAt_concat {m : Nat} {w xs : List α} (hw : w.length = m + 1) (h : m ≤ xs.length)
    (x : α) : OccursAt w (xs ++ [x]) (xs.length - m) ↔ w = last m xs ++ [x] := by
  have hd : (xs ++ [x]).drop (xs.length - m) = last m xs ++ [x] :=
    List.drop_append_of_le_length (by omega)
  rw [OccursAt, hd]
  constructor
  · intro hp
    exact hp.eq_of_length (by simp; omega)
  · rintro rfl
    exact List.prefix_rfl

theorem OccursAt.append {w xs : List α} {k : Nat} (h : OccursAt w xs k) (ys : List α) :
    OccursAt w (xs ++ ys) k := by
  obtain ⟨zs, hz⟩ := h
  by_cases hk : k ≤ xs.length
  · exact ⟨zs ++ ys, by rw [List.drop_append_of_le_length hk, ← hz, List.append_assoc]⟩
  · rw [List.drop_eq_nil_of_le (by omega)] at hz
    rw [(List.append_eq_nil_iff.mp hz).1]
    exact List.nil_prefix

/-- An occurrence in the start of `xs` is one in `xs`. -/
theorem OccursAt.of_take {w xs : List α} {j k : Nat} (h : OccursAt w (xs.take j) k) :
    OccursAt w xs k := by
  have hall := h.append (xs.drop j)
  rwa [List.take_append_drop] at hall

theorem OccursAt.length_le {w xs : List α} {k : Nat} (h : OccursAt w xs k) (hw : w ≠ []) :
    k + w.length ≤ xs.length := by
  have hl := List.IsPrefix.length_le h
  have hp := List.length_pos_iff.mpr hw
  rw [List.length_drop] at hl
  omega

theorem OccursAt.drop {w xs : List α} {k : Nat} (n : Nat) :
    OccursAt w (xs.drop n) k ↔ OccursAt w xs (n + k) := by
  rw [OccursAt, OccursAt, List.drop_drop]

/-- A word occurs where it stands. -/
theorem occursAt_append (g w ys : List α) : OccursAt w (g ++ (w ++ ys)) g.length := by
  rw [OccursAt, List.drop_left]
  exact List.prefix_append w ys

/-! ## The first occurrence -/

section Seek

variable [DecidableEq α]

/-- What comes after the first occurrence of `w`. -/
def seek (w : List α) : List α → Option (List α)
  | [] => if w = [] then some [] else none
  | x :: xs => if w <+: x :: xs then some ((x :: xs).drop w.length) else seek w xs

theorem seek_none {w xs : List α} (h : seek w xs = none) (k : Nat) : ¬ OccursAt w xs k := by
  induction xs generalizing k with
  | nil =>
    rw [seek] at h
    split at h
    · cases h
    · rename_i hw
      rwa [OccursAt, List.drop_nil, List.prefix_nil]
  | cons x xs ih =>
    rw [seek] at h
    split at h
    · cases h
    · rename_i hw
      cases k with
      | zero => exact hw
      | succ k => exact ih h k

theorem seek_some {w xs ys : List α} (h : seek w xs = some ys) :
    ∃ g, xs = g ++ (w ++ ys) ∧ ∀ k < g.length, ¬ OccursAt w xs k := by
  induction xs with
  | nil =>
    rw [seek] at h
    split at h
    · rename_i hw
      cases h
      exact ⟨[], by rw [hw]; rfl, fun k hk => absurd hk (Nat.not_lt_zero k)⟩
    · cases h
  | cons x xs ih =>
    rw [seek] at h
    split at h
    · rename_i hw
      cases h
      obtain ⟨zs, hz⟩ := hw
      refine ⟨[], ?_, fun k hk => absurd hk (Nat.not_lt_zero k)⟩
      rw [← hz, List.drop_left]
      rfl
    · rename_i hw
      obtain ⟨g, rfl, hg⟩ := ih h
      refine ⟨x :: g, rfl, fun k hk => ?_⟩
      cases k with
      | zero => exact hw
      | succ k => exact hg k (Nat.lt_of_succ_lt_succ hk)

/-- The first occurrence is found. -/
theorem seek_first {w g ys : List α} (h : ∀ k < g.length, ¬ OccursAt w (g ++ (w ++ ys)) k) :
    seek w (g ++ (w ++ ys)) = some ys := by
  induction g with
  | nil =>
    cases hw : w ++ ys with
    | nil =>
      obtain ⟨rfl, rfl⟩ := List.append_eq_nil_iff.mp hw
      rfl
    | cons x xs =>
      rw [List.nil_append, seek, ← hw, if_pos (List.prefix_append w ys), List.drop_left]
  | cons x g ih =>
    have h0 : ¬ w <+: x :: (g ++ (w ++ ys)) := h 0 (Nat.succ_pos _)
    rw [List.cons_append, seek, if_neg h0]
    exact ih fun k hk => h (k + 1) (Nat.succ_lt_succ hk)

end Seek

end Window

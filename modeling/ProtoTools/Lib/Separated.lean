import Mathlib.Data.List.Basic

/-!
# Lists with a separator, as text

A parser of an item takes a text to the item and the rest of the text, when the text begins with
one.

* `join`: the texts of the items, with the separator between them.
* `items`, `bracketed`: the parsers of a list with at least one item, and of any list, up to the
  closing character.
* `items_join`, `bracketed_join`: they read what `join` writes, when the item's parser reads what is
  written for each item.
-/

namespace Separated

variable {κ α : Type*}

/-- The texts of the items, one after the other. -/
def join (render : α → List κ) (sep : κ) : List α → List κ
  | [] => []
  | [a] => render a
  | a :: a' :: as => render a ++ sep :: join render sep (a' :: as)

section Parser

variable [DecidableEq κ] (item : List κ → Option (α × List κ)) (sep close : κ)

/-- At least one item and the closing character; at most as many items as the number says. -/
def items : Nat → List κ → Option (List α × List κ)
  | 0, _ => none
  | n + 1, text =>
    match item text with
    | none => none
    | some (_, []) => none
    | some (a, b :: rest) =>
      if b = sep then (items n rest).map fun r => (a :: r.1, r.2)
      else if b = close then some ([a], rest)
      else none

/-- Any items and the closing character. -/
def bracketed (n : Nat) : List κ → Option (List α × List κ)
  | [] => none
  | b :: text => if b = close then some ([], text) else items item sep close n (b :: text)

variable {item sep close} {render : α → List κ} {as : List α}

theorem items_join (hne : as ≠ []) (hsep : sep ≠ close)
    (hitem : ∀ a ∈ as, ∀ rest, item (render a ++ rest) = some (a, rest)) {n : Nat}
    (hn : as.length ≤ n) (rest : List κ) :
    items item sep close n (join render sep as ++ close :: rest) = some (as, rest) := by
  induction as generalizing n with
  | nil => exact absurd rfl hne
  | cons a as ih =>
    rw [List.forall_mem_cons] at hitem
    cases n with
    | zero => cases hn
    | succ n =>
      cases as with
      | nil => simp [items, join, hitem.1, hsep.symm]
      | cons a' as =>
        have hrest := ih (List.cons_ne_nil _ _) hitem.2 (Nat.le_of_succ_le_succ hn)
        rw [items, join, List.append_assoc, hitem.1]
        simp [hrest]

theorem bracketed_join (hsep : sep ≠ close)
    (hitem : ∀ a ∈ as, ∀ rest, item (render a ++ rest) = some (a, rest))
    (hclose : ∀ a ∈ as, ∃ b text, render a = b :: text ∧ b ≠ close) {n : Nat}
    (hn : as.length ≤ n) (rest : List κ) :
    bracketed item sep close n (join render sep as ++ close :: rest) = some (as, rest) := by
  cases as with
  | nil => exact if_pos rfl
  | cons a as =>
    obtain ⟨b, text, hb, hne⟩ := hclose a (.head _)
    have hitems := items_join (List.cons_ne_nil a as) hsep hitem hn rest
    -- the text begins with the first character of the first item
    have htext : ∃ more, join render sep (a :: as) ++ close :: rest = b :: more := by
      cases as with
      | nil => exact ⟨_, by rw [join, hb, List.cons_append]⟩
      | cons a' as => exact ⟨_, by rw [join, hb, List.cons_append, List.cons_append]⟩
    obtain ⟨more, hmore⟩ := htext
    rw [hmore] at hitems ⊢
    rw [bracketed, if_neg hne, hitems]

end Parser

/-- No more items than characters. -/
theorem length_le_join {render : α → List κ} {sep : κ} {as : List α}
    (h : ∀ a ∈ as, render a ≠ []) : as.length ≤ (join render sep as).length := by
  induction as with
  | nil => exact Nat.zero_le _
  | cons a as ih =>
    rw [List.forall_mem_cons] at h
    have hpos := List.length_pos_iff.mpr h.1
    have := ih h.2
    cases as with
    | nil => exact hpos
    | cons a' as =>
      simp only [join, List.length_append, List.length_cons] at this ⊢
      omega

/-- An item is no longer than the list. -/
theorem length_le_join_of_mem {render : α → List κ} {sep : κ} {as : List α} {a : α} (h : a ∈ as) :
    (render a).length ≤ (join render sep as).length := by
  induction as with
  | nil => cases h
  | cons a' as ih =>
    cases as with
    | nil =>
      rw [List.mem_singleton.mp h]
      exact Nat.le_refl _
    | cons a'' as =>
      rw [join, List.length_append, List.length_cons]
      rcases List.mem_cons.mp h with rfl | h
      · omega
      · have := ih h
        omega

end Separated

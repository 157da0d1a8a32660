import Mathlib.Data.Nat.Digits.Lemmas

/-!
# Numerals

Numbers as texts of ASCII digits, most significant digit first, in any base up to 36, over Mathlib's
`Nat.digits`.

* `numeral base n`: the text of `n`, without leading zeros.
* `digits base s`: the digits at the start of a text. `value base ds`: their number.
* `value_digits_numeral`: the text of a number is read back as the number.
* `numeral_eq_cons`: it starts with another digit than zero, zero apart.
-/

namespace Numerals

/-- The digit of a character. -/
def digit (c : UInt8) : Option Nat :=
  if 0x30 ≤ c ∧ c ≤ 0x39 then some (c.toNat - 0x30)
  else if 0x61 ≤ c ∧ c ≤ 0x7A then some (c.toNat - 0x61 + 10)
  else if 0x41 ≤ c ∧ c ≤ 0x5A then some (c.toNat - 0x41 + 10)
  else none

/-- The character of a digit. -/
def digitChar (d : Nat) : UInt8 := UInt8.ofNat (if d < 10 then 0x30 + d else 0x57 + d)

/-- The text of a number. -/
def numeral (base n : Nat) : List UInt8 :=
  if n = 0 then [digitChar 0] else (Nat.digits base n).reverse.map digitChar

/-- The digits at the start of a text. -/
def digits (base : Nat) : List UInt8 → List Nat
  | [] => []
  | c :: s =>
    match digit c with
    | none => []
    | some d => if d < base then d :: digits base s else []

/-- The number of the digits. -/
def value (base : Nat) (ds : List Nat) : Nat := ds.foldl (fun n d => d + base * n) 0

section Numerals

variable {base d n : Nat} {ds : List Nat}

theorem digit_digitChar (h : d < 36) : digit (digitChar d) = some d := by
  revert d
  decide

theorem digits_map (hbase : base ≤ 36) (h : ∀ d ∈ ds, d < base) :
    digits base (ds.map digitChar) = ds := by
  induction ds with
  | nil => rfl
  | cons d ds ih =>
    have hd := h d (.head _)
    rw [List.map_cons, digits, digit_digitChar (Nat.lt_of_lt_of_le hd hbase)]
    simp only [if_pos hd, ih fun d hd => h d (.tail _ hd)]

/-- Most significant first is least significant first, backwards. -/
theorem value_reverse (base : Nat) (ds : List Nat) :
    value base ds.reverse = Nat.ofDigits base ds := by
  rw [value, List.foldl_reverse, Nat.ofDigits_eq_foldr]
  rfl

theorem digits_numeral (h1 : 1 < base) (hbase : base ≤ 36) (hn : n ≠ 0) :
    digits base (numeral base n) = (Nat.digits base n).reverse := by
  rw [numeral, if_neg hn]
  apply digits_map hbase
  intro d hd
  exact Nat.digits_lt_base h1 (List.mem_reverse.mp hd)

/-- **A number is read back from its text.** -/
theorem value_digits_numeral (h1 : 1 < base) (hbase : base ≤ 36) (n : Nat) :
    value base (digits base (numeral base n)) = n := by
  by_cases hn : n = 0
  · subst hn
    have hzero : ∀ d ∈ [0], d < base := by
      rw [List.forall_mem_singleton]
      omega
    rw [show numeral base 0 = [0].map digitChar from rfl, digits_map hbase hzero]
    rfl
  · rw [digits_numeral h1 hbase hn, value_reverse, Nat.ofDigits_digits]

/-- The text of another number than zero has a first digit, which is not zero. -/
theorem numeral_eq_cons (h1 : 1 < base) (hn : n ≠ 0) :
    ∃ d ds, numeral base n = digitChar d :: ds ∧ 0 < d ∧ d < base := by
  have hne : Nat.digits base n ≠ [] := Nat.digits_ne_nil_iff_ne_zero.mpr hn
  have hlast := Nat.getLast_digit_ne_zero base hn
  refine ⟨(Nat.digits base n).getLast hne, (Nat.digits base n).dropLast.reverse.map digitChar, ?_,
    Nat.pos_of_ne_zero hlast, Nat.digits_lt_base h1 (List.getLast_mem hne)⟩
  rw [numeral, if_neg hn, ← List.map_cons, ← List.reverse_concat, List.dropLast_append_getLast hne]

end Numerals

end Numerals

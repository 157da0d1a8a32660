import ProtoTools.Lib.Numerals
import ProtoTools.Interpretation.Values

/-!
# Values as texts (`TypeFormatter.hpp`)

* `variantToString`, `variantFromString`: the conversions to a text and back. The text of a
  `double`, which the standard library makes and reads, is a parameter.
* `stoll`, `stoull`: the functions of the standard library, with the base detected from the text.
  `detectBase_numeral`: a decimal number is not taken for an octal or a hexadecimal one.
* `variant_text_round_trip`: strings, integers and `bool`s come back from their texts.
-/

namespace Protos

open Numerals

/-! ## Integers (`std::format`, `std::stoll`, `std::stoull`) -/

/-- `std::format("{}", …)` of an integer. -/
def formatInteger (z : Int) : Str :=
  if z < 0 then 0x2D :: numeral 10 z.natAbs else numeral 10 z.natAbs

/-- `isspace`. -/
def isSpace (c : UInt8) : Bool := c = 0x20 ∨ 0x09 ≤ c ∧ c ≤ 0x0D

/-- The sign at the start: whether it is a minus, and the text after it. -/
def takeSign : Str → Bool × Str
  | 0x2D :: s => (true, s)
  | 0x2B :: s => (false, s)
  | s => (false, s)

/-- The base that the prefix stands for, and the text with its digits: 16 for `0x` and a digit, 8
for another `0`, and 10. -/
def detectBase : Str → Nat × Str
  | 0x30 :: x :: s =>
    if (x = 0x78 ∨ x = 0x58) ∧ digits 16 s ≠ [] then (16, s) else (8, 0x30 :: x :: s)
  | [0x30] => (8, [0x30])
  | s => (10, s)

/-- The number at the start of a text, after blanks: whether it has a minus, and its magnitude. -/
def scanInteger (text : Str) : Option (Bool × Nat) :=
  let (negative, s) := takeSign (text.dropWhile isSpace)
  let (base, s) := detectBase s
  match digits base s with
  | [] => none
  | ds => some (negative, value base ds)

/-- `std::stoll` with base 0. -/
def stoll (text : Str) : Except Fault Int64 :=
  match scanInteger text with
  | none => .error .invalidArgument
  | some (negative, n) =>
    let z : Int := if negative then -n else n
    if z < -2 ^ 63 ∨ 2 ^ 63 ≤ z then .error .outOfRange else .ok (Int64.ofInt z)

/-- `std::stoull` with base 0: a number with a minus is the one modulo `2 ^ 64`. -/
def stoull (text : Str) : Except Fault UInt64 :=
  match scanInteger text with
  | none => .error .invalidArgument
  | some (negative, n) =>
    if 2 ^ 64 ≤ n then .error .outOfRange
    else .ok (if negative then -UInt64.ofNat n else UInt64.ofNat n)

/-! ## Values -/

/-- `variant_to_string`. -/
def variantToString (formatDouble : Float → Str) : Variant → Except Fault Str
  | .string s => .ok s
  | .int64 n => .ok (formatInteger n.toInt)
  | .uint64 n => .ok (formatInteger n.toNat)
  | .double x => .ok (formatDouble x)
  | .bool b => .ok (if b then lit "true" else lit "false")
  | .bytes _ => .error (.runtimeError (lit "Not implemented"))

/-- `variant_from_string`. -/
def variantFromString (stod : Str → Except Fault Float) (type : ValueType) (data : Str) :
    Except Fault Variant :=
  match type with
  | .string => .ok (.string data)
  | .integer => (stoll data).map .int64
  | .unsignedInteger => (stoull data).map .uint64
  | .float => (stod data).map .double
  | .bool => .ok (.bool (data = lit "true"))
  | .bytes => .ok (.string data)
  | .undefined => .ok (.string (lit "Unsupported type"))

/-- A string, an integer or a `bool`. -/
def Variant.Textual : Variant → Prop
  | .string _ | .int64 _ | .uint64 _ | .bool _ => True
  | .double _ | .bytes _ => False

section Text

variable {n : Nat} {c : UInt8} {s : Str}

/-- The first character of a number is no blank, no sign and no zero. -/
theorem digitChar_nonzero : ∀ d < 10, 0 < d → isSpace (digitChar d) = false ∧
    digitChar d ≠ 0x2D ∧ digitChar d ≠ 0x2B ∧ digitChar d ≠ 0x30 := by decide

theorem takeSign_of_ne (h1 : c ≠ 0x2D) (h2 : c ≠ 0x2B) : takeSign (c :: s) = (false, c :: s) := by
  unfold takeSign
  split
  · rename_i h
    exact absurd (List.cons.inj h).1 h1
  · rename_i h
    exact absurd (List.cons.inj h).1 h2
  · rfl

theorem detectBase_of_ne (h : c ≠ 0x30) : detectBase (c :: s) = (10, c :: s) := by
  unfold detectBase
  split
  · rename_i h'
    exact absurd (List.cons.inj h').1 h
  · rename_i h'
    exact absurd (List.cons.inj h').1 h
  · rfl

/-- **The base.** A decimal number is read as one: only zero is taken for an octal one. -/
theorem detectBase_numeral (n : Nat) : ∃ base, detectBase (numeral 10 n) = (base, numeral 10 n) ∧
    digits base (numeral 10 n) ≠ [] ∧ value base (digits base (numeral 10 n)) = n := by
  by_cases hn : n = 0
  · subst hn
    exact ⟨8, rfl, by decide, by decide⟩
  · have h10 : 1 < 10 := by decide
    have hdigits := digits_numeral h10 (by decide) hn
    obtain ⟨d, ds, hcons, hpos, hlt⟩ := numeral_eq_cons h10 hn
    refine ⟨10, ?_, ?_, value_digits_numeral h10 (by decide) n⟩
    · rw [hcons]
      exact detectBase_of_ne (digitChar_nonzero d hlt hpos).2.2.2
    · rw [hdigits]
      exact fun h => Nat.digits_ne_nil_iff_ne_zero.mpr hn (List.reverse_eq_nil_iff.mp h)

example : stoll (lit "-010") = .ok (-8) ∧ stoull (lit "0x10") = .ok 16 := by decide

/-- A decimal number starts with no blank and no sign. -/
theorem numeral_start (n : Nat) : ∃ c s, numeral 10 n = c :: s ∧ isSpace c = false ∧
    c ≠ 0x2D ∧ c ≠ 0x2B := by
  by_cases hn : n = 0
  · subst hn
    exact ⟨0x30, [], rfl, by decide⟩
  · have h10 : 1 < 10 := by decide
    obtain ⟨d, ds, hcons, hpos, hlt⟩ := numeral_eq_cons h10 hn
    obtain ⟨h1, h2, h3, -⟩ := digitChar_nonzero d hlt hpos
    exact ⟨digitChar d, ds, hcons, h1, h2, h3⟩

/-- After the sign, the number is read to its end. -/
theorem scanInteger_eq {negative : Bool}
    (h : takeSign (s.dropWhile isSpace) = (negative, numeral 10 n)) :
    scanInteger s = some (negative, n) := by
  obtain ⟨base, hbase, hne, hvalue⟩ := detectBase_numeral n
  simp only [scanInteger, h, hbase, hvalue]

theorem scanInteger_format (z : Int) :
    scanInteger (formatInteger z) = some (decide (z < 0), z.natAbs) := by
  apply scanInteger_eq
  unfold formatInteger
  by_cases hz : z < 0
  · rw [if_pos hz, decide_eq_true hz]
    rfl
  · obtain ⟨c, s, hcons, hblank, hminus, hplus⟩ := numeral_start z.natAbs
    rw [if_neg hz, decide_eq_false hz, hcons, List.dropWhile_cons_of_neg (by simp [hblank]),
      takeSign_of_ne hminus hplus]

/-- **Signed integers**, to both ends of the range. -/
theorem stoll_format (n : Int64) : stoll (formatInteger n.toInt) = .ok n := by
  have hlo := n.le_toInt
  have hhi := n.toInt_lt
  have hsign : (if decide (n.toInt < 0) then -(n.toInt.natAbs : Int) else n.toInt.natAbs) =
      n.toInt := by
    by_cases hz : n.toInt < 0
    · rw [decide_eq_true hz, if_pos rfl]
      omega
    · rw [decide_eq_false hz, if_neg Bool.false_ne_true]
      omega
  rw [stoll, scanInteger_format]
  simp only [hsign]
  rw [if_neg (by omega), Int64.ofInt_toInt]

/-- **Unsigned integers**, to the end of the range. -/
theorem stoull_format (n : UInt64) : stoull (formatInteger n.toNat) = .ok n := by
  have hlt := n.toNat_lt
  have hpos : ¬ (n.toNat : Int) < 0 := by omega
  rw [stoull, scanInteger_format, decide_eq_false hpos]
  simp only [Int.natAbs_natCast]
  rw [if_neg (by omega), if_neg Bool.false_ne_true, UInt64.ofNat_toNat]

/-- **Values come back from their texts.** -/
theorem variant_text_round_trip {v : Variant} (hv : v.Textual) (formatDouble : Float → Str)
    (stod : Str → Except Fault Float) : ∃ text, variantToString formatDouble v = .ok text ∧
      variantFromString stod (typeFromIndex v.index) text = .ok v := by
  cases v with
  | string s => exact ⟨s, rfl, rfl⟩
  | int64 n =>
    refine ⟨_, rfl, ?_⟩
    show (stoll (formatInteger n.toInt)).map Variant.int64 = _
    rw [stoll_format]
    rfl
  | uint64 n =>
    refine ⟨_, rfl, ?_⟩
    show (stoull (formatInteger n.toNat)).map Variant.uint64 = _
    rw [stoull_format]
    rfl
  | bool b =>
    refine ⟨_, rfl, ?_⟩
    cases b <;> rfl
  | double x => exact hv.elim
  | bytes b => exact hv.elim

/-- The least number of 64 bits. -/
theorem variant_text_round_trip_least : ∃ text,
    variantToString (fun _ => lit "nan") (.int64 Int64.minValue) = .ok text ∧
      variantFromString (fun _ => .error .invalidArgument) .integer text =
        .ok (.int64 Int64.minValue) :=
  variant_text_round_trip (v := .int64 Int64.minValue) trivial _ _

end Text

end Protos

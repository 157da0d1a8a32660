import ProtoTools.Common.Basic

/-!
# Values (`interpretation/GenericTypes.hpp`, `TypeFormatter.hpp`)

* `ValueType` is `protos::value::Type`, `Variant` is `protos::value::Variant`.
* `convertInteger`, …: the specialisations of `convert`, on a little-endian host; `asVariant` is
  `as_variant`. `quiet_NaN` of an integer type is 0.
* `asVariant_error`: a conversion without a value has no meaning at all.
* `asVariant_integer`, `asVariant_unsignedInteger`: the low bytes of a number that fits are
  converted back to the number.
-/

namespace Protos

/-- `protos::value::Type`. -/
inductive ValueType where
  | undefined | string | integer | unsignedInteger | float | bytes | bool
  deriving DecidableEq, Repr

/-- `protos::value::Variant`. -/
inductive Variant where
  | string (s : Str)
  | int64 (n : Int64)
  | uint64 (n : UInt64)
  | double (x : Float)
  | bool (b : Bool)
  | bytes (b : Bytes)

/-- `Variant::index`. -/
def Variant.index : Variant → Nat
  | .string _ => 0
  | .int64 _ => 1
  | .uint64 _ => 2
  | .double _ => 3
  | .bool _ => 4
  | .bytes _ => 5

/-- `type_index`: -1 as a `size_t` for `UNDEFINED`. -/
def typeIndex : ValueType → Nat
  | .undefined => 2 ^ 64 - 1
  | .string => 0
  | .integer => 1
  | .unsignedInteger => 2
  | .float => 3
  | .bytes => 5
  | .bool => 4

/-- `type_from_index`. -/
def typeFromIndex : Nat → ValueType
  | 0 => .string
  | 1 => .integer
  | 2 => .unsignedInteger
  | 3 => .float
  | 4 => .bool
  | 5 => .bytes
  | _ => .undefined

/-- `convert<Type::INTEGER>`. -/
def convertInteger (data : Bytes) : Int64 :=
  match data.length with
  | 1 | 2 | 4 | 8 => Int64.ofInt (LittleEndian.toInt data)
  | _ => 0

/-- `convert<Type::UNSIGNED_INTEGER>`. -/
def convertUnsignedInteger (data : Bytes) : UInt64 :=
  match data.length with
  | 1 | 2 | 4 | 8 => UInt64.ofNat (LittleEndian.toNat data)
  | _ => 0

/-- `convert<Type::FLOAT>`. -/
def convertFloat (data : Bytes) : Float :=
  match data.length with
  | 4 => (Float32.ofBits (UInt32.ofNat (LittleEndian.toNat data))).toFloat
  | 8 => Float.ofBits (UInt64.ofNat (LittleEndian.toNat data))
  | _ => Float.ofBits 0x7FF8000000000000

/-- `convert<Type::BOOL>`: the first byte is read as a `bool`. -/
def convertBool : Bytes → Except Fault Bool
  | [] => .error (.undefined .readOutside)
  | 0 :: _ => .ok false
  | 1 :: _ => .ok true
  | _ => .error (.undefined .notABool)

/-- `as_variant`. -/
def asVariant (type : ValueType) (data : Bytes) : Except Fault Variant :=
  match type with
  | .string => .ok (.string data)
  | .integer => .ok (.int64 (convertInteger data))
  | .unsignedInteger => .ok (.uint64 (convertUnsignedInteger data))
  | .float => .ok (.double (convertFloat data))
  | .bool => (convertBool data).map .bool
  | .bytes => .ok (.bytes data)
  | .undefined => .ok (.string (lit "Unsupported type"))

theorem convertBool_cons (b : UInt8) (bs : Bytes) :
    convertBool (b :: bs) = if b = 0 then .ok false else if b = 1 then .ok true
      else .error (.undefined .notABool) := by
  unfold convertBool
  split <;> simp_all

/-- A conversion fails in no way that can be caught. -/
theorem asVariant_error {type : ValueType} {data : Bytes} {e : Fault}
    (h : asVariant type data = .error e) : ∃ u, e = .undefined u := by
  cases type with
  | bool =>
    cases data with
    | nil =>
      cases h
      exact ⟨_, rfl⟩
    | cons b bs =>
      rw [asVariant, convertBool_cons] at h
      split at h
      · cases h
      · split at h <;> cases h
        exact ⟨_, rfl⟩
  | _ => cases h

/-- The widths of a number. -/
def NumberWidth (w : Nat) : Prop := w = 1 ∨ w = 2 ∨ w = 4 ∨ w = 8

theorem convertInteger_of_width {data : Bytes} (hw : NumberWidth data.length) :
    convertInteger data = Int64.ofInt (LittleEndian.toInt data) := by
  unfold convertInteger
  rcases hw with h | h | h | h <;> simp only [h]

theorem convertUnsignedInteger_of_width {data : Bytes} (hw : NumberWidth data.length) :
    convertUnsignedInteger data = UInt64.ofNat (LittleEndian.toNat data) := by
  unfold convertUnsignedInteger
  rcases hw with h | h | h | h <;> simp only [h]

/-- The low bytes of a signed number of their width are converted back to it. -/
theorem asVariant_integer {w : Nat} {z : Int} (hw : NumberWidth w)
    (hlo : -(256 ^ w : Int) ≤ 2 * z) (hhi : 2 * z < 256 ^ w) :
    asVariant .integer (LittleEndian.ofInt w z) = .ok (.int64 (Int64.ofInt z)) := by
  have hlen : NumberWidth (LittleEndian.ofInt w z).length := by rwa [LittleEndian.length_ofInt]
  rw [asVariant, convertInteger_of_width hlen, LittleEndian.toInt_ofInt hlo hhi]

/-- The low bytes of an unsigned number of their width are converted back to it. -/
theorem asVariant_unsignedInteger {w : Nat} {z : Int} (hw : NumberWidth w) (h0 : 0 ≤ z)
    (hhi : z < 256 ^ w) : asVariant .unsignedInteger (LittleEndian.ofInt w z) =
      .ok (.uint64 (UInt64.ofNat z.toNat)) := by
  have hlen : NumberWidth (LittleEndian.ofInt w z).length := by rwa [LittleEndian.length_ofInt]
  have hn : LittleEndian.toNat (LittleEndian.ofInt w z) = z.toNat := by
    have := LittleEndian.toNat_ofInt_of_lt h0 hhi
    omega
  rw [asVariant, convertUnsignedInteger_of_width hlen, hn]

end Protos

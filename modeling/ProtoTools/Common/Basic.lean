import ProtoTools.Lib.LittleEndian

/-!
# Bytes, strings, failures and `protos::bytes` (`common/BitUtils.hpp`)

* `Bytes` is `std::vector<std::byte>` and `std::span<std::byte>`; `Str` is `std::string`, a
  sequence of bytes. `lit` is the string of a literal of the source.
* `Fault`: how a call ends when it does not return. `undefined` is a step that C++ gives no
  meaning (`Undefined`), so nothing is known of the program after it; the others are exceptions.
* `toNumber`, `toBytes`: the conversions of `BitUtils.hpp`. The host is little endian, so the bytes
  of a number in memory are `LittleEndian.ofInt`.
-/

namespace Protos

abbrev Bytes := List UInt8

abbrev Str := List UInt8

/-- The bytes of a literal of the source. -/
def lit (s : String) : Str := s.toUTF8.data.toList

/-- The steps without a meaning in C++ that the modelled code can reach. -/
inductive Undefined where
  /-- `front()` of an empty container. -/
  | frontOfEmpty
  /-- `erase` of elements that are not there. -/
  | eraseOutside
  /-- Iterators outside their span. -/
  | sliceOutside
  /-- Overflow of an `int`. -/
  | intOverflow
  /-- A read outside the bytes of a field. -/
  | readOutside
  /-- `bit_cast` of a byte that is no `bool`. -/
  | notABool
  deriving DecidableEq, Repr

inductive Fault where
  /-- `std::runtime_error` with its `what()`. -/
  | runtimeError (what : Str)
  /-- `std::bad_function_call`: a call of an empty `std::function`. -/
  | badFunctionCall
  /-- `zmq::error_t` with `EFSM`: the socket is in the wrong state for the operation. -/
  | efsm
  /-- `nlohmann::json::exception` with its `id`. -/
  | jsonError (id : Nat)
  /-- `std::invalid_argument`: a text without a number. -/
  | invalidArgument
  /-- `std::out_of_range`: a number that the type does not have. -/
  | outOfRange
  | undefined (u : Undefined)
  deriving DecidableEq, Repr

/-- The call threw: an exception that a caller can catch. -/
def Fault.isThrow : Fault → Bool
  | .runtimeError _ | .badFunctionCall | .efsm | .jsonError _ | .invalidArgument
  | .outOfRange => true
  | .undefined _ => false

/-! ## `protos::bytes` -/

/-- `to_number<T>` for the unsigned `T` of `width` bytes. -/
def toNumber (width : Nat) (container : Bytes) : Except Fault Nat :=
  if container.length ≠ width then .error (.runtimeError (lit "Invalid size"))
  else .ok (LittleEndian.toNat container)

/-- `to_bytes<T>(value, width)` for an integer type `T` of `sizeofT` bytes: `memcpy` of the first
`width` bytes of `value`. -/
def toBytes (sizeofT : Nat) (value : Int) (width : Nat) : Except Fault Bytes :=
  if sizeofT < width then .error (.runtimeError (lit "Width exceeds size of type"))
  else .ok ((LittleEndian.ofInt sizeofT value).take width)

theorem toNumber_of_length {width : Nat} {v : Bytes} (h : v.length = width) :
    toNumber width v = .ok (LittleEndian.toNat v) := by
  simp [toNumber, h]

theorem toBytes_of_le {sizeofT width : Nat} (h : width ≤ sizeofT) (z : Int) :
    toBytes sizeofT z width = .ok (LittleEndian.ofInt width z) := by
  rw [toBytes, if_neg (by omega), LittleEndian.take_ofInt h]

end Protos

import ProtoTools.Common.Basic

/-!
# JSON values, as the services use them

* `Json`: a value of `nlohmann::json`. `stringOf`, `stringAt` are the accesses that the services
  make, with the exceptions that the library documents; `HasStrings` is when they find a string.
* `Json.validUtf8`: every string of the value is well-formed UTF-8. The parser gives only such
  values, and the serializer throws on every other one.
* `Json.compact`: the text of a value, as the serializer writes it without indentation.
-/

namespace Protos

/-- A value of `nlohmann::json`; the members of an object are in the order of their keys. -/
inductive Json where
  | null
  | boolean (b : Bool)
  | integer (n : Int)
  | float (x : Float)
  | string (s : Str)
  | array (elements : List Json)
  | object (members : List (Str × Json))

/-! ## UTF-8 -/

/-- A continuation byte. -/
def isContinuation (b : UInt8) : Bool := 0x80 ≤ b && b ≤ 0xBF

/-- Well-formed UTF-8: no overlong form, no surrogate, nothing above `0x10FFFF`. -/
def validUtf8 : Str → Bool
  | [] => true
  | a :: s =>
    if a ≤ 0x7F then validUtf8 s
    else
      match s with
      | [] => false
      | b :: s =>
        if 0xC2 ≤ a && a ≤ 0xDF then isContinuation b && validUtf8 s
        else
          match s with
          | [] => false
          | c :: s =>
            if 0xE0 ≤ a && a ≤ 0xEF then
              isContinuation b && (a != 0xE0 || 0xA0 ≤ b) && (a != 0xED || b ≤ 0x9F) &&
                isContinuation c && validUtf8 s
            else
              match s with
              | [] => false
              | d :: s =>
                0xF0 ≤ a && a ≤ 0xF4 && isContinuation b && (a != 0xF0 || 0x90 ≤ b) &&
                  (a != 0xF4 || b ≤ 0x8F) && isContinuation c && isContinuation d && validUtf8 s

namespace Json

mutual

/-- Every string of the value is well-formed. -/
def validUtf8 : Json → Bool
  | .string s => Protos.validUtf8 s
  | .array elements => validElements elements
  | .object members => validMembers members
  | _ => true

def validElements : List Json → Bool
  | [] => true
  | j :: js => j.validUtf8 && validElements js

def validMembers : List (Str × Json) → Bool
  | [] => true
  | (key, j) :: members => Protos.validUtf8 key && j.validUtf8 && validMembers members

end

/-! ## Access -/

/-- `operator[]` with a key: a missing member is a null. -/
def subscript (j : Json) (key : Str) : Except Fault Json :=
  match j with
  | .object members => .ok ((members.lookup key).getD .null)
  | .null => .ok .null
  | _ => .error (.jsonError 305)

/-- `at` with a key. -/
def at' (j : Json) (key : Str) : Except Fault Json :=
  match j with
  | .object members =>
    match members.lookup key with
    | some value => .ok value
    | none => .error (.jsonError 403)
  | _ => .error (.jsonError 304)

/-- `get<std::string>`. -/
def getString (j : Json) : Except Fault Str :=
  match j with
  | .string s => .ok s
  | _ => .error (.jsonError 302)

/-- `operator[]` with a key, then `get<std::string>`. -/
def stringOf (j : Json) (key : Str) : Except Fault Str := do (← j.subscript key).getString

/-- `at` with a key, then `get_to` a string. -/
def stringAt (j : Json) (key : Str) : Except Fault Str := do (← j.at' key).getString

/-- The value is an object with a string under each of the keys. -/
def HasStrings (j : Json) (keys : List Str) : Prop :=
  ∃ members, j = .object members ∧ ∀ key ∈ keys, ∃ s, members.lookup key = some (.string s)

/-! ## Text -/

/-- A character of a string. -/
def escape (b : UInt8) : Str :=
  if b = 0x22 then lit "\\\""
  else if b = 0x5C then lit "\\\\"
  else if b = 0x08 then lit "\\b"
  else if b = 0x0C then lit "\\f"
  else if b = 0x0A then lit "\\n"
  else if b = 0x0D then lit "\\r"
  else if b = 0x09 then lit "\\t"
  else if b ≤ 0x1F then
    lit "\\u00" ++ [if b < 0x10 then 0x30 else 0x31,
      if b % 16 < 10 then 0x30 + b % 16 else 0x57 + b % 16]
  else [b]

def quote (s : Str) : Str := lit "\"" ++ s.flatMap escape ++ lit "\""

mutual

/-- The text of a value, without blanks. -/
def compact : Json → Str
  | .null => lit "null"
  | .boolean b => if b then lit "true" else lit "false"
  | .integer n => lit (toString n)
  | .float x => lit (toString x)
  | .string s => quote s
  | .array elements => lit "[" ++ compactElements elements ++ lit "]"
  | .object members => lit "\x7b" ++ compactMembers members ++ lit "\x7d"

def compactElements : List Json → Str
  | [] => []
  | [j] => j.compact
  | j :: js => j.compact ++ lit "," ++ compactElements js

def compactMembers : List (Str × Json) → Str
  | [] => []
  | [(key, j)] => quote key ++ lit ":" ++ j.compact
  | (key, j) :: members => quote key ++ lit ":" ++ j.compact ++ lit "," ++ compactMembers members

end

/-! ## Lemmas -/

theorem validElements_iff {js : List Json} :
    validElements js = true ↔ ∀ j ∈ js, j.validUtf8 = true := by
  induction js with
  | nil => simp [validElements]
  | cons j js ih => simp [validElements, ih]

theorem validMembers_iff {members : List (Str × Json)} : validMembers members = true ↔
    ∀ m ∈ members, Protos.validUtf8 m.1 = true ∧ m.2.validUtf8 = true := by
  induction members with
  | nil => simp [validMembers]
  | cons m members ih =>
    obtain ⟨key, j⟩ := m
    simp [validMembers, ih]

theorem mem_of_lookup {members : List (Str × Json)} {key : Str} {j : Json}
    (h : members.lookup key = some j) : ∃ m ∈ members, m.2 = j := by
  induction members with
  | nil => simp at h
  | cons m members ih =>
    rw [List.lookup_cons] at h
    split at h
    · cases h
      exact ⟨m, .head _, rfl⟩
    · obtain ⟨m', hm, he⟩ := ih h
      exact ⟨m', .tail _ hm, he⟩

theorem getString_ok {j : Json} {s : Str} : j.getString = .ok s ↔ j = .string s := by
  cases j <;> simp [getString]

/-- Both accesses find the string of an object, and nothing else. -/
theorem stringOf_ok {j : Json} {key s : Str} :
    j.stringOf key = .ok s ↔ ∃ members, j = .object members ∧
      members.lookup key = some (.string s) := by
  cases j with
  | object members =>
    cases hl : members.lookup key with
    | none => simp [stringOf, subscript, hl, getString, Bind.bind, Except.bind]
    | some value => simp [stringOf, subscript, hl, getString_ok, Bind.bind, Except.bind]
  | _ => simp [stringOf, subscript, getString, Bind.bind, Except.bind]

theorem stringAt_ok {j : Json} {key s : Str} :
    j.stringAt key = .ok s ↔ ∃ members, j = .object members ∧
      members.lookup key = some (.string s) := by
  cases j with
  | object members =>
    cases hl : members.lookup key with
    | none => simp [stringAt, at', hl, Bind.bind, Except.bind]
    | some value => simp [stringAt, at', hl, getString_ok, Bind.bind, Except.bind]
  | _ => simp [stringAt, at', Bind.bind, Except.bind]

/-- A string member of a well-formed value is well formed. -/
theorem validUtf8_of_lookup {members : List (Str × Json)} {key s : Str}
    (hv : (Json.object members).validUtf8 = true) (h : members.lookup key = some (.string s)) :
    Protos.validUtf8 s = true := by
  rw [validUtf8] at hv
  obtain ⟨m, hm, he⟩ := mem_of_lookup h
  have := (validMembers_iff.mp hv m hm).2
  rw [he] at this
  simpa [validUtf8] using this

end Json

end Protos

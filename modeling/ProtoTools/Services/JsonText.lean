import ProtoTools.Lib.Separated
import ProtoTools.Services.Json

/-!
# The text of JSON values

A parser of the compact text of values without numbers.

* `unescape`: the characters of a string, up to its closing quote (`unescape_quote`).
* `parseValue`: a value and the rest of the text. `parseValue_compact`: it reads what `compact`
  writes.
* `parse_compact`: so does the parser of a whole text.
-/

namespace Protos

namespace Json

open Separated

/-- A value without numbers; an object has each key once, in ascending order. -/
inductive Textual : Json → Prop
  | null : Textual .null
  | boolean (b : Bool) : Textual (.boolean b)
  | string (s : Str) : Textual (.string s)
  | array (elements : List Json) : (∀ j ∈ elements, Textual j) → Textual (.array elements)
  | object (members : List (Str × Json)) : (∀ m ∈ members, Textual m.2) →
      (members.map (·.1)).Pairwise (· < ·) → Textual (.object members)

/-! ## Strings -/

/-- The character after a backslash. -/
def unescaped (b : UInt8) : Option UInt8 :=
  if b = 0x22 then some 0x22
  else if b = 0x5C then some 0x5C
  else if b = 0x62 then some 0x08
  else if b = 0x66 then some 0x0C
  else if b = 0x6E then some 0x0A
  else if b = 0x72 then some 0x0D
  else if b = 0x74 then some 0x09
  else none

/-- A hexadecimal digit. -/
def hexDigit (b : UInt8) : Option UInt8 :=
  if 0x30 ≤ b && b ≤ 0x39 then some (b - 0x30)
  else if 0x61 ≤ b && b ≤ 0x66 then some (b - 0x57)
  else none

/-- The character with these two last digits of four. -/
def hexPair (high low : UInt8) : Option UInt8 := do
  let high ← hexDigit high
  let low ← hexDigit low
  return 16 * high + low

/-- A character after `\\u`, below `0x100`. -/
def readHex : Str → Option (UInt8 × Str)
  | a :: b :: high :: low :: text =>
    if a = 0x30 ∧ b = 0x30 then (hexPair high low).map (·, text) else none
  | _ => none

/-- A character of a string, and the rest of the text. -/
def readChar : Str → Option (UInt8 × Str)
  | [] => none
  | [b] => if b = 0x5C then none else some (b, [])
  | b :: c :: text =>
    if b = 0x5C then if c = 0x75 then readHex text else (unescaped c).map (·, text)
    else some (b, c :: text)

/-- A string up to its closing quote, and the rest of the text; the number bounds its length. -/
def unescape : Nat → Str → Option (Str × Str)
  | 0, _ => none
  | _, [] => none
  | n + 1, b :: text =>
    if b = 0x22 then some ([], text)
    else
      match readChar (b :: text) with
      | none => none
      | some (c, text) => (unescape n text).map fun r => (c :: r.1, r.2)

theorem hexPair_control : ∀ n < 32, hexPair (if UInt8.ofNat n < 0x10 then 0x30 else 0x31)
    (if UInt8.ofNat n % 16 < 10 then 0x30 + UInt8.ofNat n % 16 else 0x57 + UInt8.ofNat n % 16) =
      some (UInt8.ofNat n) := by decide

theorem readChar_backslash {c b : UInt8} (hc : c ≠ 0x75) (hb : unescaped c = some b) (text : Str) :
    readChar (0x5C :: c :: text) = some (b, text) := by
  rw [readChar, if_pos rfl, if_neg hc, hb]
  rfl

theorem readChar_hex {high low b : UInt8} (hb : hexPair high low = some b) (text : Str) :
    readChar (0x5C :: 0x75 :: 0x30 :: 0x30 :: high :: low :: text) = some (b, text) := by
  rw [readChar, if_pos rfl, if_pos rfl, readHex, if_pos ⟨rfl, rfl⟩, hb]
  rfl

theorem readChar_plain {b : UInt8} (hb : b ≠ 0x5C) (text : Str) :
    readChar (b :: text) = some (b, text) := by
  cases text <;> rw [readChar, if_neg hb]

/-- How the serializer writes a character: after a backslash, by its number, or as it is. -/
theorem escape_cases (b : UInt8) :
    (∃ c, c ≠ 0x75 ∧ unescaped c = some b ∧ escape b = [0x5C, c]) ∨
      (∃ high low, hexPair high low = some b ∧
        escape b = [0x5C, 0x75, 0x30, 0x30, high, low]) ∨
      b ≠ 0x22 ∧ b ≠ 0x5C ∧ escape b = [b] := by
  by_cases h1 : b = 0x22
  · exact .inl ⟨0x22, by decide, by rw [h1]; rfl, by rw [h1]; rfl⟩
  by_cases h2 : b = 0x5C
  · exact .inl ⟨0x5C, by decide, by rw [h2]; rfl, by rw [h2]; rfl⟩
  by_cases h3 : b = 0x08
  · exact .inl ⟨0x62, by decide, by rw [h3]; rfl, by rw [h3]; rfl⟩
  by_cases h4 : b = 0x0C
  · exact .inl ⟨0x66, by decide, by rw [h4]; rfl, by rw [h4]; rfl⟩
  by_cases h5 : b = 0x0A
  · exact .inl ⟨0x6E, by decide, by rw [h5]; rfl, by rw [h5]; rfl⟩
  by_cases h6 : b = 0x0D
  · exact .inl ⟨0x72, by decide, by rw [h6]; rfl, by rw [h6]; rfl⟩
  by_cases h7 : b = 0x09
  · exact .inl ⟨0x74, by decide, by rw [h7]; rfl, by rw [h7]; rfl⟩
  rw [escape, if_neg h1, if_neg h2, if_neg h3, if_neg h4, if_neg h5, if_neg h6, if_neg h7]
  by_cases hle : b ≤ 0x1F
  · have hpair := hexPair_control b.toNat (Nat.lt_succ_of_le (UInt8.le_iff_toNat_le.mp hle))
    rw [UInt8.ofNat_toNat] at hpair
    exact .inr (.inl ⟨_, _, hpair, by rw [if_pos hle]; rfl⟩)
  · exact .inr (.inr ⟨h1, h2, by rw [if_neg hle]⟩)

/-- A character of a string, as the serializer writes it. -/
theorem readChar_escape (b : UInt8) (text : Str) :
    readChar (escape b ++ text) = some (b, text) := by
  rcases escape_cases b with ⟨c, hc, hb, he⟩ | ⟨high, low, hb, he⟩ | ⟨-, hb, he⟩
  · rw [he]
    exact readChar_backslash hc hb text
  · rw [he]
    exact readChar_hex hb text
  · rw [he]
    exact readChar_plain hb text

/-- No character begins with a quote. -/
theorem escape_eq_cons (b : UInt8) : ∃ c text, escape b = c :: text ∧ c ≠ 0x22 := by
  rcases escape_cases b with ⟨c, -, -, he⟩ | ⟨high, low, -, he⟩ | ⟨hb, -, he⟩
  · exact ⟨_, _, he, by decide⟩
  · exact ⟨_, _, he, by decide⟩
  · exact ⟨_, _, he, hb⟩

/-- The closing quote ends the string. -/
theorem unescape_flatMap {n : Nat} {s : Str} (hn : s.length < n) (text : Str) :
    unescape n (s.flatMap escape ++ 0x22 :: text) = some (s, text) := by
  induction s generalizing n with
  | nil =>
    cases n with
    | zero => cases hn
    | succ n => exact if_pos rfl
  | cons b s ih =>
    cases n with
    | zero => cases hn
    | succ n =>
      obtain ⟨c, more, hc, hne⟩ := escape_eq_cons b
      have hread := readChar_escape b (s.flatMap escape ++ 0x22 :: text)
      rw [hc, List.cons_append] at hread
      rw [List.flatMap_cons, List.append_assoc, hc, List.cons_append, unescape, if_neg hne, hread]
      simp [ih (Nat.lt_of_succ_lt_succ hn)]

theorem length_le_flatMap (s : Str) : s.length ≤ (s.flatMap escape).length := by
  induction s with
  | nil => exact Nat.le_refl _
  | cons b s ih =>
    obtain ⟨c, more, hc, -⟩ := escape_eq_cons b
    simp only [List.flatMap_cons, hc, List.length_append, List.length_cons]
    omega

/-! ## Values -/

/-- A string, from its opening quote on. -/
def parseString (n : Nat) : Str → Option (Str × Str)
  | [] => none
  | b :: text => if b = 0x22 then unescape n text else none

/-- A member of an object, with the parser of its value. -/
def parseMember (n : Nat) (value : Str → Option (Json × Str)) (text : Str) :
    Option ((Str × Json) × Str) :=
  match parseString n text with
  | some (key, b :: text) =>
    if b = 0x3A then (value text).map fun r => ((key, r.1), r.2) else none
  | _ => none

/-- A word of the grammar, for a value. -/
def parseWord (word : Str) (j : Json) (text : Str) : Option (Json × Str) :=
  if word.isPrefixOf text then some (j, text.drop word.length) else none

/-- A value and the rest of the text; the number bounds the nesting and the lengths. -/
def parseValue : Nat → Str → Option (Json × Str)
  | 0, _ => none
  | _, [] => none
  | n + 1, b :: text =>
    if b = 0x22 then (unescape n text).map fun r => (.string r.1, r.2)
    else if b = 0x5B then
      (bracketed (parseValue n) 0x2C 0x5D n text).map fun r => (.array r.1, r.2)
    else if b = 0x7B then
      (bracketed (parseMember n (parseValue n)) 0x2C 0x7D n text).map fun r => (.object r.1, r.2)
    else (parseWord (lit "null") .null (b :: text)).or
      ((parseWord (lit "true") (.boolean true) (b :: text)).or
        (parseWord (lit "false") (.boolean false) (b :: text)))

/-- The text of a member. -/
def compactMember (m : Str × Json) : Str := quote m.1 ++ lit ":" ++ m.2.compact

theorem compactElements_eq (js : List Json) : compactElements js = join compact 0x2C js := by
  induction js with
  | nil => rfl
  | cons j js ih =>
    cases js with
    | nil => rfl
    | cons j' js =>
      rw [compactElements, join, ih, List.append_assoc]
      · rfl
      · simp

theorem compactMembers_eq (members : List (Str × Json)) :
    compactMembers members = join compactMember 0x2C members := by
  induction members with
  | nil => rfl
  | cons m members ih =>
    obtain ⟨key, j⟩ := m
    cases members with
    | nil => rfl
    | cons m' members =>
      rw [compactMembers, join, ih, List.append_assoc]
      · rfl
      · simp

theorem quote_append (s text : Str) :
    quote s ++ text = 0x22 :: (s.flatMap escape ++ 0x22 :: text) := by
  have hquote : lit "\"" = [0x22] := by decide
  simp [quote, hquote]

theorem length_quote (s : Str) : s.length + 2 ≤ (quote s).length := by
  have := length_le_flatMap s
  have hlength : (quote s).length = (s.flatMap escape).length + 2 := by
    have := congrArg List.length (quote_append s [])
    simpa using this
  omega

theorem parseString_quote {n : Nat} {s : Str} (hn : s.length < n) (text : Str) :
    parseString n (quote s ++ text) = some (s, text) := by
  rw [quote_append, parseString, if_pos rfl, unescape_flatMap hn]

theorem parseMember_compact {n : Nat} {value : Str → Option (Json × Str)} {m : Str × Json}
    (hn : m.1.length < n) (hvalue : ∀ text, value (m.2.compact ++ text) = some (m.2, text))
    (text : Str) : parseMember n value (compactMember m ++ text) = some (m, text) := by
  have hcolon : lit ":" = [0x3A] := by decide
  unfold parseMember compactMember
  rw [List.append_assoc, List.append_assoc, parseString_quote hn, hcolon]
  simp [hvalue]

/-- A value begins with none of the characters that close a list. -/
theorem compact_eq_cons {j : Json} (hj : Textual j) :
    ∃ b text, j.compact = b :: text ∧ b ≠ 0x5D := by
  cases hj with
  | null => exact ⟨_, _, rfl, by decide⟩
  | boolean b => cases b <;> exact ⟨_, _, rfl, by decide⟩
  | string s => exact ⟨_, _, by rw [compact, ← List.append_nil (quote s), quote_append], by decide⟩
  | array elements h => exact ⟨_, _, rfl, by decide⟩
  | object members h hkeys => exact ⟨_, _, rfl, by decide⟩

theorem parseValue_array (n : Nat) (text : Str) : parseValue (n + 1) (0x5B :: text) =
    (bracketed (parseValue n) 0x2C 0x5D n text).map fun r => (.array r.1, r.2) := by
  rw [parseValue, if_neg (by decide), if_pos rfl]

theorem parseValue_object (n : Nat) (text : Str) : parseValue (n + 1) (0x7B :: text) =
    (bracketed (parseMember n (parseValue n)) 0x2C 0x7D n text).map
      fun r => (.object r.1, r.2) := by
  rw [parseValue, if_neg (by decide), if_neg (by decide), if_pos rfl]

theorem compact_array (elements : List Json) :
    (Json.array elements).compact = 0x5B :: (join compact 0x2C elements ++ [0x5D]) := by
  rw [compact, compactElements_eq]
  rfl

theorem compact_object (members : List (Str × Json)) :
    (Json.object members).compact = 0x7B :: (join compactMember 0x2C members ++ [0x7D]) := by
  rw [compact, compactMembers_eq]
  rfl

/-- A member begins with its quote, and is longer than its two parts. -/
theorem compactMember_eq_cons (m : Str × Json) : ∃ text, compactMember m = 0x22 :: text ∧
    m.1.length + m.2.compact.length ≤ text.length := by
  refine ⟨m.1.flatMap escape ++ 0x22 :: (lit ":" ++ m.2.compact), ?_, ?_⟩
  · rw [compactMember, List.append_assoc, quote_append]
  · have := length_le_flatMap m.1
    simp only [List.length_append, List.length_cons]
    omega

theorem length_compact_pos {j : Json} (hj : Textual j) : 0 < j.compact.length := by
  obtain ⟨b, text, hb, -⟩ := compact_eq_cons hj
  rw [hb]
  exact Nat.succ_pos _

/-- An array is read when its elements are. -/
theorem parseValue_compact_array {elements : List Json} (h : ∀ j ∈ elements, Textual j) {n : Nat}
    (hn : (join compact 0x2C elements).length ≤ n)
    (hitem : ∀ j ∈ elements, ∀ rest, parseValue n (j.compact ++ rest) = some (j, rest))
    (text : Str) :
    parseValue (n + 1) ((Json.array elements).compact ++ text) = some (.array elements, text) := by
  have hcount : elements.length ≤ (join compact 0x2C elements).length :=
    length_le_join fun j hj => List.ne_nil_of_length_pos (length_compact_pos (h j hj))
  have hclose : ∀ j ∈ elements, ∃ b text, j.compact = b :: text ∧ b ≠ 0x5D := fun j hj =>
    compact_eq_cons (h j hj)
  rw [compact_array, List.cons_append, List.append_assoc, List.singleton_append,
    parseValue_array, bracketed_join (by decide) hitem hclose (Nat.le_trans hcount hn)]
  rfl

/-- An object is read when the values of its members are. -/
theorem parseValue_compact_object {members : List (Str × Json)} {n : Nat}
    (hn : (join compactMember 0x2C members).length ≤ n)
    (hitem : ∀ m ∈ members, ∀ rest, parseValue n (m.2.compact ++ rest) = some (m.2, rest))
    (text : Str) :
    parseValue (n + 1) ((Json.object members).compact ++ text) = some (.object members, text) := by
  have hcount : members.length ≤ (join compactMember 0x2C members).length := by
    apply length_le_join
    intro m _
    obtain ⟨more, hm, -⟩ := compactMember_eq_cons m
    simp [hm]
  have hmember : ∀ m ∈ members, ∀ rest,
      parseMember n (parseValue n) (compactMember m ++ rest) = some (m, rest) := by
    intro m hm rest
    have hle : (compactMember m).length ≤ (join compactMember 0x2C members).length :=
      length_le_join_of_mem hm
    obtain ⟨more, hcons, hmore⟩ := compactMember_eq_cons m
    rw [hcons, List.length_cons] at hle
    exact parseMember_compact (by omega) (hitem m hm) rest
  have hclose : ∀ m ∈ members, ∃ b text, compactMember m = b :: text ∧ b ≠ 0x7D := by
    intro m _
    obtain ⟨more, hm, -⟩ := compactMember_eq_cons m
    exact ⟨_, _, hm, by decide⟩
  rw [compact_object, List.cons_append, List.append_assoc, List.singleton_append,
    parseValue_object, bracketed_join (by decide) hmember hclose (Nat.le_trans hcount hn)]
  rfl

/-- **The parser reads what the serializer writes.** -/
theorem parseValue_compact {j : Json} (hj : Textual j) {n : Nat} (hn : j.compact.length ≤ n)
    (text : Str) : parseValue n (j.compact ++ text) = some (j, text) := by
  induction hj generalizing n text with
  | null =>
    have hpos := length_compact_pos .null
    obtain ⟨n, rfl⟩ : ∃ m, n = m + 1 := ⟨n - 1, by omega⟩
    rfl
  | boolean b =>
    have hpos := length_compact_pos (.boolean b)
    obtain ⟨n, rfl⟩ : ∃ m, n = m + 1 := ⟨n - 1, by omega⟩
    cases b <;> rfl
  | string s =>
    have := length_quote s
    rw [compact] at hn ⊢
    obtain ⟨n, rfl⟩ : ∃ m, n = m + 1 := ⟨n - 1, by omega⟩
    rw [quote_append, parseValue, if_pos rfl, unescape_flatMap (by omega)]
    rfl
  | array elements h ih =>
    rw [compact_array, List.length_cons, List.length_append, List.length_singleton] at hn
    obtain ⟨n, rfl⟩ : ∃ m, n = m + 1 := ⟨n - 1, by omega⟩
    apply parseValue_compact_array h (by omega)
    intro j hj rest
    have : j.compact.length ≤ (join compact 0x2C elements).length := length_le_join_of_mem hj
    exact ih j hj (by omega) rest
  | object members h hkeys ih =>
    rw [compact_object, List.length_cons, List.length_append, List.length_singleton] at hn
    obtain ⟨n, rfl⟩ : ∃ m, n = m + 1 := ⟨n - 1, by omega⟩
    apply parseValue_compact_object (by omega)
    intro m hm rest
    have hle : (compactMember m).length ≤ (join compactMember 0x2C members).length :=
      length_le_join_of_mem hm
    obtain ⟨more, hcons, hmore⟩ := compactMember_eq_cons m
    rw [hcons, List.length_cons] at hle
    exact ih m hm (by omega) rest

/-! ## Whole texts -/

/-- `parse`: one value and nothing after it, in well-formed UTF-8. -/
def parse (text : Bytes) : Except Fault Json :=
  match parseValue text.length text with
  | some (j, []) => if j.validUtf8 then .ok j else .error (.jsonError 101)
  | _ => .error (.jsonError 101)

theorem parse_compact {j : Json} (hj : Textual j) (hv : j.validUtf8 = true) :
    parse j.compact = .ok j := by
  have hvalue := parseValue_compact hj (Nat.le_refl _) []
  rw [List.append_nil] at hvalue
  rw [parse, hvalue]
  exact if_pos hv

end Json

end Protos

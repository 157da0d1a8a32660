import Mathlib.Data.Nat.Digits.Lemmas
import Mathlib.Data.Int.ModEq

/-!
# Little-endian numbers

Numbers as byte lists, least significant byte first, over Mathlib's `Nat.ofDigits`.

* `toNat bs`, `toInt bs`: the unsigned number of `bs`, and its two's-complement reading.
* `ofInt w z`: the `w` low bytes of `z` (two's complement).
* `toNat_ofInt`, `toInt_ofInt`: reading back the low bytes of a number that fits gives it.
* `take_ofInt`: the low bytes of a wider encoding are the narrower encoding.
* `toNat_inj`, `toInt_inj`: a word is given by its length and its number.
-/

namespace LittleEndian

/-- The unsigned number with the bytes `bs`, least significant first. -/
def toNat (bs : List UInt8) : Nat := Nat.ofDigits 256 (bs.map UInt8.toNat)

/-- The two's-complement number with the bytes `bs`. -/
def toInt (bs : List UInt8) : Int := Int.bmod (toNat bs) (256 ^ bs.length)

/-- The `w` low bytes of `z`. -/
def ofInt : Nat → Int → List UInt8
  | 0, _ => []
  | w + 1, z => UInt8.ofNat (z % 256).toNat :: ofInt w (z / 256)

@[simp] theorem toNat_nil : toNat [] = 0 := rfl

@[simp] theorem toNat_cons (b : UInt8) (bs : List UInt8) :
    toNat (b :: bs) = b.toNat + 256 * toNat bs := by
  simp [toNat, Nat.ofDigits_cons]

@[simp] theorem length_ofInt (w : Nat) (z : Int) : (ofInt w z).length = w := by
  induction w generalizing z with
  | zero => rfl
  | succ w ih => simp [ofInt, ih]

/-- The lowest byte of `z` and the bytes above it. -/
private theorem emod_pow_succ (w : Nat) (z : Int) :
    z % 256 ^ (w + 1) = z % 256 + 256 * (z / 256 % 256 ^ w) := by
  rw [Int.emod_def, Int.emod_def z 256, Int.emod_def (z / 256), pow_succ',
    ← Int.ediv_ediv_of_nonneg (by decide)]
  ring

/-- **Unsigned reading.** The bytes of `z` read as `z` modulo `256 ^ w`. -/
theorem toNat_ofInt (w : Nat) (z : Int) : (toNat (ofInt w z) : Int) = z % 256 ^ w := by
  induction w generalizing z with
  | zero => simp [ofInt]
  | succ w ih =>
    have hb : ((UInt8.ofNat (z % 256).toNat).toNat : Int) = z % 256 := by
      rw [UInt8.toNat_ofNat']
      omega
    rw [ofInt, toNat_cons, Nat.cast_add, Nat.cast_mul, hb, ih, emod_pow_succ]
    rfl

/-- A natural number below `256 ^ w` reads back from its bytes. -/
theorem toNat_ofInt_of_lt {w : Nat} {z : Int} (h0 : 0 ≤ z) (h : z < 256 ^ w) :
    (toNat (ofInt w z) : Int) = z := by
  rw [toNat_ofInt, Int.emod_eq_of_lt h0 h]

/-- **Signed reading.** The bytes of `z` read as `z` when it is a `w`-byte two's-complement
number. -/
theorem toInt_ofInt {w : Nat} {z : Int} (hlo : -(256 ^ w : Int) ≤ 2 * z)
    (hhi : 2 * z < 256 ^ w) : toInt (ofInt w z) = z := by
  have hp : (0 : Int) < 256 ^ w := by positivity
  rw [toInt, toNat_ofInt, length_ofInt]
  have h1 : Int.bmod (z % 256 ^ w) (256 ^ w : Nat) = Int.bmod z (256 ^ w : Nat) := by
    have := Int.emod_bmod (x := z) (n := 256 ^ w)
    push_cast at this ⊢
    exact this
  rw [h1, Int.bmod_eq_of_le] <;> push_cast <;> omega

/-- The low bytes of an encoding. -/
theorem take_ofInt {k w : Nat} (h : k ≤ w) (z : Int) : (ofInt w z).take k = ofInt k z := by
  induction k generalizing w z with
  | zero => simp [ofInt]
  | succ k ih =>
    obtain ⟨w, rfl⟩ : ∃ v, w = v + 1 := ⟨w - 1, by omega⟩
    simp [ofInt, ih (Nat.le_of_succ_le_succ h)]

/-! ## Ranges, and bytes from their number -/

section Bytes

variable {bs bs' : List UInt8}

theorem toNat_lt (bs : List UInt8) : toNat bs < 256 ^ bs.length := by
  have := Nat.ofDigits_lt_base_pow_length (b := 256) (l := bs.map UInt8.toNat) (by decide)
    (by simpa using fun b _ => b.toNat_lt)
  rwa [List.length_map] at this

/-- The unsigned number is the signed one modulo `256 ^ w`. -/
theorem toInt_emod (bs : List UInt8) : toInt bs % (256 ^ bs.length : Nat) = toNat bs := by
  rw [toInt, Int.bmod_emod]
  exact Int.emod_eq_of_lt (Int.natCast_nonneg _) (by exact_mod_cast toNat_lt bs)

theorem le_toInt (bs : List UInt8) : -(256 ^ bs.length : Int) ≤ 2 * toInt bs := by
  have := Int.le_bmod (x := toNat bs) (Nat.pow_pos (n := bs.length) (by decide : 0 < 256))
  push_cast at this
  rw [toInt]
  omega

theorem toInt_le (bs : List UInt8) : 2 * toInt bs ≤ 256 ^ bs.length := by
  have := Int.bmod_lt (x := toNat bs) (Nat.pow_pos (n := bs.length) (by decide : 0 < 256))
  push_cast at this
  rw [toInt]
  omega

/-- The number of a word that has bytes is below the upper end. -/
theorem toInt_lt (h : bs ≠ []) : 2 * toInt bs < 256 ^ bs.length := by
  obtain ⟨n, hn⟩ := Nat.exists_eq_succ_of_ne_zero (mt List.length_eq_zero_iff.mp h)
  have hlt := Int.bmod_lt (x := toNat bs) (Nat.pow_pos (n := bs.length) (by decide : 0 < 256))
  rw [toInt]
  rw [hn, Nat.pow_succ] at hlt ⊢
  push_cast at hlt ⊢
  omega

/-- Words of one length with the same unsigned number are the same. -/
theorem toNat_inj (h : bs.length = bs'.length) : toNat bs = toNat bs' ↔ bs = bs' := by
  constructor
  · intro heq
    have hbytes : bs.map UInt8.toNat = bs'.map UInt8.toNat := by
      apply Nat.ofDigits_inj_of_len_eq (b := 256) (by decide) (by simpa using h) ?_ ?_ heq
      · simpa using fun b _ => b.toNat_lt
      · simpa using fun b _ => b.toNat_lt
    exact List.map_injective_iff.mpr (fun _ _ => UInt8.toNat_inj.mp) hbytes
  · rintro rfl
    rfl

/-- Words of one length with the same signed number are the same. -/
theorem toInt_inj (h : bs.length = bs'.length) : toInt bs = toInt bs' ↔ bs = bs' := by
  constructor
  · intro heq
    apply (toNat_inj h).mp
    have h1 := toInt_emod bs
    rw [heq, h, toInt_emod bs'] at h1
    exact_mod_cast h1.symm
  · rintro rfl
    rfl

end Bytes

end LittleEndian

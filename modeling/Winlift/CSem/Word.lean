import Mathlib.Tactic.Ring
import Mathlib.Algebra.Order.Ring.Nat

/-!
# Machine words

`uint32_t` is `UInt32`; `int` is an `Int` kept in range by `int32`, the two's complement wrap. A
32-bit word goes to memory as the four bytes `leByte v 0 … leByte v 3`, least significant first.
`roundUp` is rounding up to a multiple in exact integers, what `(n + a - 1) / a * a` computes when it
does not wrap.
-/

namespace CSem

/-! ### `int` -/

/-- The value an `int` holds after storing `n` into it. -/
def int32 (n : Int) : Int := (n + 2 ^ 31) % 2 ^ 32 - 2 ^ 31

theorem int32_of_range {n : Int} (h₁ : -2 ^ 31 ≤ n) (h₂ : n < 2 ^ 31) : int32 n = n := by
  unfold int32
  omega

theorem int32_of_nat_lt {n : Nat} (h : n < 2 ^ 31) : int32 n = n :=
  int32_of_range (by omega) (by omega)

theorem int32_natCast (n : Nat) :
    int32 n = if n % 2 ^ 32 < 2 ^ 31 then ((n % 2 ^ 32 : Nat) : Int) else (n % 2 ^ 32 : Nat) - 2 ^ 32 := by
  unfold int32
  split <;> omega

theorem int32_add (m n : Int) : int32 (int32 m + n) = int32 (m + n) := by
  unfold int32
  omega

@[simp] theorem int32_int32 (n : Int) : int32 (int32 n) = int32 n := by
  simpa using int32_add n 0

/-! ### Bytes of a word -/

/-- `(uint8_t)(v >> 8 * k)`. -/
def leByte (v : UInt32) (k : Nat) : UInt8 := UInt8.ofNat (v.toNat / 256 ^ k)

def ofLe32 (b₀ b₁ b₂ b₃ : UInt8) : UInt32 :=
  UInt32.ofNat (b₀.toNat + 256 * b₁.toNat + 65536 * b₂.toNat + 16777216 * b₃.toNat)

def ofLe16 (b₀ b₁ : UInt8) : UInt16 := UInt16.ofNat (b₀.toNat + 256 * b₁.toNat)

def le32Bytes (v : UInt32) : List UInt8 := [leByte v 0, leByte v 1, leByte v 2, leByte v 3]

def le16Bytes (v : UInt16) : List UInt8 := [UInt8.ofNat v.toNat, UInt8.ofNat (v.toNat / 256)]

@[simp] theorem length_le32Bytes (v : UInt32) : (le32Bytes v).length = 4 := rfl
@[simp] theorem length_le16Bytes (v : UInt16) : (le16Bytes v).length = 2 := rfl

theorem getElem_le32Bytes (v : UInt32) {k : Nat} (hk : k < (le32Bytes v).length) : (le32Bytes v)[k] = leByte v k := by
  have hk4 : k < 4 := hk
  rcases k with _ | _ | _ | _ | k
  iterate 4 rfl
  omega

theorem leByte_toNat (v : UInt32) (k : Nat) : (leByte v k).toNat = v.toNat / 256 ^ k % 256 := by
  simp [leByte]

@[simp] theorem ofLe32_leByte (v : UInt32) :
    ofLe32 (leByte v 0) (leByte v 1) (leByte v 2) (leByte v 3) = v := by
  apply UInt32.toNat_inj.1
  have hv := v.toNat_lt
  simp only [ofLe32, UInt32.toNat_ofNat', leByte_toNat]
  omega

@[simp] theorem ofLe16_le16Bytes (v : UInt16) :
    ofLe16 (UInt8.ofNat v.toNat) (UInt8.ofNat (v.toNat / 256)) = v := by
  apply UInt16.toNat_inj.1
  have hv := v.toNat_lt
  simp only [ofLe16, UInt16.toNat_ofNat', UInt8.toNat_ofNat']
  omega

/-! ### `uint32_t` arithmetic in exact integers -/

theorem toNat_add_of_lt {a b : UInt32} (h : a.toNat + b.toNat < 2 ^ 32) :
    (a + b).toNat = a.toNat + b.toNat := by
  rw [UInt32.toNat_add, Nat.mod_eq_of_lt h]

theorem toNat_sub_of_le {a b : UInt32} (h : b.toNat ≤ a.toNat) : (a - b).toNat = a.toNat - b.toNat :=
  UInt32.toNat_sub_of_le a b h

theorem toNat_sub_ofNat {a : UInt32} {k : Nat} (h : k ≤ a.toNat) :
    (a - UInt32.ofNat k).toNat = a.toNat - k := by
  have hk : (UInt32.ofNat k).toNat = k := UInt32.toNat_ofNat_of_lt' (Nat.lt_of_le_of_lt h a.toNat_lt)
  rw [toNat_sub_of_le (by rwa [hk]), hk]

theorem ofInt_of_nonneg {r : Int} (h : 0 ≤ r) : UInt32.ofInt r = UInt32.ofNat r.toNat := by
  apply UInt32.toNat_inj.mp
  simp only [UInt32.ofInt, UInt32.toNat_ofNat']
  omega

/-- A mask of the bits from `k` on clears the ones below. -/
theorem toNat_and_high {mask : UInt32} {k : Nat} (hk : k ≤ 32)
    (hmask : mask.toNat = (2 ^ (32 - k) - 1) * 2 ^ k) (x : UInt32) : (x &&& mask).toNat = x.toNat / 2 ^ k * 2 ^ k := by
  rw [UInt32.toNat_and, hmask]
  apply Nat.eq_of_testBit_eq
  intro j
  rw [Nat.testBit_and, Nat.testBit_mul_two_pow, Nat.testBit_two_pow_sub_one, Nat.testBit_mul_two_pow,
    Nat.testBit_div_two_pow]
  by_cases hj : k ≤ j
  · rw [Nat.sub_add_cancel hj]
    by_cases hj' : j - k < 32 - k
    · simp [hj, hj']
    · have hbit : x.toNat.testBit j = false :=
        Nat.testBit_lt_two_pow (Nat.lt_of_lt_of_le x.toNat_lt (Nat.pow_le_pow_right (by omega) (by omega)))
      simp [hj, hbit]
  · simp [hj]

/-! ### Rounding up -/

def roundUp (n a : Nat) : Nat := (n + a - 1) / a * a

theorem le_roundUp {n a : Nat} (ha : 0 < a) : n ≤ roundUp n a := by
  have h := Nat.lt_div_mul_add (a := n + a - 1) ha
  unfold roundUp
  omega

theorem roundUp_lt {n a : Nat} (ha : 0 < a) : roundUp n a < n + a := by
  have h := Nat.div_mul_le_self (n + a - 1) a
  unfold roundUp
  omega

theorem dvd_roundUp (n a : Nat) : a ∣ roundUp n a := Nat.dvd_mul_left a _

theorem roundUp_of_dvd {n a : Nat} (ha : 0 < a) (h : a ∣ n) : roundUp n a = n := by
  obtain ⟨k, rfl⟩ := h
  unfold roundUp
  rw [Nat.add_sub_assoc ha, Nat.mul_add_div ha, Nat.div_eq_of_lt (by omega), Nat.add_zero, Nat.mul_comm]

theorem roundUp_mono {m n a : Nat} (h : m ≤ n) : roundUp m a ≤ roundUp n a :=
  Nat.mul_le_mul_right a (Nat.div_le_div_right (by omega))

end CSem

import Mathlib.Data.Nat.Digits.Lemmas
import Winlift.FormatSpec

/-!
# The numbers that are put out, read back

`uintText` is what `out_uint` puts out (`outUint_eq`). Here it is read back, by a reader that knows
nothing of how it came about: digits of either case, the most significant one first, and for `out_int` a
sign. It gives back the number that was put out, also the most negative one.
-/

namespace Winlift
open CSem

/-! ### The reader -/

def digitValue (c : UInt8) : Option Nat :=
  if '0'.toUInt8 ≤ c ∧ c ≤ '9'.toUInt8 then some (c - '0'.toUInt8).toNat
  else if 'a'.toUInt8 ≤ c ∧ c ≤ 'f'.toUInt8 then some ((c - 'a'.toUInt8).toNat + 10)
  else if 'A'.toUInt8 ≤ c ∧ c ≤ 'F'.toUInt8 then some ((c - 'A'.toUInt8).toNat + 10)
  else none

def digitIn (base : Nat) (c : UInt8) : Option Nat := (digitValue c).filter (· < base)

/-- One digit or more, the most significant one first. -/
def readNat (base : Nat) (text : List UInt8) : Option Nat :=
  if text = [] then none else (text.mapM (digitIn base)).map fun ds => Nat.ofDigits base ds.reverse

def readInt : List UInt8 → Option Int
  | [] => none
  | c :: text =>
    if c = '-'.toUInt8 then (readNat 10 text).map fun n : Nat => -(n : Int)
    else (readNat 10 (c :: text)).map fun n : Nat => (n : Int)

/-- `text` is the numeral of `v`: digits of the base, in the case asked for, no zero in front. -/
structure IsNumeral (base : Nat) (upper : Bool) (v : Nat) (text : List UInt8) : Prop where
  digit : ∀ c ∈ text, c ∈ (digits upper).take base
  value : readNat base text = some v
  lead : text.head? = some '0'.toUInt8 → v = 0 ∧ text = ['0'.toUInt8]
  length : text.length ≤ 32

/-! ### Digits -/

theorem digitValue_digitText (upper : Bool) {d : Nat} (hd : d < 16) :
    digitValue (digitText upper d) = some d := by
  cases upper
  · revert d
    decide
  · revert d
    decide

theorem digitText_mem {base : Nat} (hbase : base ≤ 16) (upper : Bool) {d : Nat} (hd : d < base) :
    digitText upper d ∈ (digits upper).take base := by
  have hlen : d < (digits upper).length := by
    rw [length_digits]
    omega
  rw [digitText, List.getD_eq_getElem?_getD, List.getElem?_eq_getElem hlen, Option.getD_some]
  exact List.mem_take_iff_getElem.mpr ⟨d, by omega, rfl⟩

theorem mapM_digitIn {base : Nat} (hbase : base ≤ 16) (upper : Bool) {ds : List Nat}
    (hds : ∀ d ∈ ds, d < base) : (ds.map (digitText upper)).mapM (digitIn base) = some ds := by
  induction ds with
  | nil => rfl
  | cons d ds ih =>
    rw [List.forall_mem_cons] at hds
    have hd : digitIn base (digitText upper d) = some d := by
      rw [digitIn, digitValue_digitText upper (by omega)]
      simp [hds.1]
    rw [List.map_cons, List.mapM_cons, hd, ih hds.2]
    rfl

/-! ### Numerals -/

section
variable {base : Nat} (h₁ : 1 < base) (h₂ : base ≤ 16) (upper : Bool)
include h₁ h₂

theorem isNumeral_zero : IsNumeral base upper 0 (uintText base upper 0) := by
  have htext : uintText base upper 0 = [0].map (digitText upper) := by cases upper <;> rfl
  refine ⟨?_, ?_, fun _ => ⟨rfl, rfl⟩, by simp [htext]⟩
  · rw [htext, List.forall_mem_map]
    simpa using digitText_mem h₂ upper (Nat.zero_lt_of_lt h₁)
  · rw [htext, readNat, if_neg (by simp), mapM_digitIn h₂ upper (by simpa using Nat.zero_lt_of_lt h₁)]
    simp

theorem isNumeral_pos {v : Nat} (hv : v ≠ 0) (hlen : (Nat.digits base v).length ≤ 32) :
    IsNumeral base upper v (uintText base upper v) := by
  have hds : ∀ d ∈ (Nat.digits base v).reverse, d < base :=
    fun d hd => Nat.digits_lt_base h₁ (List.mem_reverse.mp hd)
  have hne : Nat.digits base v ≠ [] := Nat.digits_ne_nil_iff_ne_zero.mpr hv
  rw [uintText, if_neg hv]
  constructor
  · intro c hc
    obtain ⟨d, hd, rfl⟩ := List.mem_map.mp hc
    exact digitText_mem h₂ upper (hds d hd)
  · rw [readNat, if_neg (by simpa using hne), mapM_digitIn h₂ upper hds, Option.map_some,
      List.reverse_reverse, Nat.ofDigits_digits]
  · -- the digit in front is the last one of `Nat.digits`
    intro hzero
    rw [List.head?_map, List.head?_reverse, List.getLast?_eq_some_getLast hne, Option.map_some,
      Option.some.injEq] at hzero
    have hlast := digitValue_digitText upper (Nat.lt_of_lt_of_le (Nat.digits_lt_base h₁ (List.getLast_mem hne)) h₂)
    rw [hzero, show digitValue '0'.toUInt8 = some 0 by decide, Option.some.injEq] at hlast
    exact absurd hlast.symm (Nat.getLast_digit_ne_zero base hv)
  · rwa [List.length_map, List.length_reverse]

end

theorem isNumeral_uintText {base : Nat} (h₁ : 1 < base) (h₂ : base ≤ 16) (upper : Bool) (v : UInt32) :
    IsNumeral base upper v.toNat (uintText base upper v.toNat) := by
  rcases eq_or_ne v.toNat 0 with hzero | hne
  · rw [hzero]
    exact isNumeral_zero h₁ h₂ upper
  · refine isNumeral_pos h₁ h₂ upper hne ?_
    rw [Nat.digits_length_le_iff h₁]
    exact Nat.lt_of_lt_of_le v.toNat_lt (Nat.pow_le_pow_left h₁ 32)

theorem readInt_uintText {v : Nat} {text : List UInt8} (h : IsNumeral 10 false v text) :
    readInt text = some (v : Int) := by
  cases text with
  | nil => exact absurd h.value (by simp [readNat])
  | cons c text =>
    have hminus : c ≠ '-'.toUInt8 := by
      rintro rfl
      exact absurd (h.digit _ List.mem_cons_self) (by decide)
    rw [readInt, if_neg hminus, h.value, Option.map_some]

theorem readInt_intText (v : UInt32) : readInt (intText v) = some (int32 v.toNat) := by
  have hnat : ∀ w : UInt32, IsNumeral 10 false w.toNat (uintText 10 false w.toNat) :=
    isNumeral_uintText (by decide) (by decide) false
  rw [intText]
  split_ifs with hneg
  · have habs : -((int32 v.toNat).natAbs : Int) = int32 v.toNat := by omega
    rw [← neg_toNat_of_neg hneg, readInt, if_pos rfl, (hnat (-v)).value, Option.map_some,
      neg_toNat_of_neg hneg, habs]
  · have hnonneg : (v.toNat : Int) = int32 v.toNat := by
      have habs := toNat_of_nonneg hneg
      omega
    rw [← toNat_of_nonneg hneg, readInt_uintText (hnat v), ← hnonneg]

/-- `out_uint` puts out the numeral of its argument, and what `out_int` puts out is read back as its
argument. -/
theorem numbers_exact {base : UInt32} (hbase : base = 10 ∨ base = 16) (upper : Bool) (v w : UInt32) :
    (∃ text, IsNumeral base.toNat upper v.toNat text ∧
      ∀ {σ : Type} (put : σ → UInt8 → Res Empty σ) (o : σ),
        outUint put o v base upper = text.foldlM put o) ∧
    ∃ text, readInt text = some (int32 w.toNat) ∧
      ∀ {σ : Type} (put : σ → UInt8 → Res Empty σ) (o : σ), outInt put o w = text.foldlM put o := by
  have h₁ : 1 < base.toNat := by rcases hbase with rfl | rfl <;> decide
  have h₂ : base.toNat ≤ 16 := by rcases hbase with rfl | rfl <;> decide
  refine ⟨⟨_, isNumeral_uintText h₁ h₂ upper v, ?_⟩, _, readInt_intText w, ?_⟩
  · exact fun put o => outUint_eq h₁ h₂ v upper
  · exact fun put o => outInt_eq w

theorem numbers_exact_hex : IsNumeral 16 true 48879 (cBytes "BEEF") ∧
    ∃ text, readInt text = some (-2147483648) ∧ outInt collect [] 0x80000000 = .ok text := by
  obtain ⟨⟨text, h, hput⟩, signed, hread, hput'⟩ :=
    @numbers_exact 16 (.inr rfl) true 48879 0x80000000
  have hmin : int32 (0x80000000 : UInt32).toNat = -2147483648 := by decide
  have hrun : outUint collect [] 48879 16 true = .ok (cBytes "BEEF") := rfl
  have htext : text = cBytes "BEEF" := by
    rw [hput, foldlM_collect, List.nil_append] at hrun
    exact Res.ok.inj hrun
  exact ⟨htext ▸ h, signed, hmin ▸ hread, by rw [hput', foldlM_collect, List.nil_append]⟩

end Winlift

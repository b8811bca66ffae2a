import Mathlib.Algebra.Order.BigOperators.Group.List
import Mathlib.Data.Finset.Interval
import Mathlib.Data.List.Pairwise
import Mathlib.Order.Interval.Finset.Nat
import Winlift.CSem.Word

/-!
# Extents

An `Extent` is a half-open interval of natural numbers, as address ranges and file ranges are. Extents
that are pairwise `Apart` and lie between two bounds are no longer than the bounds are apart
(`sum_length_le`).
-/

namespace CSem

structure Extent where
  lo : Nat
  hi : Nat
deriving DecidableEq, Repr

namespace Extent

instance : Membership Nat Extent := ⟨fun i x => i.lo ≤ x ∧ x < i.hi⟩

theorem mem_iff {i : Extent} {x : Nat} : x ∈ i ↔ i.lo ≤ x ∧ x < i.hi := Iff.rfl

instance (x : Nat) (i : Extent) : Decidable (x ∈ i) := inferInstanceAs (Decidable (_ ∧ _))

def length (i : Extent) : Nat := i.hi - i.lo

def Apart (i j : Extent) : Prop := min i.hi j.hi ≤ max i.lo j.lo

instance (i j : Extent) : Decidable (i.Apart j) := inferInstanceAs (Decidable (_ ≤ _))

instance : Std.Symm Apart where
  symm i j h := by rwa [Apart, min_comm, max_comm]

theorem Apart.not_mem {i j : Extent} {x : Nat} (h : i.Apart j) (hi : x ∈ i) : x ∉ j := by
  intro hj
  simp only [Apart, mem_iff] at h hi hj
  omega

theorem apart_iff {i j : Extent} : i.Apart j ↔ ∀ x ∈ i, x ∉ j := by
  refine ⟨fun h x => h.not_mem, fun h => ?_⟩
  by_contra hn
  have hx := h (max i.lo j.lo)
  simp only [Apart, mem_iff] at hn hx
  omega

theorem Apart.mono {i i' j : Extent} (h : i.Apart j) (hlo : i.lo ≤ i'.lo) (hhi : i'.hi ≤ i.hi) : i'.Apart j :=
  calc min i'.hi j.hi ≤ min i.hi j.hi := min_le_min_right _ hhi
    _ ≤ max i.lo j.lo := h
    _ ≤ max i'.lo j.lo := max_le_max_right _ hlo

theorem eq_of_mem {α : Type} {f : α → Extent} {l : List α} (h : (l.map f).Pairwise Apart) {a b : α}
    (ha : a ∈ l) (hb : b ∈ l) {x : Nat} (hxa : x ∈ f a) (hxb : x ∈ f b) : a = b := by
  by_contra hne
  have hsymm : Std.Symm fun a b => (f a).Apart (f b) := ⟨fun _ _ => Std.Symm.symm _ _⟩
  exact ((List.pairwise_map.mp h).forall ha hb hne).not_mem hxa hxb

/-! ### The length of extents that are apart -/

def cover (l : List Extent) : Finset Nat := l.foldr (fun i s => Finset.Ico i.lo i.hi ∪ s) ∅

theorem mem_cover {l : List Extent} {x : Nat} : x ∈ cover l ↔ ∃ i ∈ l, x ∈ i := by
  induction l with
  | nil => simp [cover]
  | cons i l ih =>
    rw [List.exists_mem_cons_iff, ← ih]
    simp [cover, mem_iff]

theorem card_cover {l : List Extent} (h : l.Pairwise Apart) :
    (cover l).card = (l.map length).sum := by
  induction l with
  | nil => rfl
  | cons i l ih =>
    rw [List.pairwise_cons] at h
    have hdis : Disjoint (Finset.Ico i.lo i.hi) (cover l) := by
      rw [Finset.disjoint_left]
      intro x hx hcover
      obtain ⟨j, hj, hxj⟩ := mem_cover.mp hcover
      exact (h.1 j hj).not_mem (Finset.mem_Ico.mp hx) hxj
    rw [List.map_cons, List.sum_cons, ← ih h.2]
    exact (Finset.card_union_of_disjoint hdis).trans (by rw [Nat.card_Ico]; rfl)

theorem sum_length_le {l : List Extent} {a b : Nat} (h : l.Pairwise Apart)
    (hin : ∀ i ∈ l, a ≤ i.lo ∧ i.hi ≤ b) : (l.map length).sum ≤ b - a := by
  rw [← card_cover h, ← Nat.card_Ico]
  refine Finset.card_le_card fun x hx => ?_
  obtain ⟨i, hi, hxi⟩ := mem_cover.mp hx
  obtain ⟨ha, hb⟩ := hin i hi
  rw [mem_iff] at hxi
  exact Finset.mem_Ico.mpr ⟨by omega, by omega⟩

/-! ### One after the other -/

/-- The extents lie between `a` and `b`, each behind the one before it. -/
def Between : Nat → List Extent → Nat → Prop
  | a, [], b => a ≤ b
  | a, i :: l, b => a ≤ i.lo ∧ Between i.hi l b

theorem Between.bounds {l : List Extent} {a b : Nat} (h : Between a l b) (hne : ∀ i ∈ l, i.lo < i.hi) :
    a ≤ b ∧ ∀ i ∈ l, a ≤ i.lo := by
  induction l generalizing a with
  | nil => exact ⟨h, by simp⟩
  | cons i l ih =>
    rw [List.forall_mem_cons] at hne
    obtain ⟨hle, hlo⟩ := ih h.2 hne.2
    have ha := Nat.le_trans h.1 (Nat.le_of_lt hne.1)
    refine ⟨Nat.le_trans ha hle, List.forall_mem_cons.mpr ⟨h.1, ?_⟩⟩
    exact fun j hj => Nat.le_trans ha (hlo j hj)

/-- Extents that are not empty are one after the other iff they are apart and in ascending order. -/
theorem between_iff {l : List Extent} {a b : Nat} (hne : ∀ i ∈ l, i.lo < i.hi) (hab : a ≤ b)
    (ha : ∀ i ∈ l, a ≤ i.lo) : Between a l b ↔
      l.Pairwise Apart ∧ l.Pairwise (fun i j => i.lo < j.lo) ∧ ∀ i ∈ l, i.hi ≤ b := by
  induction l generalizing a with
  | nil => simpa [Between] using hab
  | cons i l ih =>
    rw [List.forall_mem_cons] at hne ha
    simp only [Between, List.pairwise_cons, List.forall_mem_cons]
    constructor
    · rintro ⟨-, h⟩
      obtain ⟨hle, hbehind⟩ := h.bounds hne.2
      obtain ⟨hapart, hasc, hhi⟩ := (ih hne.2 hle hbehind).mp h
      refine ⟨⟨fun j hj => ?_, hapart⟩, ⟨fun j hj => ?_, hasc⟩, hle, hhi⟩
      · have := hbehind j hj
        simp only [Apart]
        omega
      · exact Nat.lt_of_lt_of_le hne.1 (hbehind j hj)
    · rintro ⟨⟨hapart, hl⟩, ⟨hasc, hls⟩, hle, hhi⟩
      refine ⟨ha.1, (ih hne.2 hle fun j hj => ?_).mpr ⟨hl, hls, hhi⟩⟩
      have hj' := hne.2 j hj
      have hlo := hasc j hj
      have h := hapart j hj
      simp only [Apart] at h
      omega

/-! ### Rounding outwards -/

/-- The multiples of `a` around the extent. -/
def roundOut (a : Nat) (i : Extent) : Extent := ⟨i.lo / a * a, roundUp i.hi a⟩

variable {a : Nat} {i j : Extent}

theorem mem_roundOut (ha : 0 < a) {x : Nat} (h : x ∈ i) : x ∈ i.roundOut a := by
  have hlo := Nat.div_mul_le_self i.lo a
  have hhi := le_roundUp (n := i.hi) ha
  rw [mem_iff] at h
  exact mem_iff.mpr ⟨Nat.le_trans hlo h.1, Nat.lt_of_lt_of_le h.2 hhi⟩

theorem Apart.of_roundOut (ha : 0 < a) (h : (i.roundOut a).Apart (j.roundOut a)) : i.Apart j :=
  apart_iff.mpr fun _ hi hj => h.not_mem (mem_roundOut ha hi) (mem_roundOut ha hj)

/-- The rounded extent holds as many multiples of `a` as its length rounded up. -/
theorem roundUp_length_le (ha : 0 < a) : roundUp i.length a ≤ (i.roundOut a).length := by
  have hlo := Nat.div_mul_le_self i.lo a
  have hhi := le_roundUp (n := i.hi) ha
  have hle : i.length ≤ (i.roundOut a).length := by
    simp only [length, roundOut]
    omega
  have hdvd : a ∣ (i.roundOut a).length :=
    Nat.dvd_sub (dvd_roundUp i.hi a) (Nat.dvd_mul_left a _)
  exact (roundUp_mono hle).trans_eq (roundUp_of_dvd ha hdvd)

/-- What is apart from an extent that is not empty, and starts and ends at multiples of `a`, is apart
from its rounding. -/
theorem Apart.roundOut_right (ha : 0 < a) (hne : j.lo < j.hi) (h : (i.roundOut a).Apart j) :
    (i.roundOut a).Apart (j.roundOut a) := by
  have hlo : a ∣ (i.roundOut a).lo := Nat.dvd_mul_left a _
  have hhi : a ∣ (i.roundOut a).hi := dvd_roundUp i.hi a
  generalize i.roundOut a = i at *
  simp only [Apart, roundOut, min_le_iff, le_max_iff] at h ⊢
  rcases h with (h | h) | h | h
  · exact .inl (.inl h)
  · exact .inl (.inr ((roundUp_mono h).trans_eq (roundUp_of_dvd ha hlo)))
  · -- the last multiple before `j` is not before `i` ends
    obtain ⟨n, hn⟩ := hhi
    rw [hn, Nat.mul_comm] at h ⊢
    exact .inr (.inl (Nat.mul_le_mul_right a ((Nat.le_div_iff_mul_le ha).mpr h)))
  · exact absurd h (Nat.not_le.mpr hne)

end Extent

end CSem

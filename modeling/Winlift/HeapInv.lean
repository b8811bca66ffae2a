import Winlift.ShimHeap

/-!
# Blocks of the heap do not overlap

`HeapInv`: what the allocator has handed out lies between the initial break and `heap_next`, which
does not pass `heap_limit`, which is the break. A call keeps it when none of its three 32-bit sums
wraps (`NoWrap`).
-/

namespace Winlift
open CSem

/-! ### Rounding -/

theorem and_not_fifteen (x : UInt32) : (x &&& ~~~15).toNat = x.toNat / 16 * 16 := by
  have hx := x.toNat_lt
  have hmask : (~~~15 : UInt32).toNat = (2 ^ 28 - 1) * 2 ^ 4 := rfl
  rw [UInt32.toNat_and, hmask]
  apply Nat.eq_of_testBit_eq
  intro j
  rw [Nat.testBit_and, Nat.testBit_mul_two_pow, Nat.testBit_two_pow_sub_one, show 16 = 2 ^ 4 from rfl,
    Nat.testBit_mul_two_pow, Nat.testBit_div_two_pow]
  by_cases hj : 4 ≤ j
  · by_cases hj' : j - 4 < 28
    · simp [hj, hj']
    · have hbit : x.toNat.testBit j = false :=
        Nat.testBit_lt_two_pow (Nat.lt_of_lt_of_le hx (Nat.pow_le_pow_right (by omega) (by omega)))
      simp [hj, hbit]
  · simp [hj]

theorem heapRound_toNat {n : UInt32} (h : n.toNat + 15 < 2 ^ 32) :
    n.toNat ≤ (heapRound n).toNat ∧ 16 ≤ (heapRound n).toNat := by
  have hadd : (n + 15).toNat = n.toNat + 15 := toNat_add_of_lt h
  have hand := and_not_fifteen (n + 15)
  rw [hadd] at hand
  simp only [heapRound]
  split
  · rename_i hzero
    rw [hzero, UInt32.toNat_zero] at hand
    exact ⟨by show _ ≤ 16; omega, Nat.le_refl 16⟩
  · rename_i hne
    have hpos : ((n + 15) &&& ~~~15).toNat ≠ 0 := fun h0 => hne (UInt32.toNat_inj.mp h0)
    omega

/-! ### The invariant -/

namespace HeapBlock

def Within (b : HeapBlock) (lo hi : Nat) : Prop :=
  lo ≤ b.addr.toNat ∧ b.addr.toNat + b.size.toNat ≤ hi

def Apart (a b : HeapBlock) : Prop :=
  a.addr.toNat + a.size.toNat ≤ b.addr.toNat ∨ b.addr.toNat + b.size.toNat ≤ a.addr.toNat

instance (b : HeapBlock) (lo hi : Nat) : Decidable (b.Within lo hi) :=
  inferInstanceAs (Decidable (_ ∧ _))

instance (a b : HeapBlock) : Decidable (a.Apart b) := inferInstanceAs (Decidable (_ ∨ _))

end HeapBlock

structure BlocksOk (start : UInt32) (r : HeapRun) : Prop where
  within : ∀ b ∈ r.blocks, b.Within start.toNat r.heap.limit.toNat
  apart : r.blocks.Pairwise HeapBlock.Apart

/-- The heap is not set up yet, or blocks end before `heap_next`, and that before the break. -/
structure HeapInv (start : UInt32) (r : HeapRun) : Prop where
  fresh_or_set : (r.heap = ⟨0, 0, start⟩ ∧ r.blocks = []) ∨
    (start ≤ r.heap.next ∧ r.heap.next ≤ r.heap.limit ∧ r.heap.brk = r.heap.limit)
  within : ∀ b ∈ r.blocks, b.Within start.toNat r.heap.next.toNat
  apart : r.blocks.Pairwise HeapBlock.Apart

/-- None of the sums a call computes wraps: the rounded size, the end of the block and, if the heap has
to grow, its new limit. -/
structure NoWrap (n : UInt32) (h : Heap) : Prop where
  size : n.toNat + 15 < 2 ^ 32
  block : h.init.next.toNat + (heapRound n).toNat < 2 ^ 32
  limit : h.init.limit < h.init.next + heapRound n →
    h.init.limit.toNat + (h.init.grow (heapRound n)).toNat < 2 ^ 32

instance (n : UInt32) (h : Heap) : Decidable (NoWrap n h) :=
  decidable_of_iff (n.toNat + 15 < 2 ^ 32 ∧ h.init.next.toNat + (heapRound n).toNat < 2 ^ 32 ∧
      (h.init.limit < h.init.next + heapRound n →
        h.init.limit.toNat + (h.init.grow (heapRound n)).toNat < 2 ^ 32))
    ⟨fun ⟨hsize, hblock, hlimit⟩ => ⟨hsize, hblock, hlimit⟩, fun h => ⟨h.size, h.block, h.limit⟩⟩

theorem HeapInv.start (start : UInt32) : HeapInv start (.start start) :=
  ⟨.inl ⟨rfl, rfl⟩, by simp [HeapRun.start], .nil⟩

theorem HeapInv.blocksOk {start : UInt32} {r : HeapRun} (h : HeapInv start r) : BlocksOk start r := by
  refine ⟨fun b hb => ?_, h.apart⟩
  rcases h.fresh_or_set with ⟨-, hnil⟩ | ⟨-, hle, -⟩
  · rw [hnil] at hb; cases hb
  · have hle' := UInt32.le_iff_toNat_le.mp hle
    have hin := h.within b hb
    exact ⟨hin.1, Nat.le_trans hin.2 hle'⟩

theorem HeapInv.init {start : UInt32} {r : HeapRun} (h : HeapInv start r) :
    start.toNat ≤ r.heap.init.next.toNat ∧ r.heap.init.next.toNat ≤ r.heap.init.limit.toNat ∧
      r.heap.init.brk = r.heap.init.limit ∧
      ∀ b ∈ r.blocks, b.Within start.toNat r.heap.init.next.toNat := by
  unfold Heap.init
  rcases h.fresh_or_set with ⟨hheap, hnil⟩ | ⟨hlo, hhi, hbrk⟩
  · rw [hheap, hnil]
    simp
  · have hlo' := UInt32.le_iff_toNat_le.mp hlo
    have hhi' := UInt32.le_iff_toNat_le.mp hhi
    split
    · rename_i hzero
      have hz : r.heap.next.toNat = 0 := by rw [hzero]; rfl
      rw [hbrk]
      refine ⟨by omega, Nat.le_refl _, rfl, fun b hb => ?_⟩
      have hin := h.within b hb
      exact ⟨hin.1, by have := hin.2; omega⟩
    · exact ⟨hlo', hhi', hbrk, h.within⟩

theorem apart_cons {start hi : Nat} {p n : UInt32} {blocks : List HeapBlock}
    (hin : ∀ b ∈ blocks, b.Within start hi) (hp : hi ≤ p.toNat)
    (hapart : blocks.Pairwise HeapBlock.Apart) :
    (⟨p, n⟩ :: blocks).Pairwise HeapBlock.Apart :=
  List.pairwise_cons.mpr ⟨fun b hb => .inr (Nat.le_trans (hin b hb).2 hp), hapart⟩

theorem le_grow (h : Heap) (size : UInt32) : (h.next + size - h.limit).toNat ≤ (h.grow size).toNat ∧
    0 < (h.grow size).toNat := by
  simp only [Heap.grow]
  split
  · rename_i hlt
    have hlt' := UInt32.lt_iff_toNat_lt.mp hlt
    exact ⟨Nat.le_refl _, by omega⟩
  · rename_i hge
    have hge' := UInt32.le_iff_toNat_le.mp (UInt32.not_lt.mp hge)
    exact ⟨hge', by decide⟩

/-- What a call that does not wrap does: it fails and changes nothing, or it returns the block at
`heap_next`, which moves behind it and stays in front of the limit. -/
theorem shimHeapAlloc_spec (moves : Bool) {n : UInt32} {h : Heap} (hno : NoWrap n h)
    (hbrk : h.init.brk = h.init.limit) :
    shimHeapAlloc moves n h = (h.init, 0) ∨ ∃ h', shimHeapAlloc moves n h = (h', h.init.next) ∧
      h'.next.toNat = h.init.next.toNat + (heapRound n).toNat ∧ h'.next.toNat ≤ h'.limit.toNat ∧
        h'.brk = h'.limit := by
  obtain ⟨hgrow, hpos⟩ := le_grow h.init (heapRound n)
  have hend := toNat_add_of_lt hno.block
  by_cases hfull : h.init.limit < h.init.next + heapRound n
  · have hsum := toNat_add_of_lt (hno.limit hfull)
    have hfull' := UInt32.lt_iff_toNat_lt.mp hfull
    have hneed := toNat_sub_of_le (Nat.le_of_lt hfull')
    have hne : h.init.limit + h.init.grow (heapRound n) ≠ 0 := by
      intro h0
      rw [h0, UInt32.toNat_zero] at hsum
      omega
    cases moves with
    | false =>
      -- the break stays where the heap ends
      have hshort : h.init.brk < h.init.limit + h.init.grow (heapRound n) := by
        rw [hbrk, UInt32.lt_iff_toNat_lt]; omega
      left
      simp only [shimHeapAlloc, hfull, ↓reduceIte, sysBrk, Bool.false_eq_true, false_and, hshort]
    | true =>
      right
      refine ⟨⟨h.init.next + heapRound n, h.init.limit + h.init.grow (heapRound n),
        h.init.limit + h.init.grow (heapRound n)⟩, ?_, hend, ?_, rfl⟩
      · simp only [shimHeapAlloc, hfull, ↓reduceIte, sysBrk, ne_eq, hne, not_false_eq_true, and_self,
          UInt32.lt_irrefl]
      · dsimp only
        omega
  · right
    have hfits := UInt32.le_iff_toNat_le.mp (UInt32.not_lt.mp hfull)
    exact ⟨{ h.init with next := h.init.next + heapRound n },
      by simp only [shimHeapAlloc, hfull, ↓reduceIte], hend, hfits, hbrk⟩

theorem HeapInv.step {start : UInt32} {r : HeapRun} (h : HeapInv start r) (call : HeapCall)
    (moves : Bool) (hno : NoWrap call.size r.heap) : HeapInv start (r.step call moves) := by
  obtain ⟨hlo, hhi, hbrk, hin⟩ := h.init
  rcases shimHeapAlloc_spec moves hno hbrk with hfail | ⟨h', hok, hnext, hlim, hbrk'⟩
  · rw [HeapRun.step, hfail]
    exact ⟨.inr ⟨hlo, hhi, hbrk⟩, hin, h.apart⟩
  · rw [HeapRun.step, hok]
    have hsize := heapRound_toNat hno.size
    refine ⟨.inr ⟨?_, hlim, hbrk'⟩, ?_, ?_⟩
    · rw [UInt32.le_iff_toNat_le]
      dsimp only
      omega
    · have hold : ∀ b ∈ r.blocks, b.Within start.toNat h'.next.toNat := fun b hb =>
        ⟨(hin b hb).1, by have := (hin b hb).2; omega⟩
      dsimp only
      split
      · exact hold
      · rw [List.forall_mem_cons]
        refine ⟨⟨hlo, ?_⟩, hold⟩
        dsimp only
        omega
    · dsimp only
      split
      · exact h.apart
      · exact apart_cons hin (Nat.le_refl _) h.apart

def NoWraps : HeapRun → List (HeapCall × Bool) → Prop
  | _, [] => True
  | r, c :: calls => NoWrap c.1.size r.heap ∧ NoWraps (r.step c.1 c.2) calls

theorem HeapInv.run {start : UInt32} {r : HeapRun} {calls : List (HeapCall × Bool)}
    (h : HeapInv start r) (hno : NoWraps r calls) : HeapInv start (r.run calls) := by
  induction calls generalizing r with
  | nil => exact h
  | cons c calls ih => exact ih (h.step c.1 c.2 hno.1) hno.2

/-- In a run none of whose calls wraps, all blocks are inside the heap and apart. -/
theorem blocks_inside_and_apart (start : UInt32) (calls : List (HeapCall × Bool))
    (hno : NoWraps (.start start) calls) : BlocksOk start ((HeapRun.start start).run calls) :=
  ((HeapInv.start start).run hno).blocksOk

theorem blocks_inside_and_apart_two : BlocksOk 0x0F100000
    ((HeapRun.start 0x0F100000).run [(.malloc 40, true), (.heapAlloc 8 0x200000, true)]) := by
  refine blocks_inside_and_apart _ _ ⟨⟨?_, ?_, fun _ => ?_⟩, ⟨?_, ?_, fun _ => ?_⟩, trivial⟩ <;> decide

/-- A request of `2^32 - 1` bytes is rounded to 0, and served with 16. -/
theorem malloc_wraps_round : ¬ ∀ start calls, BlocksOk start ((HeapRun.start start).run calls) := by
  intro h
  exact absurd ((h 0x0F100000 [(.malloc 0xFFFFFFFF, true)]).within) (by decide)

end Winlift

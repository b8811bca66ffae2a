import Mathlib.Data.List.Basic

/-!
# Chunks of a file

A `Chunk` is a stretch of data with the offset it starts at. `assemble z c ks` is what a writer puts out
that stands at offset `c` and writes the chunks `ks` in order, filling the gaps with `z`. When the
chunks are in order and disjoint (`Placed`), every chunk is found at its offset, everything else is `z`,
and the output ends where the last chunk does.
-/

namespace CSem

structure Chunk (α : Type) where
  off : Nat
  data : List α

namespace Chunk
variable {α : Type}

def last (k : Chunk α) : Nat := k.off + k.data.length

def Covers (k : Chunk α) (i : Nat) : Prop := k.off ≤ i ∧ i < k.last

end Chunk

variable {α : Type}

/-- From offset `c` on, the chunks are in order and disjoint. -/
def Placed : Nat → List (Chunk α) → Prop
  | _, [] => True
  | c, k :: ks => c ≤ k.off ∧ Placed k.last ks

def assemble (z : α) : Nat → List (Chunk α) → List α
  | _, [] => []
  | c, k :: ks => List.replicate (k.off - c) z ++ (k.data ++ assemble z k.last ks)

/-- Where the last chunk ends, `c` if there is none. -/
def endOf : Nat → List (Chunk α) → Nat
  | c, [] => c
  | _, k :: ks => endOf k.last ks

variable {z : α} {c : Nat} {ks : List (Chunk α)}

theorem placed_of_pairwise (h : ks.Pairwise fun k k' => k.last ≤ k'.off)
    (hc : ∀ k ∈ ks, c ≤ k.off) : Placed c ks := by
  induction ks generalizing c with
  | nil => trivial
  | cons k ks ih =>
    rw [List.pairwise_cons] at h
    exact ⟨hc k List.mem_cons_self, ih h.2 h.1⟩

theorem length_assemble (h : Placed c ks) : c + (assemble z c ks).length = endOf c ks := by
  induction ks generalizing c with
  | nil => rfl
  | cons k ks ih =>
    rw [endOf, ← ih h.2]
    have hle := h.1
    simp only [assemble, List.length_append, List.length_replicate, Chunk.last]
    omega

theorem assemble_chunk (h : Placed c ks) {k : Chunk α} (hk : k ∈ ks) :
    ∃ pre post, assemble z c ks = pre ++ (k.data ++ post) ∧ c + pre.length = k.off := by
  induction ks generalizing c with
  | nil => cases hk
  | cons k' ks ih =>
    have hle := h.1
    rcases List.mem_cons.mp hk with rfl | hk
    · exact ⟨_, _, rfl, by rw [List.length_replicate]; omega⟩
    · obtain ⟨pre, post, heq, hlen⟩ := ih h.2 hk
      refine ⟨List.replicate (k'.off - c) z ++ (k'.data ++ pre), post, ?_, ?_⟩
      · rw [assemble, heq]
        simp only [List.append_assoc]
      · rw [← hlen]
        simp only [List.length_append, List.length_replicate, Chunk.last]
        omega

theorem assemble_gap (h : Placed c ks) {i : Nat} (hi : i < (assemble z c ks).length)
    (hgap : ∀ k ∈ ks, ¬ k.Covers (c + i)) : (assemble z c ks)[i] = z := by
  induction ks generalizing c i with
  | nil => exact absurd hi (Nat.not_lt_zero i)
  | cons k ks ih =>
    have hle := h.1
    have hk := hgap k List.mem_cons_self
    simp only [assemble]
    rcases Nat.lt_or_ge i (k.off - c) with hpad | hpad
    · rw [List.getElem_append_left (by simpa using hpad), List.getElem_replicate]
    · rw [List.getElem_append_right (by simpa using hpad)]
      simp only [List.length_replicate]
      have hafter : k.data.length ≤ i - (k.off - c) := by
        simp only [Chunk.Covers, Chunk.last] at hk
        omega
      rw [List.getElem_append_right hafter]
      refine ih h.2 _ fun k' hk' => ?_
      have hat : k.last + (i - (k.off - c) - k.data.length) = c + i := by
        simp only [Chunk.last]
        omega
      rw [hat]
      exact hgap k' (List.mem_cons_of_mem _ hk')

end CSem

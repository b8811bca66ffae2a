import Mathlib.Data.List.Basic
import Mathlib.Data.Nat.Periodic

/-!
# Terminated tables

A table without a length ends at the first entry of a kind. `Entries read isEnd xs` says that the
entries `0, 1, …` are `xs` as far as `xs` goes and that none of them is an end; a `Table` is followed
by an end. `read k` is entry `k`, when it is there at all.
-/

namespace CSem
variable {α : Type} {read : Nat → Option α} {isEnd : α → Prop} {xs ys : List α}

def Entries (read : Nat → Option α) (isEnd : α → Prop) (xs : List α) : Prop :=
  ∀ k (h : k < xs.length), read k = some xs[k] ∧ ¬ isEnd xs[k]

/-- The entries up to the first end are `xs`. -/
structure Table (read : Nat → Option α) (isEnd : α → Prop) (xs : List α) : Prop where
  entries : Entries read isEnd xs
  stop : ∃ e, read xs.length = some e ∧ isEnd e

namespace Entries

theorem nil : Entries read isEnd [] := fun _ h => absurd h (Nat.not_lt_zero _)

theorem snoc {x : α} (h : Entries read isEnd xs) (hx : read xs.length = some x) (hend : ¬ isEnd x) :
    Entries read isEnd (xs ++ [x]) := by
  intro k hk
  rcases Nat.lt_or_ge k xs.length with hlt | hge
  · rw [List.getElem_append_left hlt]
    exact h k hlt
  · rw [List.length_append, List.length_singleton] at hk
    obtain rfl : k = xs.length := Nat.le_antisymm (Nat.le_of_lt_succ hk) hge
    rw [List.getElem_concat_length rfl]
    exact ⟨hx, hend⟩

theorem cons {x : α} (hx : read 0 = some x) (hend : ¬ isEnd x)
    (h : Entries (fun k => read (k + 1)) isEnd xs) : Entries read isEnd (x :: xs) := by
  intro k hk
  cases k with
  | zero => exact ⟨hx, hend⟩
  | succ k => exact h k (Nat.lt_of_succ_lt_succ hk)

theorem tail {x : α} (h : Entries read isEnd (x :: xs)) :
    Entries (fun k => read (k + 1)) isEnd xs :=
  fun k hk => h (k + 1) (Nat.succ_lt_succ hk)

theorem take (h : Entries read isEnd xs) (n : Nat) : Entries read isEnd (xs.take n) := by
  intro k hk
  rw [List.getElem_take]
  exact h k (Nat.lt_of_lt_of_le hk (List.length_take_le' ..))

theorem eq_of_length (h : Entries read isEnd xs) (h' : Entries read isEnd ys)
    (hlen : xs.length = ys.length) : xs = ys := by
  refine List.ext_getElem hlen fun k hk hk' => ?_
  exact Option.some.inj ((h k hk).1.symm.trans (h' k hk').1)

end Entries

namespace Table

theorem length_le (h : Table read isEnd xs) (h' : Entries read isEnd ys) : ys.length ≤ xs.length := by
  obtain ⟨e, he, hend⟩ := h.stop
  by_contra hlt
  obtain ⟨hread, hnot⟩ := h' xs.length (Nat.lt_of_not_le hlt)
  rw [Option.some.inj (he.symm.trans hread)] at hend
  exact hnot hend

theorem unique (h : Table read isEnd xs) (h' : Table read isEnd ys) : xs = ys :=
  h.entries.eq_of_length h'.entries (Nat.le_antisymm (h'.length_le h.entries) (h.length_le h'.entries))

theorem of_getElem {e : α} (h : ∀ k (hk : k < (xs ++ [e]).length), read k = some (xs ++ [e])[k])
    (hnot : ∀ x ∈ xs, ¬ isEnd x) (hend : isEnd e) : Table read isEnd xs := by
  constructor
  · intro k hk
    have hread := h k (by rw [List.length_append]; omega)
    rw [List.getElem_append_left hk] at hread
    exact ⟨hread, hnot _ (List.getElem_mem hk)⟩
  · have hread := h xs.length (by rw [List.length_append]; exact Nat.lt_succ_self _)
    rw [List.getElem_concat_length rfl] at hread
    exact ⟨e, hread, hend⟩

/-- Where the entries repeat, a table ends before they do. -/
theorem length_lt {p : Nat} (h : Table read isEnd xs) (hp : 0 < p) (hper : ∀ k, read (k + p) = read k) :
    xs.length < p := by
  by_contra hge
  obtain ⟨e, he, hend⟩ := h.stop
  obtain ⟨k, hk⟩ := Nat.exists_eq_add_of_le (Nat.le_of_not_lt hge)
  rw [hk, Nat.add_comm p k, hper] at he
  obtain ⟨hread, hnot⟩ := h.entries k (by omega)
  rw [Option.some.inj (he.symm.trans hread)] at hend
  exact hnot hend

end Table

/-! ### Tables without an end -/

/-- There is an entry at every index, none of them is an end, and `P` holds of them all. -/
def Endless (read : Nat → Option α) (isEnd P : α → Prop) : Prop :=
  ∀ k, ∃ x, read k = some x ∧ ¬ isEnd x ∧ P x

theorem Endless.exists_entries {P : α → Prop} (h : Endless read isEnd P) (n : Nat) :
    ∃ xs, xs.length = n ∧ Entries read isEnd xs ∧ ∀ x ∈ xs, P x := by
  induction n with
  | zero => exact ⟨[], rfl, .nil, by simp⟩
  | succ n ih =>
    obtain ⟨xs, rfl, hxs, hP⟩ := ih
    obtain ⟨x, hx, hend, hPx⟩ := h xs.length
    refine ⟨xs ++ [x], by simp, hxs.snoc hx hend, ?_⟩
    rw [List.forall_mem_append, List.forall_mem_singleton]
    exact ⟨hP, hPx⟩

/-- Where the entries repeat, a period of them goes on for ever. -/
theorem Entries.endless {P : α → Prop} {p : Nat} (h : Entries read isEnd xs) (hP : ∀ x ∈ xs, P x)
    (hlen : xs.length = p) (hp : 0 < p) (hper : Function.Periodic read p) : Endless read isEnd P := by
  intro k
  have hk : k % p < xs.length := by
    rw [hlen]
    exact Nat.mod_lt k hp
  obtain ⟨hread, hend⟩ := h (k % p) hk
  exact ⟨xs[k % p], (hper.map_mod_nat k).symm.trans hread, hend, hP _ (List.getElem_mem hk)⟩

/-- A table read for at most `n` entries: all of a shorter one, the first `n` of a longer one. -/
structure Cut (read : Nat → Option α) (isEnd : α → Prop) (n : Nat) (xs : List α) : Prop where
  entries : Entries read isEnd xs
  stop : xs.length = n ∨ xs.length < n ∧ ∃ e, read xs.length = some e ∧ isEnd e

namespace Cut
variable {n : Nat}

theorem zero : Cut read isEnd 0 xs ↔ xs = [] := by
  constructor
  · rintro ⟨-, hlen | ⟨hlen, -⟩⟩
    · exact List.length_eq_zero_iff.mp hlen
    · exact absurd hlen (Nat.not_lt_zero _)
  · rintro rfl
    exact ⟨.nil, .inl rfl⟩

theorem succ : Cut read isEnd (n + 1) xs ↔ ∃ x, read 0 = some x ∧
    (isEnd x ∧ xs = [] ∨
      ¬ isEnd x ∧ ∃ ys, xs = x :: ys ∧ Cut (fun k => read (k + 1)) isEnd n ys) := by
  constructor
  · rintro ⟨hent, hstop⟩
    cases xs with
    | nil =>
      rcases hstop with hlen | ⟨-, e, he, hend⟩
      · cases hlen
      · exact ⟨e, he, .inl ⟨hend, rfl⟩⟩
    | cons x ys =>
      obtain ⟨hx, hnot⟩ := hent 0 (Nat.succ_pos _)
      refine ⟨x, hx, .inr ⟨hnot, ys, rfl, hent.tail, ?_⟩⟩
      exact hstop.imp Nat.succ.inj (And.imp_left Nat.lt_of_succ_lt_succ)
  · rintro ⟨x, hx, ⟨hend, rfl⟩ | ⟨hnot, ys, rfl, hys⟩⟩
    · exact ⟨.nil, .inr ⟨Nat.succ_pos n, x, hx, hend⟩⟩
    · exact ⟨.cons hx hnot hys.entries,
        hys.stop.imp (congrArg Nat.succ) (And.imp_left Nat.succ_lt_succ)⟩

theorem unique (h : Cut read isEnd n xs) (h' : Cut read isEnd n ys) : xs = ys := by
  induction n generalizing read xs ys with
  | zero => rw [zero.mp h, zero.mp h']
  | succ n ih =>
    obtain ⟨x, hx, h⟩ := succ.mp h
    obtain ⟨y, hy, h'⟩ := succ.mp h'
    obtain rfl : x = y := Option.some.inj (hx.symm.trans hy)
    rcases h with ⟨hend, rfl⟩ | ⟨hnot, xs, rfl, hxs⟩
    · rcases h' with ⟨-, rfl⟩ | ⟨hnot, -⟩
      · rfl
      · exact absurd hend hnot
    · rcases h' with ⟨hend, -⟩ | ⟨-, ys, rfl, hys⟩
      · exact absurd hend hnot
      · rw [ih hxs hys]

/-- What is shorter than the limit has not been cut. -/
theorem table (h : Cut read isEnd n xs) (hlt : xs.length < n) : Table read isEnd xs :=
  ⟨h.entries, (h.stop.resolve_left (Nat.ne_of_lt hlt)).2⟩

end Cut

theorem Table.cut (h : Table read isEnd xs) (n : Nat) : Cut read isEnd n (xs.take n) := by
  refine ⟨h.entries.take n, ?_⟩
  rw [List.length_take]
  rcases Nat.lt_or_ge xs.length n with hlt | hle
  · rw [Nat.min_eq_right (Nat.le_of_lt hlt)]
    exact .inr ⟨hlt, h.stop⟩
  · exact .inl (Nat.min_eq_left hle)

theorem Cut.eq_of_table {n : Nat} (h : Cut read isEnd n xs) (h' : Table read isEnd ys) (hle : ys.length ≤ n) :
    xs = ys := by
  have hcut := h'.cut n
  rw [List.take_of_length_le hle] at hcut
  exact h.unique hcut

/-! ### Lists related entry by entry -/

variable {β : Type} {R : Nat → α → β → Prop} {zs : List β}

/-- Both lists have the same length, and their entries at each index `k` are related by `R k`. -/
structure Pointwise (R : Nat → α → β → Prop) (xs : List α) (zs : List β) : Prop where
  length_eq : xs.length = zs.length
  get : ∀ k (h : k < xs.length) (h' : k < zs.length), R k xs[k] zs[k]

namespace Pointwise

theorem nil : Pointwise R [] [] := ⟨rfl, fun _ h => absurd h (Nat.not_lt_zero _)⟩

theorem imp {R' : Nat → α → β → Prop} (h : Pointwise R xs zs) (hR : ∀ k x z, R k x z → R' k x z) :
    Pointwise R' xs zs :=
  ⟨h.length_eq, fun k hk hk' => hR k _ _ (h.get k hk hk')⟩

theorem exists_left {z : β} (h : Pointwise R xs zs) (hz : z ∈ zs) : ∃ k, ∃ x ∈ xs, R k x z := by
  obtain ⟨k, hk, rfl⟩ := List.getElem_of_mem hz
  have hkx : k < xs.length := h.length_eq ▸ hk
  exact ⟨k, _, List.getElem_mem hkx, h.get k hkx hk⟩

theorem exists_right {x : α} (h : Pointwise R xs zs) (hx : x ∈ xs) : ∃ k, ∃ z ∈ zs, R k x z := by
  obtain ⟨k, hk, rfl⟩ := List.getElem_of_mem hx
  have hkz : k < zs.length := h.length_eq ▸ hk
  exact ⟨k, _, List.getElem_mem hkz, h.get k hk hkz⟩

theorem snoc {x : α} {z : β} (h : Pointwise R xs zs) (hR : R xs.length x z) :
    Pointwise R (xs ++ [x]) (zs ++ [z]) := by
  constructor
  · simp [h.length_eq]
  · intro k hk hk'
    rcases Nat.lt_or_ge k xs.length with hlt | hge
    · rw [List.getElem_append_left hlt, List.getElem_append_left (h.length_eq ▸ hlt)]
      exact h.get k hlt _
    · rw [List.length_append, List.length_singleton] at hk
      obtain rfl : k = xs.length := Nat.le_antisymm (Nat.le_of_lt_succ hk) hge
      rwa [List.getElem_concat_length rfl, List.getElem_concat_length h.length_eq]

end Pointwise

end CSem

import Winlift.CSem.Res
import Winlift.CSem.Word
import Mathlib.Logic.Function.Basic

/-!
# Buffers and pointers

A `Buffer` is an allocated block of `size` bytes; `byte i` means nothing for `i ≥ size`. A read goes
through `readable`, which faults when the bytes asked for are not all inside the block, so that a run
that does not fault has read only inside. Blocks are named by a type `β`, a pointer is a block and an
offset (`Ptr β`), and a memory gives every block its contents: two pointers into one block alias.
-/

namespace CSem

structure Buffer where
  size : Nat
  byte : Nat → UInt8

namespace Buffer

def ofList (l : List UInt8) : Buffer := ⟨l.length, fun i => l.getD i 0⟩

def le16 (b : Buffer) (i : Nat) : UInt16 := ofLe16 (b.byte i) (b.byte (i + 1))

def le32 (b : Buffer) (i : Nat) : UInt32 :=
  ofLe32 (b.byte i) (b.byte (i + 1)) (b.byte (i + 2)) (b.byte (i + 3))

def slice (b : Buffer) (i n : Nat) : List UInt8 := (List.range n).map fun k => b.byte (i + k)

/-- Store `v` at offset `o`, least significant byte first. -/
def patch32 (b : Buffer) (o : Nat) (v : UInt32) : Buffer :=
  { b with byte := fun i => if o ≤ i ∧ i < o + 4 then leByte v (i - o) else b.byte i }

/-- The words `ws` stored at their offsets, one after the other. -/
def patches (b : Buffer) (ws : List (Nat × UInt32)) : Buffer :=
  ws.foldl (fun b w => b.patch32 w.1 w.2) b

variable (b : Buffer) (o : Nat) (v : UInt32)

@[simp] theorem size_ofList (l : List UInt8) : (ofList l).size = l.length := rfl

theorem patch32_inside {i : Nat} (h₁ : o ≤ i) (h₂ : i < o + 4) :
    (b.patch32 o v).byte i = leByte v (i - o) :=
  if_pos ⟨h₁, h₂⟩

theorem patch32_outside {i : Nat} (h : i < o ∨ o + 4 ≤ i) : (b.patch32 o v).byte i = b.byte i :=
  if_neg (by omega)

@[simp] theorem size_patches (ws : List (Nat × UInt32)) : (b.patches ws).size = b.size := by
  induction ws generalizing b with
  | nil => rfl
  | cons w ws ih => exact ih (b.patch32 w.1 w.2)

theorem patches_append (ws ws' : List (Nat × UInt32)) :
    b.patches (ws ++ ws') = (b.patches ws).patches ws' :=
  List.foldl_append

/-- The last of the words `ws` that covers byte `i`. -/
def lastAt (ws : List (Nat × UInt32)) (i : Nat) : Option (Nat × UInt32) :=
  ws.reverse.find? fun w => w.1 ≤ i ∧ i < w.1 + 4

/-- A byte is that of the last word stored over it, and the old one when there is none. -/
theorem byte_patches (ws : List (Nat × UInt32)) (i : Nat) :
    (b.patches ws).byte i = ((lastAt ws i).map fun w => leByte w.2 (i - w.1)).getD (b.byte i) := by
  induction ws generalizing b with
  | nil => rfl
  | cons w ws ih =>
    refine (ih (b.patch32 w.1 w.2)).trans ?_
    rw [lastAt, lastAt, List.reverse_cons, List.find?_append, List.find?_singleton]
    cases ws.reverse.find? fun w => w.1 ≤ i ∧ i < w.1 + 4 with
    | some w' => rfl
    | none =>
      by_cases h : w.1 ≤ i ∧ i < w.1 + 4
      · simp [h, patch32_inside]
      · simp [h, patch32_outside b w.1 w.2 (Decidable.not_and_iff_or_not.mp h |>.imp Nat.lt_of_not_le Nat.le_of_not_lt)]

theorem patches_outside {ws : List (Nat × UInt32)} {i : Nat}
    (h : ∀ w ∈ ws, i < w.1 ∨ w.1 + 4 ≤ i) : (b.patches ws).byte i = b.byte i := by
  have hnone : lastAt ws i = none := by
    rw [lastAt, List.find?_eq_none]
    intro w hw
    have hw := h w (List.mem_reverse.mp hw)
    rw [decide_eq_true_eq]
    omega
  rw [byte_patches, hnone]
  rfl

theorem patches_inside {ws : List (Nat × UInt32)} {w : Nat × UInt32} {i : Nat}
    (h : ws.Pairwise fun w w' => w.1 + 4 ≤ w'.1 ∨ w'.1 + 4 ≤ w.1) (hw : w ∈ ws) (h₁ : w.1 ≤ i)
    (h₂ : i < w.1 + 4) : (b.patches ws).byte i = leByte w.2 (i - w.1) := by
  induction ws generalizing b with
  | nil => cases hw
  | cons w' ws ih =>
    rw [List.pairwise_cons] at h
    rcases List.mem_cons.mp hw with rfl | hw
    · have hlater : ∀ w' ∈ ws, i < w'.1 ∨ w'.1 + 4 ≤ i := by
        intro w' hw'
        have := h.1 w' hw'
        omega
      exact (patches_outside (b.patch32 w.1 w.2) hlater).trans (patch32_inside _ _ _ h₁ h₂)
    · exact ih (b.patch32 w'.1 w'.2) h.2 hw

/-- A word that no later one overlaps is there. -/
theorem le32_patches {pre post : List (Nat × UInt32)} {w : Nat × UInt32}
    (h : ∀ w' ∈ post, w.1 + 4 ≤ w'.1 ∨ w'.1 + 4 ≤ w.1) : (b.patches (pre ++ w :: post)).le32 w.1 = w.2 := by
  have hbyte : ∀ k < 4, (b.patches (pre ++ w :: post)).byte (w.1 + k) = leByte w.2 k := by
    intro k hk
    rw [patches_append]
    refine (patches_outside ((b.patches pre).patch32 w.1 w.2) fun w' hw' => ?_).trans ?_
    · have := h w' hw'
      omega
    · rw [patch32_inside _ _ _ (by omega) (by omega), Nat.add_sub_cancel_left]
  have h₀ := hbyte 0 (by omega)
  rw [Nat.add_zero] at h₀
  rw [le32, h₀, hbyte 1 (by omega), hbyte 2 (by omega), hbyte 3 (by omega), ofLe32_leByte]

@[simp] theorem length_slice (n : Nat) : (b.slice o n).length = n := by simp [slice]

theorem getElem_slice {i n k : Nat} (h : k < (b.slice i n).length) :
    (b.slice i n)[k] = b.byte (i + k) := by
  simp [slice]

theorem byte_ofList {l : List UInt8} {i : Nat} (h : i < l.length) : (ofList l).byte i = l[i] := by
  simp [ofList, h]

def Has (l : List UInt8) : Prop := ∀ k (h : k < l.length), b.byte (o + k) = l[k]

variable {b o}

theorem has_append {l m : List UInt8} : b.Has o (l ++ m) ↔ b.Has o l ∧ b.Has (o + l.length) m := by
  constructor
  · intro h
    constructor
    · intro k hk
      rw [h k (by rw [List.length_append]; omega), List.getElem_append_left hk]
    · intro k hk
      rw [Nat.add_assoc, h (l.length + k) (by rw [List.length_append]; omega),
        List.getElem_append_right (by omega)]
      simp
  · rintro ⟨hl, hm⟩ k hk
    rcases Nat.lt_or_ge k l.length with hkl | hkl
    · rw [hl k hkl, List.getElem_append_left hkl]
    · rw [List.getElem_append_right (by omega), ← hm _ (by rw [List.length_append] at hk; omega)]
      congr 1
      omega

/-- Each part of a concatenation is at the sum of the lengths before it. -/
theorem has_flatten {ls : List (List UInt8)} (h : b.Has o ls.flatten) {k : Nat} (hk : k < ls.length) :
    b.Has (o + ((ls.take k).map List.length).sum) ls[k] := by
  induction ls generalizing o k with
  | nil => cases hk
  | cons l ls ih =>
    rw [List.flatten_cons, has_append] at h
    cases k with
    | zero => exact h.1
    | succ k =>
      rw [List.take_succ_cons, List.map_cons, List.sum_cons, ← Nat.add_assoc]
      exact ih h.2 (Nat.lt_of_succ_lt_succ hk)

/-- The same with parts of equal length. -/
theorem has_flatten_of_length {ls : List (List UInt8)} {n : Nat} (hlen : ∀ l ∈ ls, l.length = n)
    (h : b.Has o ls.flatten) {k : Nat} (hk : k < ls.length) : b.Has (o + n * k) ls[k] := by
  have hsum : ((ls.take k).map List.length).sum = n * k := by
    rw [List.map_eq_replicate_iff.mpr fun l hl => hlen l (List.mem_of_mem_take hl),
      List.sum_replicate_nat, List.length_take, Nat.min_eq_left (Nat.le_of_lt hk), Nat.mul_comm]
  exact hsum ▸ has_flatten h hk

theorem Has.le16 {v : UInt16} (h : b.Has o (le16Bytes v)) : b.le16 o = v := by
  have h₀ := h 0 (by simp)
  have h₁ := h 1 (by simp)
  simp only [Buffer.le16, Nat.add_zero] at h₀ ⊢
  rw [h₀, h₁]
  exact ofLe16_le16Bytes v

theorem Has.le32 {v : UInt32} (h : b.Has o (le32Bytes v)) : b.le32 o = v := by
  have h₀ := h 0 (by simp)
  have h₁ := h 1 (by simp)
  have h₂ := h 2 (by simp)
  have h₃ := h 3 (by simp)
  simp only [Buffer.le32, Nat.add_zero] at h₀ ⊢
  rw [h₀, h₁, h₂, h₃]
  exact ofLe32_leByte v

theorem Has.slice {l : List UInt8} (h : b.Has o l) : b.slice o l.length = l := by
  refine List.ext_getElem (length_slice ..) fun k hk hkl => ?_
  rw [getElem_slice, h k hkl]

theorem has_ofList (pre l post : List UInt8) : (ofList (pre ++ (l ++ post))).Has pre.length l := by
  intro k hk
  have hlen : pre.length + k < (pre ++ (l ++ post)).length := by
    simp only [List.length_append]
    omega
  rw [byte_ofList hlen, List.getElem_append_right (by omega), List.getElem_append_left (by omega)]
  simp

end Buffer

/-! ### Reading -/

/-- The `n` bytes at the address `p`, relative to the start of the block, are read. -/
def readableAt {ε : Type} (b : Buffer) (p : Int) (n : Nat) : Res ε Nat :=
  if 0 ≤ p ∧ p + n ≤ b.size then .ok p.toNat else .fault .outsideRead

/-- The `n` bytes a pointer into the block points to are read. -/
def readable {ε : Type} (b : Buffer) (p : Option Nat) (n : Nat) : Res ε Nat :=
  match p with
  | none => .fault .nullRead
  | some i => readableAt b i n

section
variable {ε : Type} {b : Buffer} {n : Nat}

theorem readableAt_natCast {i : Nat} : (readableAt b i n : Res ε Nat) =
    if i + n ≤ b.size then .ok i else .fault .outsideRead := by
  have h : (0 ≤ (i : Int) ∧ (i : Int) + n ≤ b.size) ↔ i + n ≤ b.size := by omega
  simp only [readableAt, h, Int.toNat_natCast]

theorem readable_of_le {i : Nat} (h : i + n ≤ b.size) : (readable b (some i) n : Res ε Nat) = .ok i := by
  rw [readable, readableAt_natCast, if_pos h]

theorem readable_eq_ok {p : Option Nat} {i : Nat} :
    (readable b p n : Res ε Nat) = .ok i ↔ p = some i ∧ i + n ≤ b.size := by
  cases p with
  | none => simp [readable]
  | some j =>
    rw [readable, readableAt_natCast]
    split
    · simp only [Res.ok.injEq, Option.some.injEq]
      constructor
      · rintro rfl; exact ⟨rfl, ‹_›⟩
      · exact And.left
    · simp only [reduceCtorEq, false_iff, Option.some.injEq]
      rintro ⟨rfl, h⟩; exact absurd h ‹_›

@[simp] theorem readable_ne_timeout (p : Option Nat) : (readable b p n : Res ε Nat) ≠ .timeout := by
  cases p with
  | none => simp [readable]
  | some i => rw [readable, readableAt]; split <;> simp

theorem wp_readable {F : Fault → Prop} {i : Nat} {Q : Nat → Prop} (h : i + n ≤ b.size) :
    Res.wp F (readable b (some i) n : Res ε Nat) Q ↔ Q i := by
  rw [readable_of_le h, Res.wp_ok]

theorem wp_readableAt {F : Fault → Prop} {p : Int} {Q : Nat → Prop} (h₀ : 0 ≤ p)
    (h : p + n ≤ b.size) : Res.wp F (readableAt b p n : Res ε Nat) Q ↔ Q p.toNat := by
  rw [readableAt, if_pos ⟨h₀, h⟩, Res.wp_ok]

end

def store32 {ε : Type} (b : Buffer) (o : Nat) (v : UInt32) : Res ε Buffer :=
  if o + 4 ≤ b.size then .ok (b.patch32 o v) else .fault .outsideStore

theorem store32_eq_ok {ε : Type} {b b' : Buffer} {o : Nat} {v : UInt32} :
    (store32 b o v : Res ε Buffer) = .ok b' ↔ o + 4 ≤ b.size ∧ b' = b.patch32 o v := by
  unfold store32; split <;> simp [*, eq_comm]

def store8 {ε : Type} (b : Buffer) (o : Nat) (v : UInt8) : Res ε Buffer :=
  if o < b.size then .ok { b with byte := Function.update b.byte o v } else .fault .outsideStore

theorem store8_of_lt {ε : Type} {b : Buffer} {o : Nat} (v : UInt8) (h : o < b.size) :
    (store8 b o v : Res ε Buffer) = .ok { b with byte := Function.update b.byte o v } :=
  if_pos h

/-- The bytes before the stored one, and then that. -/
theorem Buffer.Has.store8 {b : Buffer} {l : List UInt8} (h : b.Has 0 l) (v : UInt8) :
    Buffer.Has { b with byte := Function.update b.byte l.length v } 0 (l ++ [v]) := by
  intro k hk
  dsimp only
  rw [List.length_append, List.length_singleton] at hk
  rcases Nat.lt_or_eq_of_le (Nat.le_of_lt_succ hk) with hlt | rfl
  · rw [Function.update_of_ne (by omega), h k hlt, List.getElem_append_left hlt]
  · simp

/-! ### Pointers -/

structure Ptr (β : Type) where
  block : β
  off : Nat
deriving DecidableEq, Repr

abbrev Mem (β : Type) := β → Buffer

namespace Ptr
variable {β : Type}

def Holds (mem : Mem β) (p : Ptr β) (n : Nat) : Prop := p.off + n ≤ (mem p.block).size

instance (mem : Mem β) (p : Ptr β) (n : Nat) : Decidable (p.Holds mem n) :=
  inferInstanceAs (Decidable (_ ≤ _))

def bytes (mem : Mem β) (p : Ptr β) (n : Nat) : List UInt8 := (mem p.block).slice p.off n

@[simp] theorem length_bytes (mem : Mem β) (p : Ptr β) (n : Nat) : (p.bytes mem n).length = n :=
  Buffer.length_slice ..

end Ptr

end CSem

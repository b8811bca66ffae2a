import Winlift.CSem.Memory
import Winlift.CSem.Extent

/-!
# Regions of a loaded program

A `Region` is a part of a file and where it goes in memory: `filesz` bytes from offset `off` on go to
the addresses from `addr` on, and zeros fill it up to `memsz`. That is a segment of an ELF file as well
as a section of a PE file. When the regions of a program are apart in the file, a word stored in the file
where an address is backed is a word stored at that address (`patched_of_loaded`).
-/

namespace CSem

structure Region where
  addr : Nat
  off : Nat
  filesz : Nat
  memsz : Nat
deriving DecidableEq, Repr

namespace Region
open Extent

def addrs (g : Region) : Extent := ⟨g.addr, g.addr + max g.memsz g.filesz⟩

def file (g : Region) : Extent := ⟨g.off, g.off + g.filesz⟩

def shift (n : Nat) (g : Region) : Region := { g with addr := n + g.addr }

/-- The region has been loaded into `mem` from a file with the bytes `byte`. -/
structure Loaded (byte mem : Nat → UInt8) (g : Region) : Prop where
  data : ∀ k < g.filesz, mem (g.addr + k) = byte (g.off + k)
  zeros : ∀ k, g.filesz ≤ k → k < g.memsz → mem (g.addr + k) = 0

theorem Loaded.unshift {byte mem : Nat → UInt8} {g : Region} {n : Nat}
    (h : (g.shift n).Loaded byte mem) : g.Loaded byte fun x => mem (n + x) where
  data k hk := by rw [← Nat.add_assoc]; exact h.data k hk
  zeros k hk hk' := by rw [← Nat.add_assoc]; exact h.zeros k hk hk'

/-- The byte at offset `o` goes to the address `x`. -/
def Backs (g : Region) (x o : Nat) : Prop := ∃ k < g.filesz, x = g.addr + k ∧ o = g.off + k

theorem backs_data {g : Region} {k : Nat} (hk : k < g.filesz) : g.Backs (g.addr + k) (g.off + k) :=
  ⟨k, hk, rfl, rfl⟩

theorem mem_addrs_of_lt {g : Region} {k : Nat} (hk : k < max g.memsz g.filesz) :
    g.addr + k ∈ g.addrs :=
  ⟨Nat.le_add_right .., Nat.add_lt_add_left hk _⟩

theorem Backs.mem_file {g : Region} {x o : Nat} (h : g.Backs x o) : o ∈ g.file := by
  obtain ⟨k, hk, -, rfl⟩ := h
  simp only [mem_iff, file]
  omega

theorem exists_loaded (byte : Nat → UInt8) {l : List Region} (h : (l.map addrs).Pairwise Apart) :
    ∃ mem, ∀ g ∈ l, g.Loaded byte mem := by
  refine ⟨fun x => (l.find? fun g => x ∈ g.addrs).elim 0 fun g =>
    if x - g.addr < g.filesz then byte (g.off + (x - g.addr)) else 0, fun g hg => ?_⟩
  have hfind : ∀ k, g.addr + k ∈ g.addrs →
      (l.find? fun g' => g.addr + k ∈ g'.addrs) = some g := by
    intro k hk
    obtain ⟨g', hg'⟩ : ∃ g', (l.find? fun g' => g.addr + k ∈ g'.addrs) = some g' := by
      rw [← Option.isSome_iff_exists, List.find?_isSome]
      exact ⟨g, hg, decide_eq_true hk⟩
    rw [hg', eq_of_mem h (List.mem_of_find?_eq_some hg') hg
      (of_decide_eq_true (List.find?_some hg' :)) hk]
  constructor
  · intro k hk
    rw [hfind k (mem_addrs_of_lt (by omega)), Option.elim_some, Nat.add_sub_cancel_left, if_pos hk]
  · intro k hk hk'
    rw [hfind k (mem_addrs_of_lt (by omega)), Option.elim_some, Nat.add_sub_cancel_left,
      if_neg (Nat.not_lt.mpr hk)]

theorem Backs.addr_inj {l : List Region} {g g' : Region} {x x' o : Nat}
    (h : (l.map file).Pairwise Apart) (hg : g ∈ l) (hg' : g' ∈ l) (hb : g.Backs x o)
    (hb' : g'.Backs x' o) : x = x' := by
  obtain rfl := eq_of_mem h hg hg' hb.mem_file hb'.mem_file
  obtain ⟨k, -, rfl, rfl⟩ := hb
  obtain ⟨k', -, rfl, ho⟩ := hb'
  rw [Nat.add_left_cancel ho]

end Region

/-! ### Words stored through the map -/

open Extent Region

def word (n : Nat) : Extent := ⟨n, n + 4⟩

theorem mem_word {i n : Nat} : i ∈ word n ↔ n ≤ i ∧ i < n + 4 := Iff.rfl

/-- The word at offset `o` goes to the address `x`. -/
def BacksWord (l : List Region) (x o : Nat) : Prop := ∃ g ∈ l, ∀ k < 4, g.Backs (x + k) (o + k)

section
variable {l : List Region} {g : Region} {x x' o o' : Nat}

theorem BacksWord.address (h : (l.map file).Pairwise Apart) (hw : BacksWord l x o) (hg : g ∈ l)
    (hb : g.Backs x' o') (ho : o' ∈ word o) : x' = x + (o' - o) := by
  obtain ⟨g', hg', hw⟩ := hw
  rw [mem_word] at ho
  have hk := hw (o' - o) (by omega)
  rw [Nat.add_sub_cancel' ho.1] at hk
  exact Backs.addr_inj h hg hg' hb hk

theorem BacksWord.apart (h : (l.map file).Pairwise Apart) (hw : BacksWord l x o)
    (hw' : BacksWord l x' o') (hx : (word x).Apart (word x')) : (word o).Apart (word o') := by
  rw [apart_iff]
  intro i hi hi'
  obtain ⟨g, hg, hb⟩ := hw
  rw [mem_word] at hi
  have hk := hb (i - o) (by omega)
  rw [Nat.add_sub_cancel' hi.1] at hk
  have haddr := hw'.address h hg hk hi'
  rw [mem_word] at hi'
  exact hx.not_mem (mem_word.mpr (by omega)) (mem_word.mpr (show x' ≤ x + (i - o) ∧ _ by omega))

end

/-- A word stored at offset `off` of the file in order to stand at the address `addr`. -/
structure Store where
  addr : Nat
  off : Nat
  value : UInt32

/-- The words are in memory at their addresses, and elsewhere it holds what the file has. -/
structure Patched (l : List Region) (byte mem : Nat → UInt8) (ws : List Store) : Prop where
  words : ∀ w ∈ ws, ∀ k < 4, mem (w.addr + k) = leByte w.value k
  others : ∀ g ∈ l, ∀ k < g.filesz, (∀ w ∈ ws, g.addr + k ∉ word w.addr) →
    mem (g.addr + k) = byte (g.off + k)
  zeros : ∀ g ∈ l, ∀ k, g.filesz ≤ k → k < g.memsz → mem (g.addr + k) = 0

/-- Words stored in the file through the map are stored in memory. -/
theorem patched_of_loaded {l : List Region} (hfile : (l.map file).Pairwise Apart) {ws : List Store}
    (hmap : ∀ w ∈ ws, BacksWord l w.addr w.off)
    (hws : (ws.map fun w => word w.addr).Pairwise Apart) {b : Buffer} {mem : Nat → UInt8}
    (h : ∀ g ∈ l, g.Loaded (b.patches (ws.map fun w => (w.off, w.value))).byte mem) :
    Patched l b.byte mem ws := by
  have hoffs : (ws.map fun w => (w.off, w.value)).Pairwise fun w w' =>
      w.1 + 4 ≤ w'.1 ∨ w'.1 + 4 ≤ w.1 := by
    rw [List.pairwise_map] at hws ⊢
    refine hws.imp_of_mem fun {w w'} hw hw' hapart => ?_
    have hoff := (hmap w hw).apart hfile (hmap w' hw') hapart
    simp only [Apart, word] at hoff
    omega
  refine ⟨fun w hw k hk => ?_, fun g hg k hk hout => ?_, fun g hg => (h g hg).zeros⟩
  · obtain ⟨g, hg, hb⟩ := hmap w hw
    obtain ⟨j, hj, hx, ho⟩ := hb k hk
    rw [hx, (h g hg).data j hj, ← ho,
      b.patches_inside hoffs (List.mem_map_of_mem hw) (Nat.le_add_right ..) (Nat.add_lt_add_left hk _),
      Nat.add_sub_cancel_left]
  · rw [(h g hg).data k hk, b.patches_outside]
    rw [List.forall_mem_map]
    intro w hw
    by_contra hin
    have ho : g.off + k ∈ word w.off := by
      rw [mem_word]
      omega
    have haddr := (hmap w hw).address hfile hg (backs_data hk) ho
    rw [mem_word] at ho
    exact hout w hw (mem_word.mpr (by omega))

end CSem

import Winlift.PeRelocs

/-!
# The walk over a relocation directory

A `Chain` is a run of blocks of the directory, each one starting where the 32-bit sum of the sizes
before it says. Both passes follow the chain from offset 0 to the first offset that is not below
`dir_size`: `countRelocs_eq` and `fillRelocs_eq` give their results as functions of its blocks. The
first pass stops iff the offsets of the chain never repeat.
-/

namespace Winlift
open CSem

/-- A block of a relocation directory: its offset in the directory and its header. -/
structure RelocBlock where
  off : UInt32
  header : PeBaseRelocationBlock
deriving DecidableEq, Repr

namespace RelocBlock

def size (b : RelocBlock) : Nat := b.header.sizeOfBlock.toNat

def entries (b : RelocBlock) : Nat := (b.size - 8) / 2

end RelocBlock

def sizeSum (bs : List RelocBlock) : Nat := (bs.map RelocBlock.size).sum

def entrySum (bs : List RelocBlock) : Nat := (bs.map RelocBlock.entries).sum

theorem nEntries_eq {blk : PeBaseRelocationBlock} (h : 8 ≤ blk.sizeOfBlock.toNat) :
    blk.nEntries = ((blk.sizeOfBlock.toNat - 8) / 2 : Nat) := by
  have hlt := blk.sizeOfBlock.toNat_lt
  have e : (blk.sizeOfBlock.toNat + (2 ^ 64 - 8)) % 2 ^ 64 / 2 = (blk.sizeOfBlock.toNat - 8) / 2 := by
    omega
  rw [PeBaseRelocationBlock.nEntries, e]
  exact int32_of_nat_lt (by omega)

section chain
variable (img : PeImage) (dirRva dirSize : UInt32)

/-- The header the first pass accepts at offset `o`: mapped, and of at least 8 bytes. -/
def blockAt (o : UInt32) : Option PeBaseRelocationBlock :=
  (peRvaToPtr img (dirRva + o) 8).bind fun p =>
    let blk := peBaseRelocationBlockAt img.raw p
    if blk.sizeOfBlock < 8 then none else some blk

def nextOff (o : UInt32) : Option UInt32 :=
  if o < dirSize then (blockAt img dirRva o).map fun blk => o + blk.sizeOfBlock else none

/-- `Chain o bs o'`: from offset `o` the blocks `bs` lead to offset `o'`. -/
inductive Chain : UInt32 → List RelocBlock → UInt32 → Prop
  | nil (o : UInt32) : Chain o [] o
  | cons {o o' : UInt32} {blk : PeBaseRelocationBlock} {bs : List RelocBlock} (hlt : o < dirSize)
      (hblk : blockAt img dirRva o = some blk) (hbs : Chain (o + blk.sizeOfBlock) bs o') :
      Chain o (⟨o, blk⟩ :: bs) o'

/-- The blocks `bs` take the walk from offset 0 to its end. -/
def Walk (bs : List RelocBlock) : Prop := ∃ o, Chain img dirRva dirSize 0 bs o ∧ ¬ o < dirSize

end chain

variable {img : PeImage} {dirRva dirSize : UInt32} {o o' : UInt32} {bs : List RelocBlock}

theorem blockAt_eq_some {blk : PeBaseRelocationBlock} : blockAt img dirRva o = some blk ↔
    ∃ p, peRvaToPtr img (dirRva + o) 8 = some p ∧ blk = peBaseRelocationBlockAt img.raw p ∧
      8 ≤ blk.sizeOfBlock.toNat := by
  unfold blockAt
  cases hp : peRvaToPtr img (dirRva + o) 8 with
  | none => simp
  | some p =>
    simp only [Option.bind_some, Option.some.injEq, exists_eq_left']
    split
    · rename_i h
      have h' : (peBaseRelocationBlockAt img.raw p).sizeOfBlock.toNat < 8 := h
      simp only [reduceCtorEq, false_iff, not_and, Nat.not_le]
      rintro rfl; exact h'
    · rename_i h
      have h' : 8 ≤ (peBaseRelocationBlockAt img.raw p).sizeOfBlock.toNat := Nat.le_of_not_lt h
      simp only [Option.some.injEq]
      constructor
      · rintro rfl; exact ⟨rfl, h'⟩
      · rintro ⟨rfl, -⟩; rfl

namespace Chain

theorem size_ge (h : Chain img dirRva dirSize o bs o') : ∀ b ∈ bs, 8 ≤ b.size := by
  induction h with
  | nil => simp
  | cons hlt hblk hbs ih =>
    intro b hb
    rcases List.mem_cons.mp hb with rfl | hb
    · obtain ⟨p, -, -, h8⟩ := blockAt_eq_some.mp hblk
      exact h8
    · exact ih b hb

theorem end_eq (h : Chain img dirRva dirSize o bs o') :
    o'.toNat = (o.toNat + sizeSum bs) % 2 ^ 32 := by
  induction h with
  | nil o => simp [sizeSum, Nat.mod_eq_of_lt o.toNat_lt]
  | @cons o o' blk bs hlt hblk hbs ih =>
    rw [ih, UInt32.toNat_add]
    simp only [sizeSum, List.map_cons, List.sum_cons, RelocBlock.size]
    omega

theorem append {bs' : List RelocBlock} {o'' : UInt32} (h : Chain img dirRva dirSize o bs o')
    (h' : Chain img dirRva dirSize o' bs' o'') : Chain img dirRva dirSize o (bs ++ bs') o'' := by
  induction h with
  | nil => exact h'
  | cons hlt hblk hbs ih => exact .cons hlt hblk (ih h')

theorem append_inv {xs ys : List RelocBlock} (h : Chain img dirRva dirSize o (xs ++ ys) o') :
    ∃ m, Chain img dirRva dirSize o xs m ∧ Chain img dirRva dirSize m ys o' := by
  induction xs generalizing o with
  | nil => exact ⟨o, .nil o, h⟩
  | cons x xs ih =>
    cases h with
    | cons hlt hblk hbs =>
      obtain ⟨m, h₁, h₂⟩ := ih hbs
      exact ⟨m, .cons hlt hblk h₁, h₂⟩

theorem orbit (h : Chain img dirRva dirSize o bs o') :
    orbit (nextOff img dirRva dirSize) bs.length o = some o' := by
  induction h with
  | nil => rfl
  | cons hlt hblk hbs ih =>
    rw [List.length_cons, CSem.orbit, nextOff, if_pos hlt, hblk]
    exact ih

theorem of_orbit {n : Nat} (h : CSem.orbit (nextOff img dirRva dirSize) n o = some o') :
    ∃ bs, bs.length = n ∧ Chain img dirRva dirSize o bs o' := by
  induction n generalizing o with
  | zero =>
    cases h
    exact ⟨[], rfl, .nil _⟩
  | succ n ih =>
    rw [CSem.orbit, nextOff] at h
    split at h
    · rename_i hlt
      cases hblk : blockAt img dirRva o with
      | none => rw [hblk] at h; cases h
      | some blk =>
        rw [hblk] at h
        obtain ⟨bs, hlen, hbs⟩ := ih h
        exact ⟨⟨o, blk⟩ :: bs, by simp [hlen], .cons hlt hblk hbs⟩
    · cases h

end Chain

/-! ### The first pass -/

theorem countStep_more {s : CountState} {blk : PeBaseRelocationBlock} (hlt : s.consumed < dirSize)
    (hblk : blockAt img dirRva s.consumed = some blk) : countStep img dirRva dirSize s =
      .ok (.more ⟨s.consumed + blk.sizeOfBlock, int32 (s.count + blk.nEntries)⟩) := by
  obtain ⟨p, hp, rfl, h8⟩ := blockAt_eq_some.mp hblk
  have hr : ¬ (peBaseRelocationBlockAt img.raw p).sizeOfBlock < 8 := Nat.not_lt.mpr h8
  simp only [countStep, hlt, ↓reduceIte, hp, Res.orReject, Res.ok_bind,
    readable_of_rva (n := peBaseRelocationBlockSize) hp rfl, Res.rejectIf_of_not _ hr]

theorem countStep_err {s : CountState} (hlt : s.consumed < dirSize)
    (hblk : blockAt img dirRva s.consumed = none) : ∃ e, countStep img dirRva dirSize s = .err e := by
  unfold blockAt at hblk
  cases hp : peRvaToPtr img (dirRva + s.consumed) 8 with
  | none =>
    simp only [countStep, hlt, ↓reduceIte, hp, Res.orReject, Res.err_bind]
    exact ⟨_, rfl⟩
  | some p =>
    rw [hp] at hblk
    have hr : (peBaseRelocationBlockAt img.raw p).sizeOfBlock < 8 := by
      by_contra hr; simp [hr] at hblk
    simp only [countStep, hlt, ↓reduceIte, hp, Res.orReject, Res.ok_bind,
      readable_of_rva (n := peBaseRelocationBlockSize) hp rfl, Res.rejectIf_of _ hr, Res.err_bind]
    exact ⟨_, rfl⟩

theorem countStep_done {s : CountState} (hge : ¬ s.consumed < dirSize) :
    countStep img dirRva dirSize s = .ok (.done s.count) := by
  simp [countStep, hge]

theorem countRelocs_timeout_iff (n : Nat) : countRelocs n img dirRva dirSize = .timeout ↔
    orbit (nextOff img dirRva dirSize) n 0 ≠ none := by
  refine loop_timeout_iff CountState.consumed (nextOff img dirRva dirSize) ?_ ?_ n _
  · intro s s' hs
    by_cases hlt : s.consumed < dirSize
    · cases hblk : blockAt img dirRva s.consumed with
      | none =>
        obtain ⟨e, he⟩ := countStep_err hlt hblk
        rw [he] at hs; cases hs
      | some blk =>
        rw [countStep_more hlt hblk] at hs
        cases hs
        simp [nextOff, hlt, hblk]
    · rw [countStep_done hlt] at hs; cases hs
  · intro s hs
    by_cases hlt : s.consumed < dirSize
    · cases hblk : blockAt img dirRva s.consumed with
      | none =>
        obtain ⟨e, he⟩ := countStep_err hlt hblk
        exact ⟨by simp [nextOff, hblk], by rw [he]; simp⟩
      | some blk => exact absurd (countStep_more hlt hblk) (hs _)
    · exact ⟨by simp [nextOff, hlt], by rw [countStep_done hlt]; simp⟩

/-- Along a chain to the end of the directory, the first pass adds up the entries. -/
theorem countLoop_eq (h : Chain img dirRva dirSize o bs o') (hend : ¬ o' < dirSize) {fuel : Nat}
    (hfuel : bs.length < fuel) {c : Int} (hc : int32 c = c) :
    loop (countStep img dirRva dirSize) fuel ⟨o, c⟩ = .ok (int32 (c + entrySum bs)) := by
  induction h generalizing fuel c with
  | nil o =>
    obtain ⟨fuel, rfl⟩ := Nat.exists_eq_add_of_lt hfuel
    rw [loop_done (countStep_done (s := ⟨o, c⟩) hend)]
    simp [entrySum, hc]
  | @cons o o' blk bs hlt hblk hbs ih =>
    rw [List.length_cons] at hfuel
    obtain ⟨fuel, rfl⟩ := Nat.exists_eq_add_of_lt hfuel
    obtain ⟨p, -, -, h8⟩ := blockAt_eq_some.mp hblk
    have hstep := countStep_more (s := ⟨o, c⟩) hlt hblk
    rw [loop_more hstep, ih hend (by omega) (int32_int32 _), int32_add, nEntries_eq h8]
    simp only [entrySum, List.map_cons, List.sum_cons, RelocBlock.entries, RelocBlock.size,
      Nat.cast_add, Int.add_assoc]

theorem countLoop_err (h : Chain img dirRva dirSize o bs o') (hlt' : o' < dirSize)
    (hbad : blockAt img dirRva o' = none) {fuel : Nat} (hfuel : bs.length < fuel) {c count : Int} :
    loop (countStep img dirRva dirSize) fuel ⟨o, c⟩ ≠ .ok count := by
  induction h generalizing fuel c with
  | nil o =>
    obtain ⟨fuel, rfl⟩ := Nat.exists_eq_add_of_lt hfuel
    obtain ⟨e, he⟩ := countStep_err (s := ⟨o, c⟩) hlt' hbad
    rw [loop_err he]
    simp
  | @cons o o' blk bs hlt hblk hbs ih =>
    rw [List.length_cons] at hfuel
    obtain ⟨fuel, rfl⟩ := Nat.exists_eq_add_of_lt hfuel
    rw [loop_more (countStep_more (s := ⟨o, c⟩) hlt hblk)]
    exact ih hlt' hbad (by omega)

theorem countRelocs_eq (h : Chain img dirRva dirSize 0 bs o') (hend : ¬ o' < dirSize) {fuel : Nat}
    (hfuel : bs.length < fuel) : countRelocs fuel img dirRva dirSize = .ok (int32 (entrySum bs)) := by
  rw [countRelocs, countLoop_eq h hend hfuel rfl, Int.zero_add]

theorem countRelocs_ok {fuel : Nat} {count : Int}
    (h : countRelocs fuel img dirRva dirSize = .ok count) :
    ∃ bs, Walk img dirRva dirSize bs ∧ bs.length < fuel ∧ count = int32 (entrySum bs) := by
  have hto : orbit (nextOff img dirRva dirSize) fuel 0 = none := by
    by_contra hne
    rw [(countRelocs_timeout_iff fuel).mpr hne] at h
    cases h
  -- the last offset the walk reaches
  obtain ⟨n, hn, hlast⟩ : ∃ n, n < fuel ∧ (orbit (nextOff img dirRva dirSize) n 0 ≠ none ∧
      orbit (nextOff img dirRva dirSize) (n + 1) 0 = none) := by
    induction fuel with
    | zero => cases hto
    | succ m ih =>
      by_cases hm : orbit (nextOff img dirRva dirSize) m 0 = none
      · have hne : countRelocs m img dirRva dirSize ≠ .timeout := fun ht =>
          (countRelocs_timeout_iff m).mp ht hm
        obtain ⟨n, hn, hl⟩ := ih ((loop_mono hne 1).symm.trans h) hm
        exact ⟨n, Nat.lt_succ_of_lt hn, hl⟩
      · exact ⟨m, Nat.lt_succ_self m, hm, hto⟩
  obtain ⟨o, ho⟩ := Option.ne_none_iff_exists'.mp hlast.1
  obtain ⟨bs, hlen, hbs⟩ := Chain.of_orbit ho
  have hnext : nextOff img dirRva dirSize o = none := by
    have h₁ := hlast.2
    rw [orbit_add, ho, Option.bind_some, orbit] at h₁
    cases hno : nextOff img dirRva dirSize o with
    | none => rfl
    | some o' => rw [hno] at h₁; cases h₁
  by_cases hlt : o < dirSize
  · -- a bad header at `o` would have been an error
    have hblk : blockAt img dirRva o = none := by
      rw [nextOff, if_pos hlt] at hnext
      exact Option.map_eq_none_iff.mp hnext
    exact absurd h (countLoop_err hbs hlt hblk (by omega))
  · refine ⟨bs, ⟨o, hbs, hlt⟩, by omega, ?_⟩
    rw [countRelocs_eq hbs hlt (by omega)] at h
    exact (Res.ok.inj h).symm

/-! ### The second pass -/

def fillBlocks (img : PeImage) (dirRva : UInt32) : List RelocBlock → List RelocStore → FillRun
  | [], stores => ⟨stores, .ok ()⟩
  | b :: bs, stores =>
    let run := fillBlock img dirRva b.off b.header stores
    match run.result with
    | .ok () => fillBlocks img dirRva bs run.stores
    | _ => run

/-- A pass over a block the first pass accepted: its header is mapped, so the unchecked lookup is
harmless. -/
theorem fillStep_block {s : FillState} {blk : PeBaseRelocationBlock} (hlt : s.consumed < dirSize)
    (hblk : blockAt img dirRva s.consumed = some blk) {run : FillRun}
    (hrun : fillBlock img dirRva s.consumed blk s.stores = run) :
    fillStep img dirRva dirSize s =
      match run.result with
      | .ok () => .more ⟨s.consumed + blk.sizeOfBlock, run.stores⟩
      | _ => .done run := by
  obtain ⟨p, hp, rfl, -⟩ := blockAt_eq_some.mp hblk
  cases hres : run.result <;>
    simp only [fillStep, hlt, ↓reduceIte, hp, readable_of_rva (n := peBaseRelocationBlockSize) hp rfl,
      hrun, hres]

theorem fillLoop_eq (h : Chain img dirRva dirSize o bs o') (hend : ¬ o' < dirSize) {fuel : Nat}
    (hfuel : bs.length < fuel) (stores : List RelocStore) :
    loop (fun s => (.ok (fillStep img dirRva dirSize s) : Res PeError _)) fuel ⟨o, stores⟩ =
      .ok (fillBlocks img dirRva bs stores) := by
  induction h generalizing fuel stores with
  | nil o =>
    obtain ⟨fuel, rfl⟩ := Nat.exists_eq_add_of_lt hfuel
    refine loop_done ?_
    simp [fillStep, hend, fillBlocks]
  | @cons o o' blk bs hlt hblk hbs ih =>
    rw [List.length_cons] at hfuel
    obtain ⟨fuel, rfl⟩ := Nat.exists_eq_add_of_lt hfuel
    rcases hrun : fillBlock img dirRva o blk stores with ⟨stores', r⟩
    have hstep := congrArg (Res.ok (ε := PeError)) (fillStep_block (s := ⟨o, stores⟩) hlt hblk hrun)
    rw [fillBlocks, hrun]
    cases r with
    | ok u => exact (loop_more hstep).trans (ih hend (by omega) stores')
    | err e => exact loop_done hstep
    | fault f => exact loop_done hstep
    | timeout => exact loop_done hstep

theorem fillRelocs_eq (h : Chain img dirRva dirSize 0 bs o') (hend : ¬ o' < dirSize) {fuel : Nat}
    (hfuel : bs.length < fuel) :
    fillRelocs fuel img dirRva dirSize = .ok (fillBlocks img dirRva bs []) :=
  fillLoop_eq h hend hfuel []

end Winlift

import Winlift.RelocSpec

/-!
# The relocation directory as a format

The blocks of a relocation directory in exact integers: each one begins where the one before it ends, and the
last one begins below the end of the directory (`RelocTable`). The parser steps an offset of 32 bits; where no
block runs past the end of the address space, the blocks it walks are these (`walk_iff_table`).
-/

namespace Winlift
open CSem

/-- A block of a relocation directory: its RVA and its header. -/
structure FileBlock where
  rva : Nat
  header : PeBaseRelocationBlock
deriving DecidableEq, Repr

namespace FileBlock

def size (b : FileBlock) : Nat := b.header.sizeOfBlock.toNat

def entries (b : FileBlock) : Nat := (b.size - 8) / 2

/-- Where the entries are in the file. -/
def entriesAt (img : PeImage) (b : FileBlock) : Option Nat :=
  peRvaToPtr img (UInt32.ofNat (b.rva + 8)) (UInt32.ofNat (2 * b.entries))

/-- The entries are in the file, in one piece. -/
def InFile (img : PeImage) (b : FileBlock) : Prop := (b.entriesAt img).isSome

def words (img : PeImage) (b : FileBlock) : List UInt16 :=
  (b.entriesAt img).elim [] fun ent => wordsAt img.raw ent b.entries

end FileBlock

/-- The block header at RVA `a`: in the file, and of a block that has room for it. -/
def headerAt (img : PeImage) (a : Nat) : Option PeBaseRelocationBlock :=
  (peRvaToPtr img (UInt32.ofNat a) 8).bind fun p =>
    let blk := peBaseRelocationBlockAt img.raw p
    if blk.sizeOfBlock < 8 then none else some blk

/-- `RelocTable img stop a bs e`: the blocks `bs` follow each other from RVA `a` to RVA `e`, and each of them
begins below `stop`. -/
inductive RelocTable (img : PeImage) (stop : Nat) : Nat → List FileBlock → Nat → Prop
  | nil (a : Nat) : RelocTable img stop a [] a
  | cons {a e : Nat} {blk : PeBaseRelocationBlock} {bs : List FileBlock} (hlt : a < stop)
      (hblk : headerAt img a = some blk) (hbs : RelocTable img stop (a + blk.sizeOfBlock.toNat) bs e) :
      RelocTable img stop a (⟨a, blk⟩ :: bs) e

section
variable (img : PeImage) (dir : PeDataDirectory)

def PeDataDirectory.start : Nat := dir.virtualAddress.toNat

def PeDataDirectory.stop : Nat := dir.virtualAddress.toNat + dir.size.toNat

def PeDataDirectory.Absent : Prop := dir.virtualAddress = 0 ∨ dir.size = 0

/-- No block of the directory runs past the end of the address space. -/
def RelocsInSpace : Prop :=
  ¬ dir.Absent → ∀ bs e, RelocTable img dir.stop dir.start bs e → e ≤ 2 ^ 32

/-- The blocks of the whole directory. -/
def DirTable (bs : List FileBlock) : Prop := ∃ e, RelocTable img dir.stop dir.start bs e ∧ dir.stop ≤ e

/-- The directory is absent, or its blocks lead to its end, and have no entries or all of them in the file. -/
def RelocDirAccepted : Prop :=
  dir.Absent ∨ ∃ bs, DirTable img dir bs ∧ ((∀ b ∈ bs, b.entries = 0) ∨ ∀ b ∈ bs, b.InFile img)

/-- What is recorded of it: of each block in order, the `HIGHLOW` entries in order. -/
def RelocDirRecorded (relocs : List UInt32) : Prop :=
  dir.Absent ∧ relocs = [] ∨ ¬ dir.Absent ∧ ∃ bs, DirTable img dir bs ∧
    relocs = bs.flatMap fun b => relocRvas b.header.virtualAddress (b.words img)

end

theorem RelocTable.end_eq {img : PeImage} {stop a e : Nat} {bs : List FileBlock}
    (h : RelocTable img stop a bs e) : e = a + (bs.map FileBlock.size).sum := by
  induction h with
  | nil => rfl
  | cons hlt hblk hbs ih =>
    rw [ih, List.map_cons, List.sum_cons, FileBlock.size, Nat.add_assoc]

/-! ### The walk of the parser -/

section
variable {img : PeImage} {dirRva dirSize o o' : UInt32} {bs : List RelocBlock} {fs : List FileBlock}

/-- A block of the walk as the format has it. -/
def RelocBlock.inFile (dirRva : UInt32) (b : RelocBlock) : FileBlock :=
  ⟨dirRva.toNat + b.off.toNat, b.header⟩

theorem ofNat_rva (dirRva o : UInt32) : UInt32.ofNat (dirRva.toNat + o.toNat) = dirRva + o := by
  rw [UInt32.ofNat_add, UInt32.ofNat_toNat, UInt32.ofNat_toNat]

theorem headerAt_eq (dirRva o : UInt32) :
    headerAt img (dirRva.toNat + o.toNat) = blockAt img dirRva o := by
  rw [headerAt, ofNat_rva]
  rfl

namespace RelocBlock
variable (img dirRva) (b : RelocBlock)

theorem inFile_entries : (b.inFile dirRva).entries = b.entries := rfl

theorem inFile_entriesAt : (b.inFile dirRva).entriesAt img = b.entriesAt img dirRva := by
  have hrva : UInt32.ofNat (dirRva.toNat + b.off.toNat + 8) = dirRva + b.off + 8 := by
    rw [UInt32.ofNat_add, ofNat_rva]
    rfl
  rw [FileBlock.entriesAt, inFile, hrva]
  rfl

theorem inFile_inFile : (b.inFile dirRva).InFile img ↔ b.Mapped img dirRva := by
  rw [FileBlock.InFile, inFile_entriesAt, Mapped]

theorem inFile_words : (b.inFile dirRva).words img = b.words img dirRva := by
  rw [FileBlock.words, inFile_entriesAt]
  rfl

end RelocBlock

/-- Where the blocks stay in the address space, no offset wraps. -/
theorem RelocTable.of_chain (hrva : dirRva ≠ 0) (h : Chain img dirRva dirSize o bs o')
    (hspace : ∀ fs e, RelocTable img (dirRva.toNat + dirSize.toNat) (dirRva.toNat + o.toNat) fs e → e ≤ 2 ^ 32) :
    RelocTable img (dirRva.toNat + dirSize.toNat) (dirRva.toNat + o.toNat) (bs.map (RelocBlock.inFile dirRva))
      (dirRva.toNat + o'.toNat) := by
  have hpos : 0 < dirRva.toNat := Nat.pos_of_ne_zero fun h => hrva (UInt32.toNat_inj.mp h)
  induction h with
  | nil => exact .nil _
  | @cons o o' blk bs hlt hblk hbs ih =>
    have hlt' : dirRva.toNat + o.toNat < dirRva.toNat + dirSize.toNat :=
      Nat.add_lt_add_left (UInt32.lt_iff_toNat_lt.mp hlt) _
    have hblk' : headerAt img (dirRva.toNat + o.toNat) = some blk := (headerAt_eq dirRva o).trans hblk
    have hend := hspace _ _ (.cons hlt' hblk' (.nil _))
    have hnext : (o + blk.sizeOfBlock).toNat = o.toNat + blk.sizeOfBlock.toNat := toNat_add_of_lt (by omega)
    rw [hnext, ← Nat.add_assoc] at ih
    exact .cons hlt' hblk' (ih fun fs e hfs => hspace _ e (.cons hlt' hblk' hfs))

theorem Chain.of_table {a e : Nat} (hrva : dirRva ≠ 0)
    (h : RelocTable img (dirRva.toNat + dirSize.toNat) a fs e) (ha : a = dirRva.toNat + o.toNat)
    (he : e ≤ 2 ^ 32) : ∃ bs o', fs = bs.map (RelocBlock.inFile dirRva) ∧ e = dirRva.toNat + o'.toNat ∧
      Chain img dirRva dirSize o bs o' := by
  have hpos : 0 < dirRva.toNat := Nat.pos_of_ne_zero fun h => hrva (UInt32.toNat_inj.mp h)
  induction h generalizing o with
  | nil => exact ⟨[], o, rfl, ha, .nil o⟩
  | @cons a e blk fs hlt hblk hfs ih =>
    have hend := hfs.end_eq
    subst ha
    have hnext : (o + blk.sizeOfBlock).toNat = o.toNat + blk.sizeOfBlock.toNat := toNat_add_of_lt (by omega)
    obtain ⟨bs, o', rfl, he', hc⟩ := @ih (o + blk.sizeOfBlock) (by rw [hnext, Nat.add_assoc]) he
    rw [headerAt_eq] at hblk
    exact ⟨⟨o, blk⟩ :: bs, o', rfl, he', .cons (UInt32.lt_iff_toNat_lt.mpr (Nat.lt_of_add_lt_add_left hlt)) hblk hc⟩

end

section
variable {img : PeImage} {dir : PeDataDirectory} {fs : List FileBlock}

theorem peParseRelocsDir_of_absent {grant : Nat → Bool} {fuel : Nat} (hdir : dir.Absent) :
    peParseRelocsDir grant fuel img dir.virtualAddress dir.size = .ok img := by
  have hskip : relocPasses grant fuel img dir.virtualAddress dir.size = .ok none := if_pos hdir
  rw [peParseRelocsDir, hskip]
  rfl

/-- The parser walks the blocks of the format. -/
theorem walk_iff_table (hdir : ¬ dir.Absent) (hspace : RelocsInSpace img dir) :
    DirTable img dir fs ↔ ∃ bs, fs = bs.map (RelocBlock.inFile dir.virtualAddress) ∧
      Walk img dir.virtualAddress dir.size bs := by
  have hrva : dir.virtualAddress ≠ 0 := fun h => hdir (.inl h)
  have hspace' := hspace hdir
  constructor
  · rintro ⟨e, hfs, hend⟩
    obtain ⟨bs, o', rfl, rfl, hc⟩ := Chain.of_table (o := 0) hrva hfs (Nat.add_zero _).symm (hspace' _ _ hfs)
    refine ⟨bs, rfl, o', hc, fun hlt => ?_⟩
    have hlt' := UInt32.lt_iff_toNat_lt.mp hlt
    unfold PeDataDirectory.stop at hend
    omega
  · rintro ⟨bs, rfl, o', hc, hend⟩
    refine ⟨_, RelocTable.of_chain hrva hc hspace', ?_⟩
    exact Nat.add_le_add_left (Nat.le_of_not_lt fun h => hend (UInt32.lt_iff_toNat_lt.mpr h)) _

/-- The sizes of the blocks do not add up to `2^32`. -/
theorem sizeSum_lt (hdir : ¬ dir.Absent) (hspace : RelocsInSpace img dir) {bs : List RelocBlock}
    (hw : Walk img dir.virtualAddress dir.size bs) : sizeSum bs < 2 ^ 32 := by
  have hpos : 0 < dir.virtualAddress.toNat := Nat.pos_of_ne_zero fun h => hdir (.inl (UInt32.toNat_inj.mp h))
  obtain ⟨e, hfs, -⟩ := (walk_iff_table hdir hspace).mpr ⟨bs, rfl, hw⟩
  have hle := hspace hdir _ _ hfs
  have hsum : (bs.map (RelocBlock.inFile dir.virtualAddress)).map FileBlock.size = bs.map RelocBlock.size := by
    rw [List.map_map]
    rfl
  rw [hfs.end_eq, hsum, PeDataDirectory.start] at hle
  unfold sizeSum
  omega

theorem checksPass_iff_of_sum {dirRva : UInt32} {bs : List RelocBlock} (hsum : sizeSum bs < 2 ^ 32) :
    ChecksPass img dirRva bs ↔ (∀ b ∈ bs, b.entries = 0) ∨ ∀ b ∈ bs, b.Mapped img dirRva := by
  have htwo := two_entrySum_le bs
  have hmod : entrySum bs % 2 ^ 32 = entrySum bs := Nat.mod_eq_of_lt (by omega)
  have hzero : entrySum bs = 0 ↔ ∀ b ∈ bs, b.entries = 0 := by
    rw [entrySum, List.sum_eq_zero_iff_forall_eq_nat, List.forall_mem_map]
  rw [ChecksPass, hmod, hzero]
  refine or_congr_right ⟨fun h => h.2.1, fun hall => ⟨by omega, hall, ?_⟩⟩
  exact Nat.le_trans List.countP_le_length (length_walkWords_le bs)

/-- The conditions of the format are enough for the checks of the parser. -/
theorem DirTable.exists_walk (hdir : ¬ dir.Absent) (hspace : RelocsInSpace img dir) (hfs : DirTable img dir fs)
    (hok : (∀ b ∈ fs, b.entries = 0) ∨ ∀ b ∈ fs, b.InFile img) : ∃ bs : List RelocBlock,
      bs.length = fs.length ∧ Walk img dir.virtualAddress dir.size bs ∧ ChecksPass img dir.virtualAddress bs := by
  obtain ⟨bs, rfl, hw⟩ := (walk_iff_table hdir hspace).mp hfs
  refine ⟨bs, (List.length_map _).symm, hw, (checksPass_iff_of_sum (sizeSum_lt hdir hspace hw)).mpr ?_⟩
  simpa only [List.forall_mem_map, RelocBlock.inFile_inFile, RelocBlock.inFile_entries] using hok

/-- And the other way round. -/
theorem relocDirAccepted_of_walk (hdir : ¬ dir.Absent) (hspace : RelocsInSpace img dir) {bs : List RelocBlock}
    (hw : Walk img dir.virtualAddress dir.size bs) (hpass : ChecksPass img dir.virtualAddress bs) :
    RelocDirAccepted img dir := by
  refine .inr ⟨_, (walk_iff_table hdir hspace).mpr ⟨bs, rfl, hw⟩, ?_⟩
  rw [checksPass_iff_of_sum (sizeSum_lt hdir hspace hw)] at hpass
  simpa only [List.forall_mem_map, RelocBlock.inFile_inFile, RelocBlock.inFile_entries] using hpass

/-- What is recorded of a walk is what the format says. -/
theorem relocDirRecorded_of_walk (hdir : ¬ dir.Absent) (hspace : RelocsInSpace img dir) {bs : List RelocBlock}
    (hw : Walk img dir.virtualAddress dir.size bs) :
    RelocDirRecorded img dir (fileRelocs img dir.virtualAddress bs) := by
  refine .inr ⟨hdir, _, (walk_iff_table hdir hspace).mpr ⟨bs, rfl, hw⟩, ?_⟩
  rw [fileRelocs, List.flatMap_map]
  simp only [RelocBlock.inFile_words]
  rfl

end

/-! ### Images with the same map -/

section
variable {img img' : PeImage} (hmap : peRvaToPtr img' = peRvaToPtr img) (hraw : img'.raw = img.raw)
  {dir : PeDataDirectory}
include hmap hraw

theorem relocTable_congr : RelocTable img' = RelocTable img := by
  have hheader : headerAt img' = headerAt img := by
    funext a
    rw [headerAt, headerAt, hmap, hraw]
  have hmono : ∀ {img img' : PeImage}, headerAt img' = headerAt img → ∀ {stop a e fs},
      RelocTable img stop a fs e → RelocTable img' stop a fs e := by
    intro img img' heq stop a e fs h
    induction h with
    | nil => exact .nil _
    | cons hlt hblk _ ih => exact .cons hlt (by rwa [heq]) ih
  funext stop a fs e
  exact propext ⟨hmono hheader.symm, hmono hheader⟩

omit hraw in
theorem inFile_congr (b : FileBlock) : b.InFile img' ↔ b.InFile img := by
  rw [FileBlock.InFile, FileBlock.InFile, FileBlock.entriesAt, FileBlock.entriesAt, hmap]

theorem words_congr (b : FileBlock) : b.words img' = b.words img := by
  rw [FileBlock.words, FileBlock.words, FileBlock.entriesAt, FileBlock.entriesAt, hmap, hraw]

theorem RelocsInSpace.congr (h : RelocsInSpace img dir) : RelocsInSpace img' dir := by
  rwa [RelocsInSpace, relocTable_congr hmap hraw]

theorem DirTable.congr {fs : List FileBlock} (h : DirTable img dir fs) : DirTable img' dir fs := by
  rwa [DirTable, relocTable_congr hmap hraw]

theorem RelocDirAccepted.congr (h : RelocDirAccepted img dir) : RelocDirAccepted img' dir := by
  simpa only [RelocDirAccepted, DirTable, relocTable_congr hmap hraw, inFile_congr hmap] using h

theorem RelocDirRecorded.congr {relocs : List UInt32} (h : RelocDirRecorded img dir relocs) :
    RelocDirRecorded img' dir relocs := by
  simpa only [RelocDirRecorded, DirTable, relocTable_congr hmap hraw, words_congr hmap hraw] using h

end

end Winlift

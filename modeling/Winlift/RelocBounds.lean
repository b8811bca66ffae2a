import Winlift.RelocWalk
import Winlift.PeReader
import Winlift.MkMiniPe

/-!
# What the second pass reads and stores

The second pass reads the entries of the walk's blocks in order (`walkWords`), up to the first block whose
range of entries the RVA map does not resolve; every read is inside the file. It stores one RVA for each
`HIGHLOW` entry read (`length_fillBlocks`). The array it stores into has as many elements as the first
pass counted, which is the number of entries of the walk modulo `2^32`.
-/

namespace Winlift
open CSem

/-! ### The entries of one block -/

/-- The `n` words of the file from offset `o` on. -/
def wordsAt (raw : Buffer) (o n : Nat) : List UInt16 := (List.range n).map fun i => raw.le16 (o + 2 * i)

theorem wordsAt_succ (raw : Buffer) (o n : Nat) :
    wordsAt raw o (n + 1) = raw.le16 o :: wordsAt raw (o + 2) n := by
  simp only [wordsAt, List.range_succ_eq_map, List.map_cons, List.map_map, Function.comp_def,
    Nat.succ_eq_add_one, Nat.mul_add, Nat.mul_one, Nat.mul_zero, Nat.add_zero, Nat.add_assoc, Nat.add_comm 2]

@[simp] theorem length_wordsAt (raw : Buffer) (o n : Nat) : (wordsAt raw o n).length = n := by
  simp [wordsAt]

def isHighlow (e : UInt16) : Bool := e >>> 12 == peRelBasedHighlow

def relocStores (va : UInt32) (ws : List UInt16) (stores : List RelocStore) : List RelocStore :=
  ws.foldl (fun st e => relocStore va e st) stores

/-- The entry loop over a range in the file. -/
theorem fillEntries_eq {raw : Buffer} {entries n i : Nat} (h : entries + (i + n) * 2 ≤ raw.size)
    (va : UInt32) (stores : List RelocStore) : fillEntries raw entries va n i stores =
      ⟨relocStores va (wordsAt raw (entries + i * 2) n) stores, .ok ()⟩ := by
  induction n generalizing i stores with
  | zero => rfl
  | succ n ih =>
    have hread : (readable raw (some (entries + i * 2)) 2 : Res PeError Nat) = .ok (entries + i * 2) :=
      readable_of_le (by omega)
    have hnext : entries + (i + 1) * 2 = entries + i * 2 + 2 := by omega
    rw [fillEntries, hread, FillRun.afterRead, ih (by omega), wordsAt_succ, hnext]
    rfl

def Numbered (stores : List RelocStore) : Prop := stores.map (·.idx) = List.range stores.length

theorem length_relocStore (va : UInt32) (e : UInt16) (stores : List RelocStore) :
    (relocStore va e stores).length = stores.length + if isHighlow e then 1 else 0 := by
  by_cases h₀ : e >>> 12 = peRelBasedAbsolute
  · simp [relocStore, isHighlow, h₀, peRelBasedAbsolute, peRelBasedHighlow]
  · by_cases h₃ : e >>> 12 = peRelBasedHighlow
    · simp [relocStore, isHighlow, h₃, peRelBasedAbsolute, peRelBasedHighlow]
    · simp [relocStore, isHighlow, h₀, h₃]

theorem Numbered.relocStore {stores : List RelocStore} (h : Numbered stores) (va : UInt32)
    (e : UInt16) : Numbered (relocStore va e stores) := by
  simp only [Winlift.relocStore]
  split_ifs
  · exact h
  · have h' : stores.map (·.idx) = List.range stores.length := h
    simp [Numbered, h', List.range_succ]
  · exact h

theorem length_relocStores (va : UInt32) (ws : List UInt16) (stores : List RelocStore) :
    (relocStores va ws stores).length = stores.length + ws.countP isHighlow := by
  induction ws generalizing stores with
  | nil => rfl
  | cons e ws ih =>
    have hcons : relocStores va (e :: ws) stores = relocStores va ws (relocStore va e stores) := rfl
    rw [hcons, ih, length_relocStore, List.countP_cons]
    omega

theorem Numbered.relocStores {stores : List RelocStore} (h : Numbered stores) (va : UInt32)
    (ws : List UInt16) : Numbered (relocStores va ws stores) := by
  induction ws generalizing stores with
  | nil => exact h
  | cons e ws ih => exact ih (h.relocStore va e)

theorem Numbered.idx_lt_iff {stores : List RelocStore} (h : Numbered stores) (n : Nat) :
    (∀ st ∈ stores, st.idx < n) ↔ stores.length ≤ n := by
  have hmem : (∀ st ∈ stores, st.idx < n) ↔ ∀ k ∈ stores.map (·.idx), k < n := by simp
  rw [hmem, h]
  simp only [List.mem_range]
  constructor
  · intro hlt
    by_contra hgt
    exact Nat.lt_irrefl n (hlt n (Nat.not_le.mp hgt))
  · exact fun hle k hk => Nat.lt_of_lt_of_le hk hle

/-! ### The entries of a walk -/

section words
variable (img : PeImage) (dirRva : UInt32)

namespace RelocBlock

/-- Where the entries of a block start in the file, if the map resolves all of them. -/
def entriesAt (b : RelocBlock) : Option Nat :=
  peRvaToPtr img (dirRva + b.off + 8) (UInt32.ofNat (2 * b.entries))

/-- The map resolves the range of the entries. -/
def Mapped (b : RelocBlock) : Prop := (b.entriesAt img dirRva).isSome

instance (b : RelocBlock) : Decidable (b.Mapped img dirRva) := inferInstanceAs (Decidable (_ = true))

/-- The entries of a block as they are in the file; none where the map does not resolve them. -/
def words (b : RelocBlock) : List UInt16 :=
  (b.entriesAt img dirRva).elim [] fun ent => wordsAt img.raw ent b.entries

end RelocBlock

/-- The words read of the walk's blocks. -/
def walkWords : List RelocBlock → List UInt16
  | [] => []
  | b :: bs => b.words img dirRva ++ if b.Mapped img dirRva then walkWords bs else []

end words

section fill
variable {img : PeImage} {dirRva : UInt32}

namespace RelocBlock
variable {b : RelocBlock}

theorem two_entries_lt (b : RelocBlock) : 2 * b.entries < 2 ^ 32 := by
  have h := b.header.sizeOfBlock.toNat_lt
  unfold entries size
  omega

theorem length_words_le : (b.words img dirRva).length ≤ b.entries := by
  unfold words
  cases b.entriesAt img dirRva <;> simp

end RelocBlock

theorem fillBlock_eq {b : RelocBlock} (h8 : 8 ≤ b.size) (stores : List RelocStore) :
    fillBlock img dirRva b.off b.header stores =
      ⟨relocStores b.header.virtualAddress (b.words img dirRva) stores,
        if b.Mapped img dirRva then .ok ()
        else .err (peErrorSet .malformed "malformed PE: base relocation entries out of range")⟩ := by
  have hn : b.header.nEntries = (b.entries : Int) := nEntries_eq h8
  have h2 := b.two_entries_lt
  have hmul : UInt32.ofInt b.header.nEntries * 2 = UInt32.ofNat (2 * b.entries) := by
    have hof : UInt32.ofInt (b.entries : Int) = UInt32.ofNat b.entries := by
      rw [UInt32.ofInt, Int.emod_eq_of_lt (by omega) (by omega), Int.toNat_natCast]
    rw [hn, hof, Nat.mul_comm, UInt32.ofNat_mul]
    rfl
  have hat : peRvaToPtr img (dirRva + b.off + 8) (UInt32.ofInt b.header.nEntries * 2) =
      b.entriesAt img dirRva := by rw [hmul]; rfl
  simp only [fillBlock, hat]
  cases he : b.entriesAt img dirRva with
  | none => simp [RelocBlock.words, RelocBlock.Mapped, he, relocStores]
  | some ent =>
    -- what the map resolves is in the file
    have hfile := peRvaToPtr_le he
    rw [UInt32.toNat_ofNat_of_lt' h2] at hfile
    dsimp only
    rw [hn, Int.toNat_natCast, fillEntries_eq (by omega)]
    simp [RelocBlock.words, RelocBlock.Mapped, he]

theorem fillBlocks_cons {b : RelocBlock} (h8 : 8 ≤ b.size) (bs : List RelocBlock)
    (stores : List RelocStore) : fillBlocks img dirRva (b :: bs) stores =
      if b.Mapped img dirRva then
        fillBlocks img dirRva bs
          (relocStores b.header.virtualAddress (b.words img dirRva) stores)
      else fillBlock img dirRva b.off b.header stores := by
  rw [fillBlocks, fillBlock_eq h8]
  by_cases hm : b.Mapped img dirRva <;> simp [hm]

theorem length_fillBlocks {bs : List RelocBlock} (h8 : ∀ b ∈ bs, 8 ≤ b.size)
    (stores : List RelocStore) : (fillBlocks img dirRva bs stores).stores.length =
      stores.length + (walkWords img dirRva bs).countP isHighlow := by
  induction bs generalizing stores with
  | nil => rfl
  | cons b bs ih =>
    have hb := h8 b List.mem_cons_self
    rw [fillBlocks_cons hb]
    by_cases hm : b.Mapped img dirRva
    · rw [if_pos hm, ih fun b hb => h8 b (List.mem_cons_of_mem _ hb), length_relocStores]
      simp only [walkWords, hm, ↓reduceIte, List.countP_append]
      omega
    · simp [hm, fillBlock_eq hb, walkWords, length_relocStores]

theorem Numbered.fillBlocks {bs : List RelocBlock} (h8 : ∀ b ∈ bs, 8 ≤ b.size)
    {stores : List RelocStore} (h : Numbered stores) :
    Numbered (fillBlocks img dirRva bs stores).stores := by
  induction bs generalizing stores with
  | nil => exact h
  | cons b bs ih =>
    have hb := h8 b List.mem_cons_self
    rw [fillBlocks_cons hb]
    split
    · exact ih (fun b hb => h8 b (List.mem_cons_of_mem _ hb)) (h.relocStores _ _)
    · rw [fillBlock_eq hb]; exact h.relocStores _ _

/-- The second pass over blocks the first one accepted ends, and it does not leave the file. -/
theorem fillBlocks_result {bs : List RelocBlock} (h8 : ∀ b ∈ bs, 8 ≤ b.size) (stores : List RelocStore) :
    (fillBlocks img dirRva bs stores).result = if ∀ b ∈ bs, b.Mapped img dirRva then .ok ()
      else .err (peErrorSet .malformed "malformed PE: base relocation entries out of range") := by
  induction bs generalizing stores with
  | nil => simp [fillBlocks]
  | cons b bs ih =>
    obtain ⟨hb, h8⟩ := List.forall_mem_cons.mp h8
    rw [fillBlocks_cons hb]
    by_cases hm : b.Mapped img dirRva
    · simp only [hm, ↓reduceIte, ih h8, List.forall_mem_cons, true_and]
    · simp [hm, fillBlock_eq hb]

end fill

/-! ### The passes along a walk -/

section passes
variable {img : PeImage} {dirRva dirSize : UInt32} {bs : List RelocBlock}

theorem Walk.size_ge (h : Walk img dirRva dirSize bs) : ∀ b ∈ bs, 8 ≤ b.size :=
  let ⟨_, hc, _⟩ := h
  hc.size_ge

theorem Chain.unique {bs' : List RelocBlock} {o o' o'' : UInt32}
    (h : Chain img dirRva dirSize o bs o') (hend : ¬ o' < dirSize)
    (h' : Chain img dirRva dirSize o bs' o'') (hend' : ¬ o'' < dirSize) : bs = bs' := by
  induction h generalizing bs' with
  | nil o =>
    cases h' with
    | nil => rfl
    | cons hlt => exact absurd hlt hend
  | cons hlt hblk hbs ih =>
    cases h' with
    | nil => exact absurd hlt hend'
    | cons hlt' hblk' hbs' =>
      obtain rfl := Option.some.inj (hblk.symm.trans hblk')
      rw [ih hend hbs']

theorem Walk.unique {bs' : List RelocBlock} (h : Walk img dirRva dirSize bs)
    (h' : Walk img dirRva dirSize bs') : bs = bs' := by
  obtain ⟨o, hc, hend⟩ := h
  obtain ⟨o', hc', hend'⟩ := h'
  exact hc.unique hend hc' hend'

theorem Chain.dirSize_ne_zero {o o' : UInt32} (h : Chain img dirRva dirSize o bs o') (hne : bs ≠ []) :
    dirSize ≠ 0 := by
  rintro rfl
  cases h with
  | nil => exact hne rfl
  | cons hlt => exact absurd hlt (Nat.not_lt_zero _)

theorem relocPasses_of_walk (hw : Walk img dirRva dirSize bs) (hrva : dirRva ≠ 0)
    (hcount : int32 (entrySum bs) ≠ 0) (grant : Nat → Bool)
    (hgrant : grant (sizeT (int32 (entrySum bs)) * peRelocSize % 2 ^ 64) = true) {fuel : Nat}
    (hfuel : bs.length < fuel) : relocPasses grant fuel img dirRva dirSize =
      .ok (some (int32 (entrySum bs), fillBlocks img dirRva bs [])) := by
  obtain ⟨o, hc, hend⟩ := hw
  have hsize : dirSize ≠ 0 := by
    refine hc.dirSize_ne_zero ?_
    rintro rfl
    exact hcount rfl
  have hdir : ¬ (dirRva = 0 ∨ dirSize = 0) := fun h => h.elim hrva hsize
  have hg : ¬ grant (sizeT (int32 (entrySum bs)) * peRelocSize % 2 ^ 64) = false := by
    rw [hgrant]; exact Bool.noConfusion
  rw [relocPasses, if_neg hdir, countRelocs_eq hc hend hfuel, Res.ok_bind, if_neg hcount,
    Res.rejectIf_of_not _ hg, Res.ok_bind, fillRelocs_eq hc hend hfuel, Res.ok_bind]

theorem relocPasses_eq_some {grant : Nat → Bool} {fuel : Nat} {count : Int} {run : FillRun}
    (h : relocPasses grant fuel img dirRva dirSize = .ok (some (count, run))) :
    dirRva ≠ 0 ∧ ∃ bs, Walk img dirRva dirSize bs ∧ count = int32 (entrySum bs) ∧ count ≠ 0 ∧
      grant (sizeT count * peRelocSize % 2 ^ 64) = true ∧ run = fillBlocks img dirRva bs [] := by
  unfold relocPasses at h
  split_ifs at h with hdir
  · cases h
  obtain ⟨c, hc, h⟩ := Res.bind_eq_ok.mp h
  split_ifs at h with hzero
  · cases h
  obtain ⟨u, hg, h⟩ := Res.bind_eq_ok.mp h
  obtain ⟨run', hrun, h⟩ := Res.bind_eq_ok.mp h
  cases h
  obtain ⟨bs, hw, hlen, hcount⟩ := countRelocs_ok hc
  refine ⟨fun hrva => hdir (.inl hrva), bs, hw, hcount, hzero, ?_, ?_⟩
  · simpa using Res.rejectIf_eq_ok.mp hg
  · obtain ⟨o, hchain, hend⟩ := hw
    rw [fillRelocs_eq hchain hend hlen] at hrun
    exact (Res.ok.inj hrun).symm

theorem count_of_granted {n : Nat} (hne : int32 n ≠ 0)
    (hgrant : sizeT (int32 n) * peRelocSize % 2 ^ 64 ≤ ptrdiffMax) :
    n % 2 ^ 32 ≠ 0 ∧ n % 2 ^ 32 < 2 ^ 31 ∧ int32 n = (n % 2 ^ 32 : Nat) := by
  rw [int32_natCast] at hne hgrant ⊢
  unfold sizeT peRelocSize ptrdiffMax at hgrant
  split_ifs at hne hgrant ⊢ <;> omega

theorem granted_of_count {n : Nat} (hne : n % 2 ^ 32 ≠ 0) (hlt : n % 2 ^ 32 < 2 ^ 31) :
    int32 n = (n % 2 ^ 32 : Nat) ∧ int32 n ≠ 0 ∧
      sizeT (int32 n) * peRelocSize % 2 ^ 64 ≤ ptrdiffMax := by
  rw [int32_natCast, if_pos hlt]
  unfold sizeT peRelocSize ptrdiffMax
  omega

end passes

/-! ### The array is large enough -/

section bounds
variable (img : PeImage) (dirRva dirSize : UInt32)

/-- Every store of the second pass is inside an array of as many elements as the first one counted. -/
def StoresInBounds : Prop :=
  ∀ grant : Nat → Bool, (∀ n, grant n = true → n ≤ ptrdiffMax) → ∀ fuel count run,
    relocPasses grant fuel img dirRva dirSize = .ok (some (count, run)) →
      ∀ st ∈ run.stores, (st.idx : Int) < count

variable {img dirRva dirSize}

/-- The stores along a walk are numbered one by one, so they stay below `n` iff there are at most `n`. -/
theorem Walk.idx_lt_iff {bs : List RelocBlock} (hw : Walk img dirRva dirSize bs) (n : Nat) :
    (∀ st ∈ (fillBlocks img dirRva bs []).stores, (st.idx : Int) < n) ↔
      (walkWords img dirRva bs).countP isHighlow ≤ n := by
  have hnum : Numbered (fillBlocks img dirRva bs []).stores := Numbered.fillBlocks hw.size_ge rfl
  have hlen := @length_fillBlocks img dirRva bs hw.size_ge []
  simp only [Nat.cast_lt]
  rw [hnum.idx_lt_iff, hlen, List.length_nil, Nat.zero_add]

variable (img dirRva dirSize) in
/-- No walk is counted short: the entries of the walk modulo `2^32` are no count to allocate for, or
they are at least as many as the `HIGHLOW` entries read. -/
theorem storesInBounds_iff : StoresInBounds img dirRva dirSize ↔
    dirRva = 0 ∨ ∀ bs, Walk img dirRva dirSize bs →
      entrySum bs % 2 ^ 32 = 0 ∨ 2 ^ 31 ≤ entrySum bs % 2 ^ 32 ∨
        (walkWords img dirRva bs).countP isHighlow ≤ entrySum bs % 2 ^ 32 := by
  constructor
  · intro hb
    rcases eq_or_ne dirRva 0 with hrva | hrva
    · exact .inl hrva
    refine .inr fun bs hw => ?_
    rcases eq_or_ne (entrySum bs % 2 ^ 32) 0 with h₀ | h₀
    · exact .inl h₀
    by_cases h₁ : entrySum bs % 2 ^ 32 < 2 ^ 31
    · refine .inr (.inr ?_)
      obtain ⟨hval, hne, hle⟩ := granted_of_count h₀ h₁
      have hrun := relocPasses_of_walk hw hrva hne (· ≤ ptrdiffMax) (by simpa using hle)
        (Nat.lt_succ_self _)
      have hall := hb (· ≤ ptrdiffMax) (fun n hn => by simpa using hn) _ _ _ hrun
      rw [hval] at hall
      exact (hw.idx_lt_iff _).mp hall
    · exact .inr (.inl (Nat.not_lt.mp h₁))
  · rintro hcond grant hgrant fuel count run hrun
    obtain ⟨hrva, bs, hw, hcount, hne, hg, hrun⟩ := relocPasses_eq_some hrun
    rw [hcount] at hne hg
    obtain ⟨h₀, h₁, hval⟩ := count_of_granted hne (hgrant _ hg)
    rw [hrun, hcount, hval]
    refine (hw.idx_lt_iff _).mpr ?_
    rcases hcond.resolve_left hrva bs hw with h | h | h
    · exact absurd h h₀
    · exact absurd h (Nat.not_le.mpr h₁)
    · exact h

/-- No more words are read of a walk than its blocks have entries. -/
theorem length_walkWords_le (bs : List RelocBlock) : (walkWords img dirRva bs).length ≤ entrySum bs := by
  induction bs with
  | nil => exact Nat.le_refl _
  | cons b bs ih =>
    have hb := @RelocBlock.length_words_le img dirRva b
    rw [walkWords, List.length_append, entrySum, List.map_cons, List.sum_cons]
    split_ifs
    · exact Nat.add_le_add hb ih
    · exact Nat.le_trans hb (Nat.le_add_right ..)

/-- The sizes of the walk's blocks count their entries right, or give no count to allocate for. -/
def CountExact (bs : List RelocBlock) : Prop :=
  entrySum bs < 2 ^ 32 ∨ entrySum bs % 2 ^ 32 = 0 ∨ 2 ^ 31 ≤ entrySum bs % 2 ^ 32

instance (bs : List RelocBlock) : Decidable (CountExact bs) := inferInstanceAs (Decidable (_ ∨ _))

theorem storesInBounds_of_countExact
    (h : dirRva = 0 ∨ ∀ bs, Walk img dirRva dirSize bs → CountExact bs) :
    StoresInBounds img dirRva dirSize := by
  refine (storesInBounds_iff img dirRva dirSize).mpr (h.imp_right fun hexact bs hw => ?_)
  rcases hexact bs hw with hlt | hzero | hbig
  · refine .inr (.inr ?_)
    rw [Nat.mod_eq_of_lt hlt]
    exact Nat.le_trans List.countP_le_length (length_walkWords_le bs)
  · exact .inl hzero
  · exact .inr (.inl hbig)

end bounds

/-- A relocation directory of 20 bytes in the headers: a block with a `HIGHLOW` entry and a padding one, and an
empty block. -/
def relocPairFile : Buffer :=
  MkMiniPe.minimalNoimport.patches
    [(224, 0x160), (228, 20), (0x160, 0x1000), (0x164, 12), (0x168, 0x3004), (0x16C, 0x1000), (0x170, 8)]

def relocPair : List RelocBlock := [⟨0, ⟨0x1000, 12⟩⟩, ⟨12, ⟨0x1000, 8⟩⟩]

theorem relocPairFile_walk : ∃ img dirs, peReadHeaders (fun _ => true) relocPairFile = .ok (img, dirs) ∧
    dirs.relocs.virtualAddress = 0x160 ∧ dirs.relocs.size = 20 ∧ img.sizeOfHeaders = 0x200 ∧ img.raw.size = 0x400 ∧
    img.sections.map (fun s => (s.rva, s.vsize, s.fileOff, s.fsize)) = [(0x1000, 12, 0x200, 0x200)] ∧
    img.relocs = [] ∧ Walk img 0x160 20 relocPair ∧
    (∃ run, relocPasses (· ≤ ptrdiffMax) 3 img 0x160 20 = .ok (some (2, run)) ∧ run.stores = [⟨0, 0x1004⟩]) ∧
    ∃ img', peParseRelocsDir (· ≤ ptrdiffMax) 3 img 0x160 20 = .ok img' ∧ img'.relocs = [0x1004] := by
  have hrun : (peReadHeaders (fun _ => true) relocPairFile).okAnd fun p =>
      p.2.relocs.virtualAddress = 0x160 ∧ p.2.relocs.size = 20 ∧ p.1.sizeOfHeaders = 0x200 ∧ p.1.raw.size = 0x400 ∧
        p.1.sections.map (fun s => (s.rva, s.vsize, s.fileOff, s.fsize)) = [(0x1000, 12, 0x200, 0x200)] ∧
        p.1.relocs = [] ∧ blockAt p.1 0x160 0 = some ⟨0x1000, 12⟩ ∧ blockAt p.1 0x160 12 = some ⟨0x1000, 8⟩ ∧
        ((relocPasses (· ≤ ptrdiffMax) 3 p.1 0x160 20).okAnd fun r =>
          r.any fun r => r.1 = 2 ∧ r.2.stores = [⟨0, 0x1004⟩]) ∧
        (peParseRelocsDir (· ≤ ptrdiffMax) 3 p.1 0x160 20).okAnd fun i => i.relocs = [0x1004] := by
    decide +kernel
  obtain ⟨⟨img, dirs⟩, himg, hrun⟩ := Res.okAnd_iff.mp hrun
  obtain ⟨hrva, hsize, hheaders, hraw, hsections, hnew, hblk, hblk', hpasses, hparse⟩ := of_decide_eq_true hrun
  obtain ⟨r, hr, hany⟩ := Res.okAnd_iff.mp hpasses
  obtain ⟨img', hok, hrelocs⟩ := Res.okAnd_iff.mp hparse
  refine ⟨img, dirs, himg, hrva, hsize, hheaders, hraw, hsections, hnew,
    ⟨20, .cons (by decide) hblk (.cons (by decide) hblk' (.nil _)), by decide⟩, ?_,
    img', hok, of_decide_eq_true hrelocs⟩
  cases r with
  | none => cases hany
  | some r =>
    obtain ⟨count, run⟩ := r
    obtain ⟨rfl, hstores⟩ := of_decide_eq_true hany
    exact ⟨run, hr, hstores⟩

theorem storesInBounds_pair : ∃ img dirs, peReadHeaders (fun _ => true) relocPairFile = .ok (img, dirs) ∧
    StoresInBounds img dirs.relocs.virtualAddress dirs.relocs.size ∧
    ∃ run, relocPasses (· ≤ ptrdiffMax) 3 img dirs.relocs.virtualAddress dirs.relocs.size =
      .ok (some (2, run)) ∧ run.stores = [⟨0, 0x1004⟩] := by
  obtain ⟨img, dirs, himg, hrva, hsize, -, -, -, -, hwalk, hrun, -⟩ := relocPairFile_walk
  refine ⟨img, dirs, himg, ?_⟩
  rw [hrva, hsize]
  refine ⟨storesInBounds_of_countExact (.inr fun bs hw => ?_), hrun⟩
  obtain rfl := hw.unique hwalk
  exact .inl (by decide)

/-- A relocation directory of 56 bytes in the headers. Its first block holds 16 `HIGHLOW` entries and the
headers of the third and the fourth one, to which the second and the third lead back. -/
def relocCountFile : Buffer :=
  MkMiniPe.minimalNoimport.patches
    [(224, 0x160), (228, 56), (0x160, 0x1000), (0x164, 48), (0x168, 0x30003000), (0x16C, 0x30003000),
      (0x170, 0x30003000), (0x174, 40), (0x178, 0x30003000), (0x17C, 0x30003000),
      (0x180, 0x30003000), (0x184, 0xFFFFFFF0), (0x188, 0x30003000), (0x18C, 0x30003000),
      (0x190, 0x1000), (0x194, 0xFFFFFFF0)]

theorem relocCountFile_overflows : ¬ ∀ raw img dirs,
    peReadHeaders (fun _ => true) raw = .ok (img, dirs) →
      StoresInBounds img dirs.relocs.virtualAddress dirs.relocs.size := by
  intro h
  have hrun : (peReadHeaders (fun _ => true) relocCountFile).okAnd fun p =>
      (relocPasses (fun n => n ≤ ptrdiffMax) 5 p.1 p.2.relocs.virtualAddress p.2.relocs.size).okAnd
        fun r => r.any fun r => r.2.stores.any fun st => r.1 ≤ st.idx := by decide +kernel
  obtain ⟨⟨img, dirs⟩, himg, hrun⟩ := Res.okAnd_iff.mp hrun
  obtain ⟨r, hr, hrun⟩ := Res.okAnd_iff.mp hrun
  cases r with
  | none => cases hrun
  | some r =>
    obtain ⟨st, hst, hle⟩ := List.any_eq_true.mp hrun
    have hlt := h _ _ _ himg _ (fun n hn => of_decide_eq_true hn) _ _ _ hr st hst
    exact absurd hlt (Int.not_lt.mpr (of_decide_eq_true hle))

/-- The directory of `relocCountFile`, its `HIGHLOW` entries replaced by padding. -/
def relocPaddingFile : Buffer :=
  MkMiniPe.minimalNoimport.patches
    [(224, 0x160), (228, 56), (0x160, 0x1000), (0x164, 48), (0x168, 0), (0x16C, 0), (0x170, 0), (0x174, 40),
      (0x178, 0), (0x17C, 0), (0x180, 0), (0x184, 0xFFFFFFF0), (0x188, 0), (0x18C, 0), (0x190, 0x1000),
      (0x194, 0xFFFFFFF0)]

/-- Sizes that count the entries wrong do no harm when these are padding: what decides is not in the sizes. -/
theorem relocPaddingFile_inBounds : ∃ img dirs bs,
    peReadHeaders (fun _ => true) relocPaddingFile = .ok (img, dirs) ∧ dirs.relocs.virtualAddress ≠ 0 ∧
    Walk img dirs.relocs.virtualAddress dirs.relocs.size bs ∧ ¬ CountExact bs ∧
    StoresInBounds img dirs.relocs.virtualAddress dirs.relocs.size := by
  let bs : List RelocBlock := [⟨0, ⟨0x1000, 48⟩⟩, ⟨48, ⟨0x1000, 0xFFFFFFF0⟩⟩, ⟨32, ⟨0, 0xFFFFFFF0⟩⟩, ⟨16, ⟨0, 40⟩⟩]
  have hrun : (peReadHeaders (fun _ => true) relocPaddingFile).okAnd fun p =>
      p.2.relocs.virtualAddress = 0x160 ∧ p.2.relocs.size = 56 ∧ blockAt p.1 0x160 0 = some ⟨0x1000, 48⟩ ∧
        blockAt p.1 0x160 48 = some ⟨0x1000, 0xFFFFFFF0⟩ ∧ blockAt p.1 0x160 32 = some ⟨0, 0xFFFFFFF0⟩ ∧
        blockAt p.1 0x160 16 = some ⟨0, 40⟩ ∧ (walkWords p.1 0x160 bs).countP isHighlow = 0 := by decide +kernel
  obtain ⟨⟨img, dirs⟩, himg, hrun⟩ := Res.okAnd_iff.mp hrun
  obtain ⟨hrva, hsize, h₀, h₁, h₂, h₃, hcount⟩ := of_decide_eq_true hrun
  have hwalk : Walk img 0x160 56 bs :=
    ⟨56, .cons (by decide) h₀ (.cons (by decide) h₁ (.cons (by decide) h₂ (.cons (by decide) h₃ (.nil _)))),
      by decide⟩
  refine ⟨img, dirs, bs, himg, ?_⟩
  rw [hrva, hsize]
  refine ⟨by decide, hwalk, by decide, (storesInBounds_iff ..).mpr (.inr fun bs' hw => ?_)⟩
  obtain rfl := hw.unique hwalk
  exact .inr (.inr (hcount ▸ Nat.zero_le _))

/-! ### The walk ends -/

section ends
variable (img : PeImage) (dirRva dirSize : UInt32)

instance finiteUInt32 : Finite UInt32 := .of_injective UInt32.toFin fun _ _ => UInt32.toFin_inj.mp

def RelocsEnd : Prop :=
  ∀ grant, ∃ fuel, peParseRelocsDir grant fuel img dirRva dirSize ≠ .timeout

variable {img dirRva dirSize}

theorem peParseRelocsDir_eq_timeout {grant : Nat → Bool} {fuel : Nat} (hrva : dirRva ≠ 0)
    (hsize : dirSize ≠ 0) (hcount : countRelocs fuel img dirRva dirSize = .timeout) :
    peParseRelocsDir grant fuel img dirRva dirSize = .timeout := by
  simp [peParseRelocsDir, relocPasses, hrva, hsize, hcount]

/-- When the first pass ends, so does the second. -/
theorem peParseRelocsDir_ne_timeout (grant : Nat → Bool) {fuel : Nat}
    (hcount : countRelocs fuel img dirRva dirSize ≠ .timeout) :
    peParseRelocsDir grant fuel img dirRva dirSize ≠ .timeout := by
  by_cases hdir : dirRva = 0 ∨ dirSize = 0
  · simp [peParseRelocsDir, relocPasses, hdir]
  rw [peParseRelocsDir, relocPasses, if_neg hdir]
  cases hc : countRelocs fuel img dirRva dirSize with
  | timeout => exact absurd hc hcount
  | err e => simp
  | fault f => simp
  | ok count =>
    obtain ⟨bs, ⟨o, hchain, hend⟩, hlen, -⟩ := countRelocs_ok hc
    rw [Res.ok_bind]
    split_ifs
    · simp
    · unfold Res.rejectIf
      split_ifs
      · simp
      · rw [Res.ok_bind, fillRelocs_eq hchain hend hlen]
        simp only [Res.ok_bind, storeRelocs, fillBlocks_result hchain.size_ge]
        by_cases hall : ∀ b ∈ bs, b.Mapped img dirRva
        · rw [if_pos hall]
          dsimp only
          split_ifs <;> simp
        · rw [if_neg hall]
          dsimp only
          split_ifs <;> simp

/-- Blocks whose sizes add up to a multiple of `2^32` lead back to where they start, and the first pass
goes round them for ever. -/
theorem countRelocs_of_cycle {xs ys : List RelocBlock} {o : UInt32}
    (hc : Chain img dirRva dirSize 0 (xs ++ ys) o) (hne : ys ≠ []) (hdvd : 2 ^ 32 ∣ sizeSum ys)
    (fuel : Nat) : countRelocs fuel img dirRva dirSize = .timeout := by
  obtain ⟨m, hxs, hys⟩ := hc.append_inv
  have hback : o = m := by
    apply UInt32.toNat_inj.mp
    rw [hys.end_eq, ← Nat.mod_eq_of_lt m.toNat_lt]
    omega
  subst hback
  refine (countRelocs_timeout_iff fuel).mpr fun hnone => ?_
  have hgoes : orbit (nextOff img dirRva dirSize) (xs.length + fuel) 0 ≠ none := by
    rw [orbit_add, hxs.orbit]
    exact orbit_ne_none_of_cycle (List.length_pos_of_ne_nil hne) hys.orbit fuel
  rw [Nat.add_comm] at hgoes
  exact hgoes (orbit_none_mono hnone _)

/-- Without such blocks no offset comes twice, and the first pass ends. -/
theorem exists_countRelocs_ne_timeout (h : ∀ xs ys o, Chain img dirRva dirSize 0 (xs ++ ys) o →
    ys ≠ [] → ¬ 2 ^ 32 ∣ sizeSum ys) : ∃ fuel, countRelocs fuel img dirRva dirSize ≠ .timeout := by
  obtain ⟨n, hn⟩ : ∃ n, orbit (nextOff img dirRva dirSize) n 0 = none := by
    refine orbit_ends_iff.mpr fun i m x hm hi hback => ?_
    obtain ⟨xs, -, hxs⟩ := Chain.of_orbit hi
    obtain ⟨ys, rfl, hys⟩ := Chain.of_orbit hback
    refine h xs ys x (hxs.append hys) (List.ne_nil_of_length_pos hm) ?_
    have hend := hys.end_eq
    have hlt := x.toNat_lt
    omega
  exact ⟨n, fun hcount => (countRelocs_timeout_iff n).mp hcount hn⟩

variable (img dirRva dirSize) in
/-- The walk ends iff no run of its blocks adds up to a multiple of `2^32`. -/
theorem relocsEnd_iff : RelocsEnd img dirRva dirSize ↔
    dirRva = 0 ∨ ∀ xs ys o, Chain img dirRva dirSize 0 (xs ++ ys) o → ys ≠ [] →
      ¬ 2 ^ 32 ∣ sizeSum ys := by
  constructor
  · intro hend
    rcases eq_or_ne dirRva 0 with hrva | hrva
    · exact .inl hrva
    refine .inr fun xs ys o hc hne hdvd => ?_
    obtain ⟨m, -, hys⟩ := hc.append_inv
    obtain ⟨fuel, hfuel⟩ := hend fun _ => true
    exact hfuel (peParseRelocsDir_eq_timeout hrva (hys.dirSize_ne_zero hne)
      (countRelocs_of_cycle hc hne hdvd fuel))
  · rintro hcond grant
    rcases hcond with rfl | hcond
    · exact ⟨0, by simp [peParseRelocsDir, relocPasses]⟩
    · obtain ⟨fuel, hcount⟩ := exists_countRelocs_ne_timeout hcond
      exact ⟨fuel, peParseRelocsDir_ne_timeout grant hcount⟩

end ends

/-- A relocation directory of 16 bytes in the headers: a block of 8 bytes and one that leads back to
it. -/
def relocCycleFile : Buffer :=
  MkMiniPe.minimalNoimport.patches
    [(224, 0x160), (228, 16), (0x164, 8), (0x16C, 0xFFFFFFF8)]

theorem relocCycleFile_hangs : ¬ ∀ raw img dirs, peReadHeaders (fun _ => true) raw = .ok (img, dirs) →
    RelocsEnd img dirs.relocs.virtualAddress dirs.relocs.size := by
  intro h
  have hrun : (peReadHeaders (fun _ => true) relocCycleFile).okAnd fun p =>
      p.2.relocs.virtualAddress ≠ 0 ∧ p.2.relocs.size ≠ 0 ∧
        orbit (nextOff p.1 p.2.relocs.virtualAddress p.2.relocs.size) 2 0 = some 0 := by
    decide +kernel
  obtain ⟨⟨img, dirs⟩, himg, hrun⟩ := Res.okAnd_iff.mp hrun
  obtain ⟨hrva, hsize, hcycle⟩ := of_decide_eq_true hrun
  obtain ⟨fuel, hfuel⟩ := h _ _ _ himg fun _ => true
  have hcount := (countRelocs_timeout_iff fuel).mpr (orbit_ne_none_of_cycle Nat.two_pos hcycle fuel)
  exact hfuel (peParseRelocsDir_eq_timeout hrva hsize hcount)

end Winlift

import Winlift.RelocBounds
import Winlift.RvaSpec

/-!
# Which relocation directories are accepted, and what is recorded of them

The list recorded is that of the `HIGHLOW` entries of the walk's blocks (`relocs_decoded`). What is checked of
a block is its header and the range of its entries, and of the last one not where it ends
(`relocsAccepted_iff_wellFormed`).
-/

namespace Winlift
open CSem

/-! ### The entries as they are in the file -/

/-- The page offsets of the `HIGHLOW` entries among `ws`. -/
def highlowOffsets (ws : List UInt16) : List UInt16 := (ws.filter isHighlow).map (· &&& 0x0FFF)

def relocRvas (va : UInt32) (ws : List UInt16) : List UInt32 :=
  (highlowOffsets ws).map fun o => va + o.toUInt32

theorem highlowOffsets_append (ws ws' : List UInt16) :
    highlowOffsets (ws ++ ws') = highlowOffsets ws ++ highlowOffsets ws' := by
  rw [highlowOffsets, List.filter_append, List.map_append]
  rfl

theorem relocStore_rvas (va : UInt32) (e : UInt16) (stores : List RelocStore) :
    (relocStore va e stores).map (·.rva) = stores.map (·.rva) ++ relocRvas va [e] := by
  by_cases h₀ : e >>> 12 = peRelBasedAbsolute
  · simp [relocStore, relocRvas, highlowOffsets, isHighlow, h₀, peRelBasedAbsolute, peRelBasedHighlow]
  · by_cases h₃ : e >>> 12 = peRelBasedHighlow
    · simp [relocStore, relocRvas, highlowOffsets, isHighlow, h₃, peRelBasedAbsolute, peRelBasedHighlow]
    · simp [relocStore, relocRvas, highlowOffsets, isHighlow, h₀, h₃]

theorem relocStores_rvas (va : UInt32) (ws : List UInt16) (stores : List RelocStore) :
    (relocStores va ws stores).map (·.rva) = stores.map (·.rva) ++ relocRvas va ws := by
  induction ws generalizing stores with
  | nil => simp [relocStores, relocRvas, highlowOffsets]
  | cons e ws ih =>
    have hcons : relocStores va (e :: ws) stores = relocStores va ws (relocStore va e stores) := rfl
    have happend : relocRvas va (e :: ws) = relocRvas va [e] ++ relocRvas va ws := by
      rw [relocRvas, ← List.singleton_append, highlowOffsets_append, List.map_append]
      rfl
    rw [hcons, ih, relocStore_rvas, happend, List.append_assoc]

/-! ### A run that succeeds -/

section
variable {img img' : PeImage} {dirRva dirSize : UInt32} {bs bs' : List RelocBlock} {o o' o'' : UInt32}

theorem fillBlocks_rvas {stores : List RelocStore} (h8 : ∀ b ∈ bs, 8 ≤ b.size)
    (hall : ∀ b ∈ bs, b.Mapped img dirRva) : (fillBlocks img dirRva bs stores).stores.map (·.rva) =
      stores.map (·.rva) ++ bs.flatMap fun b => relocRvas b.header.virtualAddress (b.words img dirRva) := by
  induction bs generalizing stores with
  | nil => simp [fillBlocks]
  | cons b bs ih =>
    obtain ⟨hb, h8⟩ := List.forall_mem_cons.mp h8
    obtain ⟨hm, hall⟩ := List.forall_mem_cons.mp hall
    rw [fillBlocks_cons hb, if_pos hm, ih h8 hall, relocStores_rvas, List.flatMap_cons, List.append_assoc]

/-- What a walk has to pass: there are no entries to read, or an array for them and all of them are resolved. -/
def ChecksPass (img : PeImage) (dirRva : UInt32) (bs : List RelocBlock) : Prop :=
  entrySum bs % 2 ^ 32 = 0 ∨ entrySum bs % 2 ^ 32 < 2 ^ 31 ∧ (∀ b ∈ bs, b.Mapped img dirRva) ∧
    (walkWords img dirRva bs).countP isHighlow ≤ entrySum bs % 2 ^ 32

section
variable {grant : Nat → Bool} {fuel : Nat}

theorem relocPasses_eq_none (hw : Walk img dirRva dirSize bs) (hrva : dirRva ≠ 0)
    (h : relocPasses grant fuel img dirRva dirSize = .ok none) : entrySum bs % 2 ^ 32 = 0 := by
  unfold relocPasses at h
  split_ifs at h with hdir
  · obtain rfl := hdir.resolve_left hrva
    have hnil : Walk img dirRva 0 [] := ⟨0, .nil 0, UInt32.lt_irrefl 0⟩
    rw [hw.unique hnil]
    rfl
  · obtain ⟨count, hcount, h⟩ := Res.bind_eq_ok.mp h
    obtain ⟨bs', hw', -, hsum⟩ := countRelocs_ok hcount
    obtain rfl := hw.unique hw'
    split_ifs at h with hzero
    · have hzero := hsum.symm.trans hzero
      rw [int32_natCast] at hzero
      split_ifs at hzero <;> omega
    · obtain ⟨-, -, h⟩ := Res.bind_eq_ok.mp h
      obtain ⟨run, -, h⟩ := Res.bind_eq_ok.mp h
      cases h

/-- Either there are no entries to read, or all blocks have been read to their ends. -/
theorem relocs_of_ok (hw : Walk img dirRva dirSize bs) (hrva : dirRva ≠ 0)
    (h : peParseRelocsDir grant fuel img dirRva dirSize = .ok img') :
    (entrySum bs % 2 ^ 32 = 0 ∧ img' = img) ∨
      (grant (sizeT (int32 (entrySum bs)) * peRelocSize % 2 ^ 64) = true ∧ int32 (entrySum bs) ≠ 0 ∧
        ((walkWords img dirRva bs).countP isHighlow : Int) ≤ int32 (entrySum bs)) ∧
      (∀ b ∈ bs, b.Mapped img dirRva) ∧
      img'.relocs = bs.flatMap fun b => relocRvas b.header.virtualAddress (b.words img dirRva) := by
  obtain ⟨r, hr, h⟩ := Res.bind_eq_ok.mp h
  cases r with
  | none =>
    cases h
    exact .inl ⟨relocPasses_eq_none hw hrva hr, rfl⟩
  | some r =>
    obtain ⟨count, run⟩ := r
    obtain ⟨-, bs', hw', hcount, hne, hg, rfl⟩ := relocPasses_eq_some hr
    obtain rfl := hw.unique hw'
    rw [hcount] at hne hg
    have h : storeRelocs count img (fillBlocks img dirRva bs []) = .ok img' := h
    unfold storeRelocs at h
    split at h
    · cases h
    · cases h
    · split_ifs at h
    · rename_i hok
      have hall : ∀ b ∈ bs, b.Mapped img dirRva := by
        by_contra hnot
        rw [fillBlocks_result hw.size_ge, if_neg hnot] at hok
        cases hok
      have hrvas := @fillBlocks_rvas img dirRva bs [] hw.size_ge hall
      split_ifs at h with hle
      cases h
      rw [length_fillBlocks hw.size_ge, List.length_nil, Nat.zero_add, hcount] at hle
      exact .inr ⟨⟨hg, hne, hle⟩, hall, by simpa using hrvas⟩

theorem exists_walk_of_ok (hrva : dirRva ≠ 0) (hsize : dirSize ≠ 0)
    (h : peParseRelocsDir grant fuel img dirRva dirSize = .ok img') : ∃ bs, Walk img dirRva dirSize bs := by
  obtain ⟨r, hr, -⟩ := Res.bind_eq_ok.mp h
  rw [relocPasses, if_neg (not_or.mpr ⟨hrva, hsize⟩)] at hr
  obtain ⟨count, hcount, -⟩ := Res.bind_eq_ok.mp hr
  obtain ⟨bs, hw, -⟩ := countRelocs_ok hcount
  exact ⟨bs, hw⟩

theorem checksPass_of_ok (hgrant : ∀ n, grant n = true → n ≤ ptrdiffMax) (hw : Walk img dirRva dirSize bs)
    (hrva : dirRva ≠ 0) (h : peParseRelocsDir grant fuel img dirRva dirSize = .ok img') :
    ChecksPass img dirRva bs := by
  rcases relocs_of_ok hw hrva h with ⟨hzero, -⟩ | ⟨⟨hg, hne, hle⟩, hall, -⟩
  · exact .inl hzero
  · obtain ⟨-, hlt, hval⟩ := count_of_granted hne (hgrant _ hg)
    rw [hval] at hle
    exact .inr ⟨hlt, hall, by exact_mod_cast hle⟩

theorem exists_ok_of_checksPass (hgrant : ∀ n ≤ ptrdiffMax, grant n = true)
    (hw : Walk img dirRva dirSize bs) (hrva : dirRva ≠ 0) (h : ChecksPass img dirRva bs)
    (hfuel : bs.length < fuel) : ∃ img', peParseRelocsDir grant fuel img dirRva dirSize = .ok img' := by
  by_cases hzero : entrySum bs % 2 ^ 32 = 0
  · refine ⟨img, ?_⟩
    have hcount : int32 (entrySum bs) = 0 := by
      rw [int32_natCast, hzero]
      rfl
    obtain ⟨o, hc, hend⟩ := hw
    rw [peParseRelocsDir, relocPasses, countRelocs_eq hc hend hfuel, Res.ok_bind, if_pos hcount]
    split_ifs <;> rfl
  · obtain ⟨hlt, hall, hle⟩ := h.resolve_left hzero
    obtain ⟨hval, hne, hsize⟩ := granted_of_count hzero hlt
    have hok : (fillBlocks img dirRva bs []).result = .ok () := by
      rw [fillBlocks_result hw.size_ge, if_pos hall]
    have hlen : ((fillBlocks img dirRva bs []).stores.length : Int) ≤ int32 (entrySum bs) := by
      rw [hval, length_fillBlocks hw.size_ge, List.length_nil, Nat.zero_add]
      exact_mod_cast hle
    refine ⟨{ img with relocs := (fillBlocks img dirRva bs []).stores.map (·.rva) }, ?_⟩
    rw [peParseRelocsDir, relocPasses_of_walk hw hrva hne grant (hgrant _ hsize) hfuel, Res.ok_bind]
    simp only [storeRelocs, hok, if_pos hlen]

end

/-- The blocks a directory has; none when it is absent. -/
def DirBlocks (img : PeImage) (dirRva dirSize : UInt32) (bs : List RelocBlock) : Prop :=
  if dirRva = 0 then bs = [] else Walk img dirRva dirSize bs

/-- The relocations a directory stands for: of each block in order, the `HIGHLOW` entries in order. -/
def fileRelocs (img : PeImage) (dirRva : UInt32) (bs : List RelocBlock) : List UInt32 :=
  bs.flatMap fun b => relocRvas b.header.virtualAddress (b.words img dirRva)

theorem entrySum_eq_zero (hsum : entrySum bs = 0) : ∀ b ∈ bs, b.entries = 0 := by
  intro b hb
  exact List.sum_eq_zero_iff_forall_eq_nat.mp hsum _ (List.mem_map_of_mem hb)

theorem two_entrySum_le (bs : List RelocBlock) : 2 * entrySum bs ≤ sizeSum bs := by
  induction bs with
  | nil => exact Nat.le_refl _
  | cons b bs ih =>
    have hb : 2 * b.entries ≤ b.size := by
      unfold RelocBlock.entries
      omega
    simp only [entrySum, sizeSum, List.map_cons, List.sum_cons] at ih ⊢
    omega

theorem fileRelocs_of_ok {grant : Nat → Bool} {fuel : Nat} (hnew : img.relocs = [])
    (hbs : DirBlocks img dirRva dirSize bs) (hsum : sizeSum bs < 2 ^ 32)
    (h : peParseRelocsDir grant fuel img dirRva dirSize = .ok img') : img'.relocs = fileRelocs img dirRva bs := by
  unfold DirBlocks at hbs
  split_ifs at hbs with hrva
  · subst hbs
    rw [peParseRelocsDir, relocPasses, if_pos (.inl hrva)] at h
    cases h
    exact hnew
  rcases relocs_of_ok hbs hrva h with ⟨hzero, rfl⟩ | ⟨-, -, hrelocs⟩
  · -- the second pass is skipped: the sum of the entries has not wrapped, so there are none
    have hentries := two_entrySum_le bs
    have hnone := entrySum_eq_zero (show entrySum bs = 0 by omega)
    rw [hnew, fileRelocs, eq_comm, List.flatMap_eq_nil_iff]
    intro b hb
    have hlen := @RelocBlock.length_words_le img' dirRva b
    rw [hnone b hb, Nat.le_zero, List.length_eq_zero_iff] at hlen
    rw [hlen]
    rfl
  · exact hrelocs

end

def RelocsAccepted (grant : Nat → Bool) (img : PeImage) (dirRva dirSize : UInt32) : Prop :=
  ∃ fuel img', peParseRelocsDir grant fuel img dirRva dirSize = .ok img'

section
variable (img : PeImage) (dirRva dirSize : UInt32)

/-- All bytes of the block are in the file, in one piece. -/
def RelocBlock.Backed (b : RelocBlock) : Prop :=
  (peRvaToPtr img (dirRva + b.off) b.header.sizeOfBlock).isSome

/-- The blocks tile the directory exactly, each one backed by the file in one piece. -/
structure WellTiled (bs : List RelocBlock) : Prop where
  exact : sizeSum bs = dirSize.toNat
  backed : ∀ b ∈ bs, b.Backed img dirRva

def RelocsWellFormed : Prop := ∃ bs, Walk img dirRva dirSize bs ∧ WellTiled img dirRva dirSize bs

def RelocBlock.start (b : RelocBlock) : Nat := (dirRva + b.off).toNat

/-- The virtual range of the section has the `n` bytes from RVA `a` on. -/
def PeSection.Takes (s : PeSection) (a n : Nat) : Prop :=
  s.rva.toNat ≤ a ∧ a + n ≤ s.rva.toNat + s.vsize.toNat

/-- No part of the image begins or ends in the block in such a way that the entries alone are found elsewhere
than the whole block is. -/
structure RelocBlock.Seamless (b : RelocBlock) : Prop where
  /-- The entries do not start at the end of the address space. -/
  no_wrap : b.entries ≠ 0 → b.start dirRva + 8 < 2 ^ 32
  /-- A section that takes the entries takes the header before them, and the PE headers do not end with it. -/
  no_seam : b.entries ≠ 0 → ∀ s ∈ img.sections, s.Takes (b.start dirRva + 8) (2 * b.entries) →
    s.rva.toNat ≤ b.start dirRva ∧
      (b.start dirRva < img.sizeOfHeaders.toNat → b.start dirRva + 8 < img.sizeOfHeaders.toNat)
  /-- What takes a block of odd size does not end one byte before it. -/
  odd_headers : b.size % 2 = 1 → b.start dirRva < img.sizeOfHeaders.toNat →
    b.start dirRva + b.size ≠ img.sizeOfHeaders.toNat + 1 ∧ b.start dirRva + b.size ≠ img.raw.size + 1
  odd_sections : b.size % 2 = 1 → ∀ s ∈ img.sections, s.Takes (b.start dirRva) 8 →
    b.start dirRva + b.size ≠ s.rva.toNat + s.vsize.toNat + 1 ∧
      b.start dirRva + b.size ≠ s.rva.toNat + s.fsize.toNat + 1

/-- A directory on whose blocks the checks of the parser are exact: the blocks are without seams, and if all of
them are in the file, they end where the directory does, and no empty block is the last thing that is mapped. -/
structure Regular (bs : List RelocBlock) : Prop where
  sum_lt : sizeSum bs < 2 ^ 32
  seamless : ∀ b ∈ bs, b.Seamless img dirRva
  exact : (∀ b ∈ bs, b.Backed img dirRva) → sizeSum bs = dirSize.toNat
  empty_mapped : (∀ b ∈ bs, b.Backed img dirRva) → entrySum bs ≠ 0 →
    ∀ b ∈ bs, b.entries = 0 → (peRvaToPtr img (dirRva + b.off + 8) 0).isSome

end

section
variable {img : PeImage} {dirRva dirSize : UInt32} {bs : List RelocBlock} {b : RelocBlock}

theorem relocsAccepted_iff_checksPass {grant : Nat → Bool} (hgrant : ∀ n, grant n = true ↔ n ≤ ptrdiffMax)
    (hrva : dirRva ≠ 0) (hsize : dirSize ≠ 0) : RelocsAccepted grant img dirRva dirSize ↔
      ∃ bs, Walk img dirRva dirSize bs ∧ ChecksPass img dirRva bs := by
  constructor
  · rintro ⟨fuel, img', h⟩
    obtain ⟨bs, hw⟩ := exists_walk_of_ok hrva hsize h
    exact ⟨bs, hw, checksPass_of_ok (fun n => (hgrant n).mp) hw hrva h⟩
  · rintro ⟨bs, hw, hpass⟩
    exact ⟨bs.length + 1, exists_ok_of_checksPass (fun n => (hgrant n).mpr) hw hrva hpass
      (Nat.lt_succ_self _)⟩

/-! ### Blocks without seams -/

theorem Chain.header_mapped {o o' : UInt32} (h : Chain img dirRva dirSize o bs o') :
    ∀ b ∈ bs, (peRvaToPtr img (dirRva + b.off) 8).isSome := by
  induction h with
  | nil => simp
  | cons hlt hblk hbs ih =>
    obtain ⟨p, hp, -, -⟩ := blockAt_eq_some.mp hblk
    exact List.forall_mem_cons.mpr ⟨Option.isSome_of_eq_some hp, ih⟩

theorem Walk.header_mapped (hw : Walk img dirRva dirSize bs) :
    ∀ b ∈ bs, (peRvaToPtr img (dirRva + b.off) 8).isSome :=
  let ⟨_, hc, _⟩ := hw
  hc.header_mapped

section lookup
variable {r r' l l' : UInt32} {s : PeSection} {ss : List PeSection}

theorem inSection_iff (ht : s.Takes r.toNat l.toNat) (hfile : s.fileOff.toNat + s.fsize.toNat ≤ img.raw.size) :
    InSection img r l s ↔ r.toNat + l.toNat ≤ s.rva.toNat + s.fsize.toNat := by
  obtain ⟨hstart, hv⟩ := ht
  constructor
  · intro h
    have hraw := h.raw
    omega
  · exact fun h => ⟨hstart, hv, by omega, by omega⟩

theorem sectionsRvaToPtr_eq_none {rawSize : Nat} (h : ∀ s ∈ ss, ¬ s.Takes r.toNat l.toNat) :
    sectionsRvaToPtr rawSize r l ss = none := by
  induction ss with
  | nil => rfl
  | cons s ss ih =>
    obtain ⟨hs, h⟩ := List.forall_mem_cons.mp h
    rw [sectionsRvaToPtr, if_neg fun ht => hs ⟨UInt32.le_iff_toNat_le.mp ht.1, ht.2⟩, ih h]

/-- Two ranges that the same sections take, and of which these have the raw data of both or of none. -/
theorem sectionsRvaToPtr_isSome_congr (hfile : ∀ s ∈ ss, s.fileOff.toNat + s.fsize.toNat ≤ img.raw.size)
    (hl : 0 < l.toNat) (hl' : 0 < l'.toNat)
    (h : ∀ s ∈ ss, (s.Takes r.toNat l.toNat ↔ s.Takes r'.toNat l'.toNat) ∧ (s.Takes r.toNat l.toNat →
      (r.toNat + l.toNat ≤ s.rva.toNat + s.fsize.toNat ↔ r'.toNat + l'.toNat ≤ s.rva.toNat + s.fsize.toNat))) :
    (sectionsRvaToPtr img.raw.size r l ss).isSome ↔ (sectionsRvaToPtr img.raw.size r' l' ss).isSome := by
  induction ss with
  | nil => exact Iff.rfl
  | cons s ss ih =>
    obtain ⟨⟨htakes, hraw⟩, h⟩ := List.forall_mem_cons.mp h
    obtain ⟨hs, hfile⟩ := List.forall_mem_cons.mp hfile
    by_cases ht : s.Takes r.toNat l.toNat
    · have ht' := htakes.mp ht
      simp only [Option.isSome_iff_exists, sectionsRvaToPtr_cons ht.1 ht.2 hl,
        sectionsRvaToPtr_cons ht'.1 ht'.2 hl', exists_and_left, exists_eq, and_true]
      rw [inSection_iff ht hs, inSection_iff ht' hs]
      exact hraw ht
    · have ht' := mt htakes.mpr ht
      rw [sectionsRvaToPtr, if_neg fun hin => ht ⟨UInt32.le_iff_toNat_le.mp hin.1, hin.2⟩, sectionsRvaToPtr,
        if_neg fun hin => ht' ⟨UInt32.le_iff_toNat_le.mp hin.1, hin.2⟩]
      exact ih hfile h

theorem peRvaToPtr_isSome_headers (h : r.toNat < img.sizeOfHeaders.toNat) : (peRvaToPtr img r l).isSome ↔
    r.toNat + l.toNat ≤ img.sizeOfHeaders.toNat ∧ r.toNat + l.toNat ≤ img.raw.size := by
  rw [peRvaToPtr, if_pos (UInt32.lt_iff_toNat_lt.mpr h)]
  split_ifs <;> simp <;> omega

theorem peRvaToPtr_sections (h : img.sizeOfHeaders.toNat ≤ r.toNat) :
    peRvaToPtr img r l = sectionsRvaToPtr img.raw.size r l img.sections := by
  rw [peRvaToPtr, if_neg (by rw [UInt32.lt_iff_toNat_lt]; exact Nat.not_lt.mpr h)]

end lookup

namespace RelocBlock.Seamless
variable (hfile : ∀ s ∈ img.sections, s.fileOff.toNat + s.fsize.toNat ≤ img.raw.size)
  (h : b.Seamless img dirRva) (h8 : 8 ≤ b.size)
include hfile h h8

/-- A block of odd size is backed by the file when its header and its entries are. -/
theorem backed_iff : b.Backed img dirRva ↔
    (peRvaToPtr img (dirRva + b.off) (UInt32.ofNat (8 + 2 * b.entries))).isSome := by
  have hentries : b.entries = (b.size - 8) / 2 := rfl
  have hlt := b.header.sizeOfBlock.toNat_lt
  have hsize : b.header.sizeOfBlock.toNat = b.size := rfl
  have hn : (UInt32.ofNat (8 + 2 * b.entries)).toNat = 8 + 2 * b.entries :=
    UInt32.toNat_ofNat_of_lt' (show 8 + 2 * b.entries < 2 ^ 32 by omega)
  have hstart : (dirRva + b.off).toNat = b.start dirRva := rfl
  rcases Nat.mod_two_eq_zero_or_one b.size with heven | hodd
  · have hsame : UInt32.ofNat (8 + 2 * b.entries) = b.header.sizeOfBlock := UInt32.toNat_inj.mp (by omega)
    rw [hsame]
    exact Iff.rfl
  · rw [Backed]
    rcases Nat.lt_or_ge (b.start dirRva) img.sizeOfHeaders.toNat with hin | hin
    · have hends := h.odd_headers hodd hin
      rw [peRvaToPtr_isSome_headers hin, peRvaToPtr_isSome_headers hin, hn, hsize, hstart]
      omega
    · rw [peRvaToPtr_sections hin, peRvaToPtr_sections hin]
      refine sectionsRvaToPtr_isSome_congr hfile (by omega) (by omega) fun s hs => ?_
      rw [hn, hsize, hstart]
      simp only [PeSection.Takes]
      have hends := h.odd_sections hodd s hs
      simp only [PeSection.Takes] at hends
      omega

variable (hhead : (peRvaToPtr img (dirRva + b.off) 8).isSome)
include hhead

theorem backed_of_empty (hzero : b.entries = 0) : b.Backed img dirRva := by
  rw [h.backed_iff hfile h8, hzero]
  exact hhead

/-- The entries are found where the whole block is, or neither of them is. -/
theorem mapped_iff (hne : b.entries ≠ 0) : b.Mapped img dirRva ↔ b.Backed img dirRva := by
  have hlt := b.header.sizeOfBlock.toNat_lt
  have hentries : b.entries = (b.size - 8) / 2 := rfl
  have hsize : b.header.sizeOfBlock.toNat = b.size := rfl
  have hn : (UInt32.ofNat (8 + 2 * b.entries)).toNat = 8 + 2 * b.entries :=
    UInt32.toNat_ofNat_of_lt' (show 8 + 2 * b.entries < 2 ^ 32 by omega)
  have hn' : (UInt32.ofNat (2 * b.entries)).toNat = 2 * b.entries := UInt32.toNat_ofNat_of_lt' b.two_entries_lt
  have hstart : (dirRva + b.off).toNat = b.start dirRva := rfl
  have hnext : (dirRva + b.off + 8).toNat = b.start dirRva + 8 := toNat_add_of_lt (h.no_wrap hne)
  have hseam := h.no_seam hne
  rw [h.backed_iff hfile h8, Mapped, entriesAt]
  rcases Nat.lt_or_ge (b.start dirRva) img.sizeOfHeaders.toNat with hin | hin
  · obtain ⟨hheaders, hraw⟩ := (peRvaToPtr_isSome_headers hin).mp hhead
    have height : (8 : UInt32).toNat = 8 := rfl
    rw [hstart, height] at hheaders hraw
    rw [peRvaToPtr_isSome_headers hin, hn, hstart]
    rcases Nat.lt_or_eq_of_le hheaders with hlt' | heq
    · rw [peRvaToPtr_isSome_headers (by omega), hnext, hn']
      omega
    · -- the headers end with the block's header
      have hnone : ∀ s ∈ img.sections, ¬ s.Takes (dirRva + b.off + 8).toNat (UInt32.ofNat (2 * b.entries)).toNat := by
        intro s hs ht
        rw [hnext, hn'] at ht
        exact absurd ((hseam s hs ht).2 hin) (by omega)
      rw [peRvaToPtr_sections (by omega), sectionsRvaToPtr_eq_none hnone, Option.isSome_none]
      simp only [Bool.false_eq_true, false_iff]
      omega
  · rw [peRvaToPtr_sections hin, peRvaToPtr_sections (by omega)]
    refine sectionsRvaToPtr_isSome_congr hfile (by omega) (by omega) fun s hs => ?_
    have hs' := hseam s hs
    rw [hnext, hn, hn', hstart]
    simp only [PeSection.Takes] at hs' ⊢
    omega

end RelocBlock.Seamless

/-- Over a regular directory what is checked is all there is to check. -/
theorem Regular.checksPass_iff (h : Regular img dirRva dirSize bs) (hw : Walk img dirRva dirSize bs)
    (hfile : ∀ s ∈ img.sections, s.fileOff.toNat + s.fsize.toNat ≤ img.raw.size) :
    ChecksPass img dirRva bs ↔ WellTiled img dirRva dirSize bs := by
  have hsum := h.sum_lt
  have htwo := two_entrySum_le bs
  have hmod : entrySum bs % 2 ^ 32 = entrySum bs := Nat.mod_eq_of_lt (by omega)
  rw [ChecksPass, hmod]
  constructor
  · intro hpass
    have hbacked : ∀ b ∈ bs, b.Backed img dirRva := by
      intro b hb
      have hseam := h.seamless b hb
      have h8 := hw.size_ge b hb
      have hhead := hw.header_mapped b hb
      by_cases hzero : b.entries = 0
      · exact hseam.backed_of_empty hfile h8 hhead hzero
      · rcases hpass with hnone | ⟨-, hall, -⟩
        · exact absurd (entrySum_eq_zero hnone b hb) hzero
        · exact (hseam.mapped_iff hfile h8 hhead hzero).mp (hall b hb)
    exact ⟨h.exact hbacked, hbacked⟩
  · rintro ⟨-, hbacked⟩
    by_cases hnone : entrySum bs = 0
    · exact .inl hnone
    refine .inr ⟨by omega, ?_, Nat.le_trans List.countP_le_length (length_walkWords_le bs)⟩
    intro b hb
    by_cases hzero : b.entries = 0
    · rw [RelocBlock.Mapped, RelocBlock.entriesAt, hzero]
      exact h.empty_mapped hbacked hnone b hb hzero
    · exact ((h.seamless b hb).mapped_iff hfile (hw.size_ge b hb) (hw.header_mapped b hb) hzero).mpr (hbacked b hb)

end

/-- A directory of 10 bytes in the headers whose only block has 12, and a `HIGHLOW` entry. -/
def relocOvershootFile : Buffer :=
  MkMiniPe.minimalNoimport.patches [(224, 0x160), (228, 10), (0x160, 0x1000), (0x164, 12), (0x168, 0x3004)]

theorem relocOvershootFile_loads : ∃ img dirs,
    peReadHeaders (fun _ => true) relocOvershootFile = .ok (img, dirs) ∧
    dirs.relocs.virtualAddress ≠ 0 ∧ dirs.relocs.size = 10 ∧ img.relocs = [] ∧
    Walk img dirs.relocs.virtualAddress dirs.relocs.size [⟨0, ⟨0x1000, 12⟩⟩] ∧ ∃ img',
      peParseRelocsDir (· ≤ ptrdiffMax) 2 img dirs.relocs.virtualAddress dirs.relocs.size = .ok img' := by
  have hrun : (peReadHeaders (fun _ => true) relocOvershootFile).okAnd fun p =>
      p.2.relocs.virtualAddress ≠ 0 ∧ p.2.relocs.size = 10 ∧ p.1.relocs = [] ∧
        blockAt p.1 p.2.relocs.virtualAddress 0 = some ⟨0x1000, 12⟩ ∧
        (peParseRelocsDir (· ≤ ptrdiffMax) 2 p.1 p.2.relocs.virtualAddress p.2.relocs.size).okAnd
          fun _ => true := by decide +kernel
  obtain ⟨⟨img, dirs⟩, himg, hrun⟩ := Res.okAnd_iff.mp hrun
  obtain ⟨hrva, hsize, hnew, hblk, hok⟩ := of_decide_eq_true hrun
  obtain ⟨img', hok, -⟩ := Res.okAnd_iff.mp hok
  dsimp only at hrva hsize hnew hblk
  refine ⟨img, dirs, himg, hrva, hsize, hnew, ?_, img', hok⟩
  rw [hsize]
  exact ⟨12, .cons (by decide) hblk (.nil _), by decide⟩

/-- A directory that ends with the headers, its last block an empty one. -/
def relocFlushFile : Buffer :=
  MkMiniPe.minimalNoimport.patches
    [(224, 0x1EC), (228, 20), (0x1EC, 0x1000), (0x1F0, 12), (0x1F8, 0x1000), (0x1FC, 8)]

theorem relocFlushFile_rejected : ∃ img dirs,
    peReadHeaders (fun _ => true) relocFlushFile = .ok (img, dirs) ∧
    dirs.relocs.virtualAddress ≠ 0 ∧ dirs.relocs.size ≠ 0 ∧
    ¬ RelocsAccepted (· ≤ ptrdiffMax) img dirs.relocs.virtualAddress dirs.relocs.size ∧
    RelocsWellFormed img dirs.relocs.virtualAddress dirs.relocs.size := by
  have hrun : (peReadHeaders (fun _ => true) relocFlushFile).okAnd fun p =>
      p.2.relocs.virtualAddress = 0x1EC ∧ p.2.relocs.size = 20 ∧
        blockAt p.1 0x1EC 0 = some ⟨0x1000, 12⟩ ∧ blockAt p.1 0x1EC 12 = some ⟨0x1000, 8⟩ ∧
        (peRvaToPtr p.1 0x1EC 12).isSome ∧ (peRvaToPtr p.1 0x1F8 8).isSome ∧
        peRvaToPtr p.1 0x200 0 = none := by decide +kernel
  obtain ⟨⟨img, dirs⟩, himg, hrun⟩ := Res.okAnd_iff.mp hrun
  obtain ⟨hdir, hsize, hblk, hblk', hptr, hptr', hnone⟩ := of_decide_eq_true hrun
  dsimp only at hdir hsize hblk hblk' hptr hptr' hnone
  refine ⟨img, dirs, himg, ?_⟩
  rw [hdir, hsize]
  have hwalk : Walk img 0x1EC 20 [⟨0, ⟨0x1000, 12⟩⟩, ⟨12, ⟨0x1000, 8⟩⟩] :=
    ⟨20, .cons (by decide) hblk (.cons (by decide) hblk' (.nil _)), by decide⟩
  have hwell : WellTiled img 0x1EC 20 [⟨0, ⟨0x1000, 12⟩⟩, ⟨12, ⟨0x1000, 8⟩⟩] := by
    refine ⟨rfl, ?_⟩
    simp only [List.forall_mem_cons, List.not_mem_nil, false_implies, implies_true, and_true]
    exact ⟨hptr, hptr'⟩
  refine ⟨by decide, by decide, fun hacc => ?_, _, hwalk, hwell⟩
  obtain ⟨bs, hw, hpass⟩ := (relocsAccepted_iff_checksPass (fun n => decide_eq_true_iff) (by decide)
    (by decide)).mp hacc
  obtain rfl := hw.unique hwalk
  rcases hpass with hzero | ⟨-, hall, -⟩
  · exact absurd hzero (by decide)
  · have hmapped : (peRvaToPtr img 0x200 0).isSome := hall ⟨12, ⟨0x1000, 8⟩⟩ (by simp)
    rw [hnone] at hmapped
    cases hmapped

end Winlift

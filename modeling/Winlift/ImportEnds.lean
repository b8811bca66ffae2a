import Winlift.ImportSpec
import Winlift.PeReader

/-!
# Where the import walks end

Nothing in the walks over descriptors and thunks bounds them. The RVA a walk steps goes round the
32-bit space, and after `2 ^ 30` passes it is back where it began. The walk gets that far when headers
and sections back the whole space: every RVA with the right residue modulo 4 is that of an entry that
is accepted and is not a terminator (`ThunksEverywhere`, `DescriptorsEverywhere`).
-/

namespace Winlift
open CSem

/-- A non-zero thunk that is accepted, at every RVA that is `rva` modulo 4. -/
def ThunksEverywhere (img : PeImage) (rva : UInt32) : Prop :=
  ∀ a : UInt32, a % 4 = rva % 4 → ∃ p, peRvaToPtr img a 4 = some p ∧ img.raw.le32 p ≠ 0 ∧
    ThunkAccepted img (img.raw.le32 p)

/-- A descriptor that is accepted and not all zero, at every RVA that is `dirRva` modulo 4. -/
def DescriptorsEverywhere (img : PeImage) (dirRva : UInt32) : Prop :=
  ∀ a : UInt32, a % 4 = dirRva % 4 → ∃ p, peRvaToPtr img a 20 = some p ∧
    ¬ (peImportDescriptorAt img.raw p).isTerminator ∧ DllAccepted img (peImportDescriptorAt img.raw p)

/-- What is asked of the descriptor is met, but its thunks go round. -/
structure DllEndless (img : PeImage) (desc : PeImportDescriptor) : Prop where
  name : ∃ s, CStringAt img desc.name 63 s
  notForwarded : desc.forwarderChain = 0 ∨ desc.forwarderChain = 0xFFFFFFFF
  thunks : ThunksEverywhere img desc.thunkRva

/-- The descriptor walk does not go round, nor do the thunks of a descriptor it comes to. -/
structure TablesEnd (img : PeImage) (dirRva : UInt32) : Prop where
  descriptors : ¬ DescriptorsEverywhere img dirRva
  thunks : ∀ descs desc,
    Entries (descriptorAt img dirRva) PeImportDescriptor.isTerminator (descs ++ [desc]) →
      (∀ d ∈ descs, DllAccepted img d) → ¬ DllEndless img desc

/-- Every walk of the parser ends within `2 ^ 30` passes. The RVAs of these are all different; that
of the next pass is the first one again. -/
def ImportWalksEnd (alloc : Alloc) (img : PeImage) (dirRva : UInt32) : Prop :=
  peParseImportsDir alloc (2 ^ 30) img dirRva ≠ .timeout

/-! ### Strides -/

section
variable {img : PeImage} {rva s : UInt32} {inv : Nat}

/-- A stride that is an odd multiple of 4 comes to every RVA with the right residue. -/
theorem exists_stride_iff (hs : 4 ∣ s.toNat) (hinv : UInt32.ofNat inv * s = 4) {a : UInt32} :
    (∃ k, rva + UInt32.ofNat k * s = a) ↔ a % 4 = rva % 4 := by
  rw [← UInt32.toNat_inj, UInt32.toNat_mod, UInt32.toNat_mod]
  constructor
  · rintro ⟨k, rfl⟩
    obtain ⟨m, hm⟩ := hs
    rw [UInt32.toNat_add, UInt32.toNat_mul, hm, Nat.mul_left_comm]
    generalize (UInt32.ofNat k).toNat * m = x
    show (rva.toNat + 4 * x % 2 ^ 32) % 2 ^ 32 % 4 = rva.toNat % 4
    omega
  · intro h
    have hdvd : (a - rva) / 4 * 4 = a - rva := by
      rw [← UInt32.toNat_inj, UInt32.toNat_mul, UInt32.toNat_div, UInt32.toNat_sub]
      show _ / 4 * 4 % 2 ^ 32 = _
      change a.toNat % 4 = rva.toNat % 4 at h
      have := rva.toNat_lt
      have := a.toNat_lt
      omega
    refine ⟨((a - rva) / 4).toNat * inv, ?_⟩
    rw [UInt32.ofNat_mul, UInt32.ofNat_toNat, UInt32.mul_assoc, hinv, hdvd, UInt32.add_comm,
      UInt32.sub_add_cancel]

/-- A table read at the RVAs of such a stride goes on for ever iff every RVA with its residue does. -/
theorem endless_iff {α : Type} {isEnd P : α → Prop} {n : UInt32} {f : Nat → α} (hs : 4 ∣ s.toNat)
    (hinv : UInt32.ofNat inv * s = 4) :
    Endless (fun k => (peRvaToPtr img (rva + UInt32.ofNat k * s) n).map f) isEnd P ↔
      ∀ a : UInt32, a % 4 = rva % 4 → ∃ p, peRvaToPtr img a n = some p ∧ ¬ isEnd (f p) ∧ P (f p) := by
  constructor
  · intro h a ha
    obtain ⟨k, rfl⟩ := (exists_stride_iff hs hinv).mpr ha
    obtain ⟨x, hx, hend, hP⟩ := h k
    obtain ⟨p, hp, rfl⟩ := Option.map_eq_some_iff.mp hx
    exact ⟨p, hp, hend, hP⟩
  · intro h k
    obtain ⟨p, hp, hend, hP⟩ := h _ ((exists_stride_iff hs hinv).mp ⟨k, rfl⟩)
    exact ⟨f p, Option.map_eq_some_iff.mpr ⟨p, hp, rfl⟩, hend, hP⟩

theorem endless_thunkAt :
    Endless (thunkAt img rva) (· = 0) (ThunkAccepted img) ↔ ThunksEverywhere img rva :=
  endless_iff (s := 4) (by decide) (show UInt32.ofNat 1 * 4 = 4 from rfl)

theorem endless_descriptorAt :
    Endless (descriptorAt img rva) PeImportDescriptor.isTerminator (DllAccepted img) ↔
      DescriptorsEverywhere img rva :=
  endless_iff (s := 20) (by decide) (show UInt32.ofNat 3435973837 * 20 = 4 from rfl)

end

/-! ### The thunk walk -/

section
variable {img : PeImage} {rva : UInt32} {n : Nat}

@[simp] theorem readCStringFrom_ne_timeout (i : Nat) : readCStringFrom img rva n i ≠ .timeout := by
  induction n generalizing i with
  | zero => simp [readCStringFrom]
  | succ n ih =>
    rw [readCStringFrom_succ]
    cases byteAt img rva i with
    | none => simp
    | some c =>
      dsimp only
      split_ifs
      · simp
      · simp [Res.bind_eq_timeout, ih]

@[simp] theorem readCString_ne_timeout : readCString img rva n ≠ .timeout :=
  readCStringFrom_ne_timeout 0

variable {grant : Nat → Bool} {dllName : List UInt8} {thunk iatRva : UInt32}

@[simp] theorem parseThunk_ne_timeout : parseThunk img dllName thunk iatRva ≠ .timeout := by
  unfold parseThunk
  split_ifs
  · simp
  · simp [Res.bind_eq_timeout]

theorem thunkStep_ne_timeout (s : ThunkState) : thunkStep grant img dllName rva iatRva s ≠ .timeout := by
  simp only [thunkStep, ne_eq, Res.bind_eq_timeout, Res.orReject_ne_timeout, readable_ne_timeout, false_or]
  rintro ⟨p, -, q, -, h⟩
  split_ifs at h
  simp [Res.bind_eq_timeout] at h

theorem thunkLoop_eq_timeout (hgrant : ∀ n ≤ ptrdiffMax, grant n = true) :
    loop (thunkStep grant img dllName rva iatRva) (2 ^ 30) ⟨0, [], 0⟩ = .timeout ↔
      ThunksEverywhere img rva := by
  rw [loop_eq_timeout, ← endless_thunkAt]
  constructor
  · rintro (⟨s, hp⟩ | ⟨k, s, -, -, ht⟩)
    · obtain ⟨-, ts, hlen, hts, hacc, -⟩ := thunkStep_passes hp
      exact hts.endless hacc hlen (by decide) (thunkAt_add_period img rva)
    · exact absurd ht (thunkStep_ne_timeout s)
  · intro h
    obtain ⟨ts, hlen, hts, hacc⟩ := h.exists_entries (2 ^ 30)
    obtain ⟨s, hp, -⟩ := exists_thunkStep_passes dllName iatRva hgrant hts hacc (Nat.le_of_eq hlen)
      (Nat.le_of_eq hlen.symm)
    exact .inl ⟨s, hp⟩

end

/-! ### The descriptor walk -/

section
variable {img : PeImage} {alloc : Alloc} {imports : List PeImportDll} {importsCap : Int}
  {desc : PeImportDescriptor} {dirRva : UInt32}

theorem parseOneDll_eq_timeout (ha : alloc.Succeeds) :
    parseOneDll alloc (2 ^ 30) img imports importsCap desc = .timeout ↔
      (∃ cap, ensureCapacity alloc.imports importsCap imports.length peImportDllSize = some cap) ∧
        DllEndless img desc := by
  simp only [parseOneDll, Res.bind_eq_timeout, Res.orReject_ne_timeout, Res.orReject_eq_ok,
    Res.rejectIf_ne_timeout, Res.rejectIf_eq_ok, readCString_ne_timeout, false_or]
  constructor
  · rintro ⟨cap, hcap, _, hname, name, rfl, -, hfwd, hloop⟩
    refine ⟨⟨cap, hcap⟩, ⟨name, readCString_eq_some.mp hname⟩, not_forwarded_iff.mp hfwd, ?_⟩
    rcases hloop with hloop | ⟨s, -, hs⟩
    · exact (thunkLoop_eq_timeout (ha.funcs imports.length)).mp hloop
    · cases hs
  · rintro ⟨⟨cap, hcap⟩, ⟨name, hname⟩, hfwd, hthunks⟩
    exact ⟨cap, hcap, some name, readCString_eq_some.mpr hname, name, rfl, (),
      not_forwarded_iff.mpr hfwd, .inl ((thunkLoop_eq_timeout (ha.funcs imports.length)).mpr hthunks)⟩

theorem importStep_eq_timeout {fuel k : Nat} {s : ImportState} (hi : s.i = UInt32.ofNat k) :
    importStep alloc fuel img dirRva s = .timeout ↔
      ∃ desc, descriptorAt img dirRva k = some desc ∧ ¬ desc.isTerminator ∧
        parseOneDll alloc fuel img s.imports s.importsCap desc = .timeout := by
  rw [importStep_eq hi, Res.bind_eq_timeout, or_iff_right (Res.orReject_ne_timeout _ _)]
  refine exists_congr fun desc => and_congr Res.orReject_eq_ok ?_
  by_cases hend : desc.isTerminator
  · simp [hend]
  · simp [hend, Res.bind_eq_timeout]

/-- As many accepted descriptors as there are passes are all gone through. -/
theorem importLoop_eq_timeout_of_entries (ha : alloc.Succeeds) {descs : List PeImportDescriptor}
    (hdescs : Entries (descriptorAt img dirRva) PeImportDescriptor.isTerminator descs)
    (hacc : ∀ desc ∈ descs, DllAccepted img desc) (hlen : descs.length = 2 ^ 30) :
    loop (importStep alloc (2 ^ 30) img dirRva) (2 ^ 30) ⟨0, [], 0⟩ = .timeout := by
  obtain ⟨s, hp, -⟩ := exists_importStep_passes ha (Nat.le_refl _) hdescs hacc (Nat.le_of_eq hlen)
    (Nat.le_of_eq hlen.symm)
  exact loop_eq_timeout.mpr (.inl ⟨s, hp⟩)

theorem importLoop_eq_timeout (ha : alloc.Succeeds) :
    loop (importStep alloc (2 ^ 30) img dirRva) (2 ^ 30) ⟨0, [], 0⟩ = .timeout ↔
      ¬ TablesEnd img dirRva := by
  constructor
  · rintro h ⟨hdescs, hthunks⟩
    rcases loop_eq_timeout.mp h with ⟨s, hp⟩ | ⟨k, s, -, hp, ht⟩
    · obtain ⟨-, descs, hlen, hent, hacc, -⟩ := importStep_passes hp
      exact hdescs (endless_descriptorAt.mp
        (hent.endless hacc hlen (by decide) (descriptorAt_add_period img dirRva)))
    · obtain ⟨hi, descs, rfl, hent, hacc, -⟩ := importStep_passes hp
      obtain ⟨desc, hdesc, hnot, ht⟩ := (importStep_eq_timeout hi).mp ht
      exact hthunks descs desc (hent.snoc hdesc hnot) hacc ((parseOneDll_eq_timeout ha).mp ht).2
  · intro h
    by_contra hloop
    refine h ⟨fun hdescs => ?_, fun descs desc hent hacc hdll => ?_⟩
    · obtain ⟨descs, hlen, hent, hacc⟩ := (endless_descriptorAt.mpr hdescs).exists_entries (2 ^ 30)
      exact hloop (importLoop_eq_timeout_of_entries ha hent hacc hlen)
    · have hbefore : Entries (descriptorAt img dirRva) PeImportDescriptor.isTerminator descs := by
        have htake := hent.take descs.length
        rwa [List.take_left] at htake
      rcases Nat.lt_or_ge descs.length (2 ^ 30) with hlt | hge
      · obtain ⟨s, hp, hlen, hcap⟩ := exists_importStep_passes ha (Nat.le_refl _) hbefore hacc
          (Nat.le_of_lt hlt) (Nat.le_refl _)
        obtain ⟨cap, hgrow, -⟩ := ensureCapacity_of_le ha.imports peImportDllSize (hlen ▸ hcap)
          (hlen ▸ hlt) (by decide)
        obtain ⟨hdesc, hnot⟩ := hent descs.length (by simp)
        rw [List.getElem_concat_length rfl] at hdesc hnot
        exact hloop (loop_eq_timeout.mpr (.inr ⟨_, s, hlt, hp,
          (importStep_eq_timeout (importStep_passes hp).1).mpr
            ⟨desc, hdesc, hnot, (parseOneDll_eq_timeout ha).mpr ⟨⟨cap, hgrow⟩, hdll⟩⟩⟩))
      · -- the walk has gone round before it comes to `desc`
        exact hloop (importLoop_eq_timeout_of_entries ha (hbefore.take (2 ^ 30))
          (fun d hd => hacc d (List.mem_of_mem_take hd)) (List.length_take_of_le hge))

/-- The walks end iff no table they come to is backed at every RVA they can step to. -/
theorem importWalksEnd_iff (ha : alloc.Succeeds) (hnew : img.imports = []) (hcap : img.importsCap = 0) :
    ImportWalksEnd alloc img dirRva ↔ dirRva = 0 ∨ TablesEnd img dirRva := by
  unfold ImportWalksEnd peParseImportsDir
  rcases eq_or_ne dirRva 0 with hdir | hdir
  · simp [hdir]
  · rw [if_neg hdir, hnew, hcap, Ne, Res.bind_eq_timeout, importLoop_eq_timeout ha]
    simp [hdir]

end

/-- Behind its section nothing is backed. -/
theorem ordinalImport_unbacked (rva : UInt32) : ∃ a : UInt32, a % 4 = rva % 4 ∧
    ∀ n, peRvaToPtr ordinalImportHeaders a n = none := by
  have hmod : (rva % 4).toNat = rva.toNat % 4 := UInt32.toNat_mod ..
  have hend : (0x2000 + rva % 4).toNat = 0x2000 + rva.toNat % 4 := by
    rw [toNat_add_of_lt (by rw [hmod]; show 0x2000 + _ < _; omega), hmod]
    rfl
  refine ⟨0x2000 + rva % 4, ?_, fun n => ?_⟩
  · rw [← UInt32.toNat_inj, UInt32.toNat_mod, hend, hmod]
    show (0x2000 + rva.toNat % 4) % 4 = rva.toNat % 4
    omega
  · have hheaders : ¬ 0x2000 + rva % 4 < ordinalImportHeaders.sizeOfHeaders := by
      rw [UInt32.lt_iff_toNat_lt, hend]
      show ¬ 0x2000 + _ < 0x200
      omega
    have htext : ¬ (0x1000 ≤ 0x2000 + rva % 4 ∧ (0x2000 + rva % 4).toNat + n.toNat ≤ 0x1000 + 79) := by
      omega
    rw [peRvaToPtr, if_neg hheaders]
    exact if_neg htext

/-- The walks of the fixture end. -/
theorem importWalksEnd_ordinalImport : ImportWalksEnd .generous ordinalImportHeaders 0x1012 := by
  refine (importWalksEnd_iff Alloc.generous_succeeds rfl rfl).mpr (.inr ⟨fun hall => ?_, fun _ desc _ _ hend => ?_⟩)
  · obtain ⟨a, ha, hnone⟩ := ordinalImport_unbacked 0x1012
    obtain ⟨p, hp, -⟩ := hall a ha
    cases (hnone 20).symm.trans hp
  · obtain ⟨a, ha, hnone⟩ := ordinalImport_unbacked desc.thunkRva
    obtain ⟨p, hp, -⟩ := hend.thunks a ha
    cases (hnone 4).symm.trans hp

/-! ### A file whose sections back every RVA -/

/-- Headers of no size of their own, and two sections that share the rest of the file: one from RVA 0
and one from RVA `0x80000000` on, `2 ^ 32 - 1` bytes each. -/
def allOnesHeaders : Buffer :=
  MkMiniPe.minimalNoimport.patches
    [(68, 0x0002014C), (148, 0), (192, 0x1000), (196, 20),
      (320, 0xFFFFFFFF), (324, 0), (328, 0xFFFFFFFF), (332, 0x200),
      (360, 0xFFFFFFFF), (364, 0x80000000), (368, 0xFFFFFFFF), (372, 0x200)]

/-- Every byte after the headers is `0xFF`. -/
def allOnesFile : Buffer where
  size := 0x200 + 0xFFFFFFFF
  byte i := if i < 0x200 then allOnesHeaders.byte i else 0xFF

theorem allOnesFile_byte {p : Nat} (hp : 0x200 ≤ p) : allOnesFile.byte p = 0xFF :=
  if_neg (Nat.not_lt.mpr hp)

theorem allOnesFile_le32 {p : Nat} (hp : 0x200 ≤ p) : allOnesFile.le32 p = 0xFFFFFFFF := by
  rw [Buffer.le32, allOnesFile_byte hp, allOnesFile_byte (Nat.le_add_right_of_le hp),
    allOnesFile_byte (Nat.le_add_right_of_le hp), allOnesFile_byte (Nat.le_add_right_of_le hp)]
  rfl

theorem allOnesFile_loads : ∃ img dirs,
    peReadHeaders Alloc.generous.sections allOnesFile = .ok (img, dirs) ∧
    dirs.imports.virtualAddress = 0x1000 ∧ img.sizeOfHeaders = 0 ∧
    img.sections.map (fun s => (s.rva, s.vsize, s.fileOff, s.fsize)) =
      [(0, 0xFFFFFFFF, 0x200, 0xFFFFFFFF), (0x80000000, 0xFFFFFFFF, 0x200, 0xFFFFFFFF)] := by
  have hrun : (peReadHeaders Alloc.generous.sections allOnesFile).okAnd fun p =>
      p.2.imports.virtualAddress = 0x1000 ∧ p.1.sizeOfHeaders = 0 ∧
        p.1.sections.map (fun s => (s.rva, s.vsize, s.fileOff, s.fsize)) =
          [(0, 0xFFFFFFFF, 0x200, 0xFFFFFFFF), (0x80000000, 0xFFFFFFFF, 0x200, 0xFFFFFFFF)] := by
    decide +kernel
  obtain ⟨⟨img, dirs⟩, himg, hrun⟩ := Res.okAnd_iff.mp hrun
  exact ⟨img, dirs, himg, of_decide_eq_true hrun⟩

section
variable {img : PeImage} (hheaders : img.sizeOfHeaders = 0) (hraw : img.raw = allOnesFile)
  (hsections : img.sections.map (fun s => (s.rva, s.vsize, s.fileOff, s.fsize)) =
    [(0, 0xFFFFFFFF, 0x200, 0xFFFFFFFF), (0x80000000, 0xFFFFFFFF, 0x200, 0xFFFFFFFF)])
include hheaders hraw hsections

theorem allOnes_rvaToPtr (rva minLen : UInt32) (hpos : 0 < minLen.toNat)
    (hlen : minLen.toNat ≤ 20) : ∃ p, 0x200 ≤ p ∧ peRvaToPtr img rva minLen = some p := by
  have hsize : img.raw.size = 0x200 + 0xFFFFFFFF := by rw [hraw]; rfl
  have hlt := rva.toNat_lt
  obtain ⟨low, rest, hss, hlow, hrest⟩ := List.map_eq_cons_iff.mp hsections
  obtain ⟨high, rest, rfl, hhigh, -⟩ := List.map_eq_cons_iff.mp hrest
  obtain ⟨hlow₁, hlow₂, hlow₃, hlow₄⟩ : low.rva = 0 ∧ low.vsize = 0xFFFFFFFF ∧ low.fileOff = 0x200 ∧
      low.fsize = 0xFFFFFFFF := by simpa using hlow
  obtain ⟨hhigh₁, hhigh₂, hhigh₃, hhigh₄⟩ : high.rva = 0x80000000 ∧ high.vsize = 0xFFFFFFFF ∧
      high.fileOff = 0x200 ∧ high.fsize = 0xFFFFFFFF := by simpa using hhigh
  rw [peRvaToPtr, hheaders, if_neg (by simp), hss, hsize]
  by_cases hfit : rva.toNat + minLen.toNat ≤ 0xFFFFFFFF
  · refine ⟨_, ?_, sectionsRvaToPtr_of_le ?_ hpos ?_ ?_ ?_⟩
    all_goals simp [*]
  · -- only the upper section takes the ranges that end at the top
    have hle : (0x80000000 : UInt32) ≤ rva := by
      rw [UInt32.le_iff_toNat_le]
      show 0x80000000 ≤ rva.toNat
      omega
    rw [sectionsRvaToPtr, if_neg (by simp [*])]
    refine ⟨_, ?_, sectionsRvaToPtr_of_le (hhigh₁ ▸ hle) hpos ?_ ?_ ?_⟩
    · rw [hhigh₃]
      exact Nat.le_add_right _ _
    · rw [hhigh₁, hhigh₂]
      show _ ≤ 0x80000000 + 0xFFFFFFFF
      omega
    · rw [hhigh₁, hhigh₄]
      show _ ≤ 0x80000000 + 0xFFFFFFFF
      omega
    · rw [hhigh₃, hhigh₄]
      exact Nat.le_refl _

theorem allOnes_cString (rva : UInt32) (n : Nat) : CStringAt img rva n (List.replicate n 0xFF) := by
  refine ⟨fun k hk => ?_, .inl List.length_replicate⟩
  obtain ⟨p, hp, hptr⟩ := allOnes_rvaToPtr hheaders hraw hsections (rva + UInt32.ofNat k)
    1 (by decide) (by decide)
  rw [byteAt, hptr, hraw, Option.map_some, allOnesFile_byte hp, List.getElem_replicate]
  exact ⟨rfl, by decide⟩

theorem allOnes_thunks (rva : UInt32) : ThunksEverywhere img rva := by
  intro a _
  obtain ⟨p, hp, hptr⟩ := allOnes_rvaToPtr hheaders hraw hsections a 4 (by decide) (by decide)
  refine ⟨p, hptr, ?_⟩
  rw [hraw, allOnesFile_le32 hp]
  exact ⟨by decide, fun hnot => absurd (show isOrdinalThunk 0xFFFFFFFF by decide) hnot⟩

theorem allOnes_not_tablesEnd (dirRva : UInt32) : ¬ TablesEnd img dirRva := by
  intro h
  obtain ⟨p, hp, hptr⟩ := allOnes_rvaToPtr hheaders hraw hsections (dirRva + UInt32.ofNat 0 * 20)
    20 (by decide) (by decide)
  have hdesc : descriptorAt img dirRva 0 =
      some ⟨0xFFFFFFFF, 0xFFFFFFFF, 0xFFFFFFFF, 0xFFFFFFFF, 0xFFFFFFFF⟩ := by
    rw [descriptorAt, hptr, hraw, Option.map_some, peImportDescriptorAt, allOnesFile_le32 hp]
    simp only [allOnesFile_le32 (Nat.le_add_right_of_le hp)]
  refine h.thunks [] _ (Entries.nil.snoc hdesc (by decide)) (by simp) ⟨?_, .inr rfl, ?_⟩
  · exact ⟨_, allOnes_cString hheaders hraw hsections _ 63⟩
  · exact allOnes_thunks hheaders hraw hsections _

end

/-- The thunk walk of the first descriptor comes back to where it began. -/
theorem allOnesFile_goesRound : ¬ ∀ raw img dirs,
    peReadHeaders Alloc.generous.sections raw = .ok (img, dirs) →
      ImportWalksEnd .generous img dirs.imports.virtualAddress := by
  intro h
  obtain ⟨img, dirs, himg, hdir, hheaders, hsections⟩ := allOnesFile_loads
  obtain ⟨hnew, hcap, -, hraw⟩ := peReadHeaders_new himg
  have hloop := (importLoop_eq_timeout Alloc.generous_succeeds).mpr
    (allOnes_not_tablesEnd hheaders hraw hsections 0x1000)
  refine h _ _ _ himg ?_
  rw [hdir, peParseImportsDir, if_neg (by decide), hnew, hcap, hloop, Res.timeout_bind]

end Winlift

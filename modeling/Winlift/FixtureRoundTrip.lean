import Winlift.ImportSpec
import Winlift.PeReader

/-!
# The fixture builder and the loader

Every file `build_with_imports` produces is loaded, and what the loader records is what the builder was
asked for (`fixture_roundTrip`). The builder's parts are read back one by one: `peReadHeaders_fixture`
the headers, `importsAccepted_fixture` the tables behind them.
-/

namespace Winlift.MkMiniPe
open CSem

/-! ### `struct.pack` -/

theorem mapM_eq_some {α β : Type} {f : α → Option β} {p : α → Prop} {g : α → β}
    (hf : ∀ a b, f a = some b ↔ p a ∧ b = g a) {l : List α} {ys : List β} :
    l.mapM f = some ys ↔ (∀ a ∈ l, p a) ∧ ys = l.map g := by
  induction l generalizing ys with
  | nil => simp [eq_comm]
  | cons a l ih =>
    simp only [List.mapM_cons, Option.bind_eq_bind, Option.bind_eq_some_iff, hf, ih,
      List.forall_mem_cons, List.map_cons]
    constructor
    · rintro ⟨b, ⟨ha, rfl⟩, bs, ⟨hl, rfl⟩, h⟩
      exact ⟨⟨ha, hl⟩, (Option.some.inj h).symm⟩
    · rintro ⟨⟨ha, hl⟩, rfl⟩
      exact ⟨g a, ⟨ha, rfl⟩, _, ⟨hl, rfl⟩, rfl⟩

theorem mapM_flatten_eq_some {α β : Type} {f : α → Option (List β)} {p : α → Prop} {g : α → List β}
    (hf : ∀ a b, f a = some b ↔ p a ∧ b = g a) {l : List α} {bs : List β} :
    (l.mapM f).map List.flatten = some bs ↔ (∀ a ∈ l, p a) ∧ bs = (l.map g).flatten := by
  rw [Option.map_eq_some_iff]
  constructor
  · rintro ⟨ys, hys, rfl⟩
    obtain ⟨hl, rfl⟩ := (mapM_eq_some hf).mp hys
    exact ⟨hl, rfl⟩
  · rintro ⟨hl, rfl⟩
    exact ⟨_, (mapM_eq_some hf).mpr ⟨hl, rfl⟩, rfl⟩

/-- The words `ns`, one after the other. -/
def words (ns : List Nat) : List UInt8 := (ns.map fun n => le32Bytes (UInt32.ofNat n)).flatten

def halves (ns : List Nat) : List UInt8 := (ns.map fun n => le16Bytes (UInt16.ofNat n)).flatten

@[simp] theorem length_words (ns : List Nat) : (words ns).length = 4 * ns.length := by
  simp [words, List.length_flatten, List.map_map, Function.comp_def, Nat.mul_comm]

@[simp] theorem length_halves (ns : List Nat) : (halves ns).length = 2 * ns.length := by
  simp [halves, List.length_flatten, List.map_map, Function.comp_def, Nat.mul_comm]

theorem packI_eq_some (n : Nat) (bs : List UInt8) :
    packI n = some bs ↔ n < 2 ^ 32 ∧ bs = le32Bytes (UInt32.ofNat n) := by
  rw [packI, Option.ite_none_right_eq_some, Option.some.injEq, eq_comm]

theorem packH_eq_some (n : Nat) (bs : List UInt8) :
    packH n = some bs ↔ n < 2 ^ 16 ∧ bs = le16Bytes (UInt16.ofNat n) := by
  rw [packH, Option.ite_none_right_eq_some, Option.some.injEq, eq_comm]

theorem packIs_eq_some (ns : List Nat) (bs : List UInt8) :
    packIs ns = some bs ↔ (∀ n ∈ ns, n < 2 ^ 32) ∧ bs = words ns :=
  mapM_flatten_eq_some packI_eq_some

theorem packHs_eq_some (ns : List Nat) (bs : List UInt8) :
    packHs ns = some bs ↔ (∀ n ∈ ns, n < 2 ^ 16) ∧ bs = halves ns :=
  mapM_flatten_eq_some packH_eq_some

section
variable {α : Type} {f : List UInt8 → Option α} {a : α}

/-- What has been packed is the only thing it can be. -/
theorem bind_of_eq_some {o : Option (List UInt8)} {fits : Prop} {bs : List UInt8}
    (ho : ∀ cs, o = some cs ↔ fits ∧ cs = bs) (h : (o >>= f) = some a) : fits ∧ f bs = some a := by
  obtain ⟨cs, hcs, h⟩ := Option.bind_eq_some_iff.mp h
  obtain ⟨hfits, rfl⟩ := (ho cs).mp hcs
  exact ⟨hfits, h⟩

theorem bind_packI {n : Nat} (h : (packI n >>= f) = some a) :
    n < 2 ^ 32 ∧ f (le32Bytes (UInt32.ofNat n)) = some a :=
  bind_of_eq_some (packI_eq_some n) h

theorem bind_packIs {ns : List Nat} (h : (packIs ns >>= f) = some a) :
    (∀ n ∈ ns, n < 2 ^ 32) ∧ f (words ns) = some a :=
  bind_of_eq_some (packIs_eq_some ns) h

theorem bind_packHs {ns : List Nat} (h : (packHs ns >>= f) = some a) :
    (∀ n ∈ ns, n < 2 ^ 16) ∧ f (halves ns) = some a :=
  bind_of_eq_some (packHs_eq_some ns) h

end

section
variable {b : Buffer} {o : Nat} {ns : List Nat}

theorem le32_of_has (h : b.Has o (words ns)) (k : Nat) (hk : k < ns.length) :
    b.le32 (o + 4 * k) = UInt32.ofNat ns[k] := by
  have hhas := Buffer.has_flatten_of_length (n := 4) (by simp) h (k := k) (by rwa [List.length_map])
  rw [List.getElem_map] at hhas
  exact hhas.le32

theorem le16_of_has (h : b.Has o (halves ns)) (k : Nat) (hk : k < ns.length) :
    b.le16 (o + 2 * k) = UInt16.ofNat ns[k] := by
  have hhas := Buffer.has_flatten_of_length (n := 2) (by simp) h (k := k) (by rwa [List.length_map])
  rw [List.getElem_map] at hhas
  exact hhas.le16

end

/-! ### The headers -/

/-- What the loader looks at in the headers of a fixture. -/
structure HasHeaders (b : Buffer) (textVsize textFsize entryRva subsystem importDirRva importDirSize : Nat) :
    Prop where
  dos : b.Has 0 (cBytes "MZ")
  lfanew : b.Has 60 (le32Bytes 64)
  signature : b.Has 64 (cBytes "PE" ++ zeros 2)
  coff₁ : b.Has 68 (halves [0x014C, 1])
  coff₂ : b.Has 84 (halves [224, 0x0102])
  magic : b.Has 88 (halves [0x010B])
  opt₁ : b.Has 92 (words [textFsize, 0, 0, entryRva, sectAlign, 0, imageBase, sectAlign, fileAlign])
  opt₂ : b.Has 140 (words [0, roundUp (sectAlign + textVsize) sectAlign, 0x200, 0])
  opt₃ : b.Has 156 (halves [subsystem, 0])
  opt₄ : b.Has 160 (words [0x100000, 0x1000, 0x100000, 0x1000, 0, 16])
  dirs : b.Has 184 (words ([0, 0, importDirRva, importDirSize] ++ List.replicate 28 0))
  name : b.Has 312 (cBytes ".text" ++ zeros 3)
  sect : b.Has 320 (words [textVsize, sectAlign, textFsize, 0x200, 0, 0])
  characteristics : b.Has 348 (words [0x60000020])

section
variable {textVsize textFsize entryRva subsystem importDirRva importDirSize : Nat} {hdr : List UInt8}

theorem peHeader_eq_some
    (h : peHeader textVsize textFsize entryRva subsystem importDirRva importDirSize = some hdr) :
    hdr.length = 0x200 ∧ roundUp (sectAlign + textVsize) sectAlign < 2 ^ 32 ∧ textFsize < 2 ^ 32 ∧
      ∀ b : Buffer, b.Has 0 hdr →
        HasHeaders b textVsize textFsize entryRva subsystem importDirRva importDirSize := by
  unfold peHeader at h
  obtain ⟨-, h⟩ := bind_packI h
  obtain ⟨-, h⟩ := bind_packHs h
  obtain ⟨-, h⟩ := bind_packIs h
  obtain ⟨-, h⟩ := bind_packHs h
  obtain ⟨-, h⟩ := bind_packHs h
  obtain ⟨-, h⟩ := bind_packIs h
  obtain ⟨-, h⟩ := bind_packHs h
  obtain ⟨himage, h⟩ := bind_packIs h
  obtain ⟨-, h⟩ := bind_packHs h
  obtain ⟨-, h⟩ := bind_packIs h
  obtain ⟨-, h⟩ := bind_packIs h
  obtain ⟨hlt, h⟩ := bind_packIs h
  obtain ⟨-, h⟩ := bind_packHs h
  obtain ⟨-, h⟩ := bind_packIs h
  have hmz : (cBytes "MZ").length = 2 := rfl
  have hpe : (cBytes "PE").length = 2 := rfl
  have htext : (cBytes ".text").length = 5 := rfl
  have hzeros : ∀ n, (zeros n).length = n := fun n => List.length_replicate
  have hround : roundUp 352 fileAlign = 0x200 := rfl
  simp only [List.length_append, length_words, length_halves, hmz, hpe, htext, hzeros, length_le32Bytes,
    List.length_cons, List.length_nil, List.length_replicate, Nat.reduceAdd, Nat.reduceMul, Nat.reduceSub,
    hround, Option.some.injEq] at h hlt
  subst h
  refine ⟨?_, himage _ (by simp), hlt _ (by simp), fun b hb => ?_⟩
  · simp [hmz, hpe, htext, hzeros]
  · simp only [Buffer.has_append, List.length_append, length_words, length_halves, hmz, hpe, htext, hzeros,
      length_le32Bytes, List.length_cons, List.length_nil, List.length_replicate, Nat.reduceAdd,
      Nat.reduceMul] at hb
    obtain ⟨⟨⟨⟨hdos, hcoff⟩, hopt⟩, hdirs⟩, hsect⟩ := hb.1
    obtain ⟨⟨⟨⟨hmagic, -⟩, hlfanew⟩, hpe⟩, hpe'⟩ := hdos
    obtain ⟨⟨hcoff₁, -⟩, hcoff₂⟩ := hcoff
    obtain ⟨⟨⟨⟨⟨⟨hopt, -⟩, hopt₁⟩, -⟩, hopt₂⟩, hopt₃⟩, hopt₄⟩ := hopt
    obtain ⟨⟨⟨⟨hname, hname'⟩, hsect⟩, -⟩, hchar⟩ := hsect
    exact ⟨hmagic, hlfanew, Buffer.has_append.mpr ⟨hpe, hpe'⟩, hcoff₁, hcoff₂, hopt, hopt₁, hopt₂, hopt₃, hopt₄,
      hdirs, Buffer.has_append.mpr ⟨hname, hname'⟩, hsect, hchar⟩

end

/-- The image of a fixture before its directories are parsed. -/
def fixtureImage (b : Buffer) (textVsize textFsize entryRva subsystem : Nat) : PeImage where
  imageBase := 0x00400000
  entryPointRva := UInt32.ofNat entryRva
  sizeOfImage := UInt32.ofNat (roundUp (sectAlign + textVsize) sectAlign)
  sizeOfHeaders := 0x200
  subsystem := UInt16.ofNat subsystem
  sectionAlignment := 0x1000
  fileAlignment := 0x200
  sections := [⟨cBytes ".text" ++ zeros 3, 0x1000, UInt32.ofNat textVsize, 0x200, UInt32.ofNat textFsize,
    0x60000020⟩]
  imports := []
  importsCap := 0
  relocs := []
  hasTls := false
  tlsHasCallbacks := false
  tlsCallbackRvas := []
  raw := b

section
variable {b : Buffer} {textVsize textFsize entryRva subsystem importDirRva importDirSize : Nat}

theorem HasHeaders.dosHeader
    (h : HasHeaders b textVsize textFsize entryRva subsystem importDirRva importDirSize) :
    peDosHeaderAt b 0 = ⟨peDosMagic, 64⟩ := by
  have hmz : cBytes "MZ" = le16Bytes peDosMagic := by decide
  have hmagic : b.le16 0 = peDosMagic := (hmz ▸ h.dos).le16
  have hlfanew : int32 (UInt32.toNat 64) = 64 := by decide
  rw [peDosHeaderAt, hmagic, Nat.zero_add, h.lfanew.le32, hlfanew]

theorem HasHeaders.coffHeader
    (h : HasHeaders b textVsize textFsize entryRva subsystem importDirRva importDirSize) :
    peCoffHeaderAt b 68 = ⟨peMachineI386, 1, 224, 0x0102⟩ := by
  have h₁ := le16_of_has h.coff₁
  have h₂ := le16_of_has h.coff₂
  rw [peCoffHeaderAt, PeCoffHeader.mk.injEq]
  exact ⟨h₁ 0 (by decide), h₁ 1 (by decide), h₂ 0 (by decide), h₂ 1 (by decide)⟩

/-- The fields of the optional header the loader looks at. -/
structure OptionalHeaderIs (opt : PeOptionalHeader32)
    (textVsize entryRva subsystem importDirRva importDirSize : Nat) : Prop where
  magic : opt.magic = peOpthdr32Magic
  entry : opt.addressOfEntryPoint = UInt32.ofNat entryRva
  base : opt.imageBase = 0x00400000
  sectionAlignment : opt.sectionAlignment = 0x1000
  fileAlignment : opt.fileAlignment = 0x200
  sizeOfImage : opt.sizeOfImage = UInt32.ofNat (roundUp (sectAlign + textVsize) sectAlign)
  sizeOfHeaders : opt.sizeOfHeaders = 0x200
  subsystem : opt.subsystem = UInt16.ofNat subsystem
  numberOfRvaAndSizes : opt.numberOfRvaAndSizes = 16
  importDir : opt.dataDirectory 1 = ⟨UInt32.ofNat importDirRva, UInt32.ofNat importDirSize⟩
  otherDirs : ∀ k, 2 ≤ k → k < 16 → opt.dataDirectory k = ⟨0, 0⟩

theorem HasHeaders.optionalHeader
    (h : HasHeaders b textVsize textFsize entryRva subsystem importDirRva importDirSize) :
    OptionalHeaderIs (peOptionalHeader32At b 88) textVsize entryRva subsystem importDirRva importDirSize := by
  have h₁ := le32_of_has h.opt₁
  have h₂ := le32_of_has h.opt₂
  have h₄ := le32_of_has h.opt₄
  have hdirs := le32_of_has h.dirs
  refine ⟨le16_of_has h.magic 0 (by simp), h₁ 3 (by simp), h₁ 6 (by simp), h₁ 7 (by simp), h₁ 8 (by simp),
    h₂ 1 (by simp), h₂ 2 (by simp), le16_of_has h.opt₃ 0 (by simp), h₄ 5 (by simp), ?_, ?_⟩
  · rw [peOptionalHeader32At, PeDataDirectory.mk.injEq]
    exact ⟨hdirs 2 (by simp), hdirs 3 (by simp)⟩
  · intro k hk hk'
    have hzero : ∀ j, 4 ≤ j → j < 32 → b.le32 (184 + 4 * j) = 0 := by
      intro j hj hj'
      rw [hdirs j (by simpa using hj'), List.getElem_append_right (by simpa using hj),
        List.getElem_replicate]
      rfl
    have hva : 184 + 4 * (2 * k) = 88 + 96 + 8 * k := by omega
    have hsize : 184 + 4 * (2 * k + 1) = 88 + 96 + 8 * k + 4 := by omega
    rw [peOptionalHeader32At, PeDataDirectory.mk.injEq]
    exact ⟨hva ▸ hzero (2 * k) (by omega) (by omega), hsize ▸ hzero (2 * k + 1) (by omega) (by omega)⟩

theorem checkOptionalHeader_eq_ok {opt : PeOptionalHeader32}
    (h : OptionalHeaderIs opt textVsize entryRva subsystem importDirRva importDirSize)
    (hsub : subsystem = 2 ∨ subsystem = 3) : checkOptionalHeader opt = .ok () := by
  have hsub' : ¬ (opt.subsystem ≠ peSubsystemWindowsCui ∧ opt.subsystem ≠ peSubsystemWindowsGui) := by
    rw [h.subsystem]
    rcases hsub with rfl | rfl <;> decide
  have hcom : opt.dataDirectory peDirComDescriptor = ⟨0, 0⟩ := h.otherDirs _ (by decide) (by decide)
  have hdelay : opt.dataDirectory peDirDelayImport = ⟨0, 0⟩ := h.otherDirs _ (by decide) (by decide)
  simp only [checkOptionalHeader, Res.bind_eq_ok, Res.rejectIf_eq_ok, h.magic, h.numberOfRvaAndSizes, hcom,
    hdelay]
  refine ⟨(), by decide, (), by decide, (), hsub', (), by decide, (), by decide, by decide⟩

theorem HasHeaders.section
    (h : HasHeaders b textVsize textFsize entryRva subsystem importDirRva importDirSize)
    (hpos : 0 < textVsize) (hlt : textVsize < 2 ^ 32) :
    peSectionOf (peSectionHeaderAt b 312) = ⟨cBytes ".text" ++ zeros 3, 0x1000, UInt32.ofNat textVsize, 0x200,
      UInt32.ofNat textFsize, 0x60000020⟩ := by
  have hsect := le32_of_has h.sect
  have hvsize : b.le32 (312 + 8) = UInt32.ofNat textVsize := hsect 0 (by simp)
  have hne : UInt32.ofNat textVsize ≠ 0 := by
    rw [Ne, ← UInt32.toNat_inj, UInt32.toNat_ofNat_of_lt' hlt, UInt32.toNat_zero]
    exact Nat.pos_iff_ne_zero.mp hpos
  simp only [peSectionOf, peSectionHeaderAt, hvsize, if_pos hne, PeSection.mk.injEq]
  exact ⟨h.name.slice, hsect 1 (by simp), trivial, hsect 3 (by simp), hsect 2 (by simp),
    le32_of_has h.characteristics 0 (by simp)⟩

theorem parseSections_fixture {grant : Nat → Bool}
    (h : HasHeaders b textVsize textFsize entryRva subsystem importDirRva importDirSize)
    (hsize : b.size = 0x200 + textFsize) (hpos : 0 < textVsize) (hlt : textVsize < 2 ^ 32)
    (hfsize : textFsize < 2 ^ 32) (hgrant : grant 32 = true) :
    parseSections grant b 312 (1 : Nat) = .ok [⟨cBytes ".text" ++ zeros 3, 0x1000, UInt32.ofNat textVsize,
      0x200, UInt32.ofNat textFsize, 0x60000020⟩] := by
  have hsect := h.section hpos hlt
  have hread : 312 + peSectionHeaderSize ≤ b.size := by
    rw [hsize, peSectionHeaderSize]; omega
  have hfile : UInt32.toNat 0x200 + (UInt32.ofNat textFsize).toNat ≤ b.size := by
    rw [UInt32.toNat_ofNat_of_lt' hfsize, hsize]
    exact Nat.le_refl _
  have hgrant' : ¬ (0 < ((1 : Nat) : Int) ∧ grant (sizeT (1 : Nat) * peSectionSize) = false) := by
    rintro ⟨-, hno⟩
    exact Bool.noConfusion (hgrant.symm.trans hno)
  have hone : Int.toNat ((1 : Nat) : Int) = 0 + 1 := rfl
  rw [parseSections, Res.rejectIf_of_not _ (by decide), Res.ok_bind, Res.rejectIf_of_not _ hgrant',
    Res.ok_bind, hone, parseSectionsFrom, Nat.zero_mul, Nat.add_zero, readable_of_le hread, Res.ok_bind]
  simp only [hsect, Res.rejectIf_of_not _ (Nat.not_lt.mpr hfile), Res.ok_bind, parseSectionsFrom]

theorem peReadHeaders_fixture {grant : Nat → Bool}
    (h : HasHeaders b textVsize textFsize entryRva subsystem importDirRva importDirSize)
    (hsize : b.size = 0x200 + textFsize) (hpos : 0 < textVsize) (hlt : textVsize < 2 ^ 32)
    (hfsize : textFsize < 2 ^ 32) (hsub : subsystem = 2 ∨ subsystem = 3) (hgrant : grant 32 = true) :
    peReadHeaders grant b = .ok (fixtureImage b textVsize textFsize entryRva subsystem,
      ⟨⟨UInt32.ofNat importDirRva, UInt32.ofNat importDirSize⟩, ⟨0, 0⟩, ⟨0, 0⟩⟩) := by
  have hopt := h.optionalHeader
  have hsig : b.le32 64 = peNtSignature := by
    have hpe : cBytes "PE" ++ zeros 2 = le32Bytes peNtSignature := by decide
    exact (hpe ▸ h.signature).le32
  simp only [peReadHeaders, Res.bind_eq_ok, Res.rejectIf_eq_ok, readable_eq_ok]
  refine ⟨(), ?_, 0, ⟨rfl, ?_⟩, ?_⟩
  · rw [hsize, peDosHeaderSize]; omega
  · rw [hsize, peDosHeaderSize]; omega
  rw [h.dosHeader]
  dsimp only
  refine ⟨(), by decide, (), ?_, 64, ?_, (), ?_, (), ?_, ?_⟩
  · rw [hsize]; omega
  · rw [readableAt, if_pos (by rw [hsize]; omega)]; rfl
  · rw [hsig]; decide
  · rw [hsize, peCoffHeaderSize]; omega
  refine ⟨68, ⟨rfl, ?_⟩, ?_⟩
  · rw [hsize, peCoffHeaderSize]; omega
  rw [h.coffHeader]
  dsimp only
  refine ⟨(), by decide, (), by decide, (), by decide, (), ?_, 88, ⟨rfl, ?_⟩, (),
    checkOptionalHeader_eq_ok hopt hsub, (), ?_, (), ?_, _, parseSections_fixture h hsize hpos hlt hfsize hgrant, ?_⟩
  · show ¬ (224 < 224 ∨ b.size < 312)
    omega
  · rw [hsize, peOptionalHeader32Size]; omega
  · rw [hopt.base]; decide
  · show ¬ b.size < 352
    omega
  rw [hopt.entry, hopt.base, hopt.sectionAlignment, hopt.fileAlignment, hopt.sizeOfImage, hopt.sizeOfHeaders,
    hopt.subsystem]
  simp only [PeOptionalHeader32.dir, hopt.numberOfRvaAndSizes, peDirImport, peDirBasereloc, peDirTls,
    hopt.importDir, hopt.otherDirs 5 (by decide) (by decide), hopt.otherDirs 9 (by decide) (by decide)]
  rfl

end

/-! ### The section -/

section
variable {b : Buffer} {textVsize textFsize entryRva subsystem : Nat}

/-- In the section, RVA and file offset differ by a constant. -/
theorem rva_fixture (hsize : b.size = 0x200 + textFsize) (hv : 0x1000 + textVsize ≤ 2 ^ 32)
    (hf : textFsize < 2 ^ 32) (hle : textVsize ≤ textFsize) {rva n : UInt32} {o : Nat}
    (hrva : rva.toNat = 0x1000 + o) (hn : 0 < n.toNat) (hend : o + n.toNat ≤ textVsize) :
    peRvaToPtr (fixtureImage b textVsize textFsize entryRva subsystem) rva n = some (0x200 + o) := by
  have hhdr : ¬ rva < (0x200 : UInt32) := by
    rw [UInt32.lt_iff_toNat_lt, hrva]
    show ¬ 0x1000 + o < 0x200
    omega
  have hlo : (0x1000 : UInt32) ≤ rva := by
    rw [UInt32.le_iff_toNat_le, hrva]
    exact Nat.le_add_right ..
  have hwithin : (rva - 0x1000).toNat = o := by
    rw [toNat_sub_of_le (UInt32.le_iff_toNat_le.mp hlo), hrva]
    exact Nat.add_sub_cancel_left ..
  have hvsize : (UInt32.ofNat textVsize).toNat = textVsize :=
    UInt32.toNat_ofNat_of_lt' (show textVsize < 2 ^ 32 by omega)
  have hfsize : (UInt32.ofNat textFsize).toNat = textFsize := UInt32.toNat_ofNat_of_lt' hf
  have hbase : UInt32.toNat 0x1000 = 0x1000 := rfl
  have hoff : UInt32.toNat 0x200 = 0x200 := rfl
  rw [peRvaToPtr, fixtureImage, if_neg hhdr, sectionsRvaToPtr_of_le hlo hn]
  · rw [hwithin, hoff]
  · rw [hrva, hbase, hvsize]; omega
  · rw [hrva, hbase, hfsize]; omega
  · rw [hoff, hfsize, hsize]

end

/-! ### The tables -/

section
variable (call : Bool) (dlls : List Dll)

def codeLen : Nat := (if call then 6 else 0) + 12

def nameSizes : List Nat := dlls.map fun d => d.name.length + 1

def thunkSizes : List Nat := dlls.map fun d => (d.ordinals.length + 1) * 4

def namesOff : Nat := codeLen call + (dlls.length + 1) * 20

def thunksOff : Nat := namesOff call dlls + (nameSizes dlls).sum

def dataEnd : Nat := thunksOff call dlls + (thunkSizes dlls).sum

/-- Where the builder puts the name and the thunk table of DLL `i`. -/
def nameOff (i : Nat) : Nat := namesOff call dlls + ((nameSizes dlls).take i).sum

def thunkOff (i : Nat) : Nat := thunksOff call dlls + ((thunkSizes dlls).take i).sum

end

theorem length_offsetsFrom (pos : Nat) (ns : List Nat) : (offsetsFrom pos ns).length = ns.length := by
  induction ns generalizing pos with
  | nil => rfl
  | cons n ns ih => exact congrArg Nat.succ (ih _)

theorem getElem_offsetsFrom {pos : Nat} {ns : List Nat} {k : Nat} (hk : k < (offsetsFrom pos ns).length) :
    (offsetsFrom pos ns)[k] = pos + (ns.take k).sum := by
  induction ns generalizing pos k with
  | nil => cases hk
  | cons n ns ih =>
    cases k with
    | zero => rfl
    | succ k =>
      rw [List.take_succ_cons, List.sum_cons, ← Nat.add_assoc]
      exact ih _

/-- A DLL whose name the loader's buffer can take, with ordinals of 16 bits. -/
structure Dll.Encodable (d : Dll) : Prop where
  nul : 0 ∉ d.name
  short : d.name.length ≤ 63
  ordinals : ∀ n ∈ d.ordinals, n < 2 ^ 16

/-- What is recovered of a DLL with its thunk table at `thunkRva`. -/
structure DllRecovered (thunkRva : Nat) (d : Dll) (dll : PeImportDll) : Prop where
  name : dll.dllName = d.name
  funcs : Pointwise (fun k n fn => fn.byOrdinal = true ∧ fn.ordinal.toNat = n ∧
    fn.name = ordinalName fn.ordinal ∧ fn.iatRva.toNat = thunkRva + 4 * k) d.ordinals dll.funcs

/-- What `build_with_imports` puts into a file. -/
structure Built (b : Buffer) (dlls : List Dll) (call : Bool) (subsystem : Nat) : Prop where
  headers : HasHeaders b (dataEnd call dlls) (roundUp (dataEnd call dlls) fileAlign) sectAlign subsystem
    (sectAlign + codeLen call) ((dlls.length + 1) * 20)
  size : b.size = 0x200 + roundUp (dataEnd call dlls) fileAlign
  fsize_lt : roundUp (dataEnd call dlls) fileAlign < 2 ^ 32
  image_lt : roundUp (sectAlign + dataEnd call dlls) sectAlign < 2 ^ 32
  descs : b.Has (0x200 + codeLen call) ((List.range dlls.length).map fun i =>
    words [0, 0, 0, sectAlign + nameOff call dlls i, sectAlign + thunkOff call dlls i]).flatten
  terminator : b.Has (0x200 + (codeLen call + dlls.length * 20)) (zeros 20)
  names : b.Has (0x200 + namesOff call dlls) (dlls.map fun d => d.name ++ [0]).flatten
  thunks : b.Has (0x200 + thunksOff call dlls)
    (dlls.map fun d => words (d.ordinals.map (0x80000000 ||| ·) ++ [0])).flatten

theorem exitCodeBytes_length {exitCode : Nat} {tail : List UInt8} (h : exitCodeBytes exitCode = some tail) :
    tail.length = 12 := by
  obtain ⟨-, h⟩ := bind_packI h
  cases h
  rfl

theorem call_eq_some {call : Bool} {first : Option Nat} {target : Nat → Nat} {α : Type}
    {k : List UInt8 → Option α} {a : α}
    (h : (if call = true then do
        let first ← first
        let target ← packI (target first)
        let call ← some ([0xFF, 0x15] ++ target)
        k call
      else do
        let call ← some []
        k call) = some a) :
    ∃ bs : List UInt8, bs.length = (if call then 6 else 0) ∧ k bs = some a := by
  cases call with
  | false => exact ⟨[], rfl, h⟩
  | true =>
    obtain ⟨first, -, h⟩ := Option.bind_eq_some_iff.mp h
    obtain ⟨-, h⟩ := bind_packI h
    exact ⟨_, rfl, h⟩

theorem descs_eq (call : Bool) (dlls : List Dll) :
    ((offsetsFrom (namesOff call dlls) (nameSizes dlls)).zip
      (offsetsFrom (thunksOff call dlls) (thunkSizes dlls))).map
        (fun x => words [0, 0, 0, sectAlign + x.1, sectAlign + x.2]) =
      (List.range dlls.length).map fun i =>
        words [0, 0, 0, sectAlign + nameOff call dlls i, sectAlign + thunkOff call dlls i] := by
  refine List.ext_getElem ?_ fun k hk hk' => ?_
  · simp [length_offsetsFrom, nameSizes, thunkSizes]
  · simp only [List.getElem_map, List.getElem_zip, getElem_offsetsFrom, List.getElem_range, nameOff, thunkOff]

section
variable (call : Bool) (dlls : List Dll)

theorem length_descs : ((List.range dlls.length).map fun i =>
    words [0, 0, 0, sectAlign + nameOff call dlls i, sectAlign + thunkOff call dlls i]).flatten.length =
      dlls.length * 20 := by
  simp [List.length_flatten, List.map_map, Function.comp_def]

theorem length_names : (dlls.map fun d => d.name ++ [0]).flatten.length = (nameSizes dlls).sum := by
  simp [List.length_flatten, nameSizes, Function.comp_def]

theorem length_thunks :
    (dlls.map fun d => words (d.ordinals.map (0x80000000 ||| ·) ++ [0])).flatten.length =
      (thunkSizes dlls).sum := by
  simp [List.length_flatten, thunkSizes, Function.comp_def, Nat.mul_comm]

end

theorem built_of_build {exitCode : Nat} {dlls : List Dll} {call : Bool} {subsystem : Nat}
    {bytes : List UInt8} (h : buildWithImports exitCode dlls call subsystem = some bytes) :
    Built (.ofList bytes) dlls call subsystem := by
  unfold buildWithImports at h
  obtain ⟨tail, htail, h⟩ := Option.bind_eq_some_iff.mp h
  dsimp only at h
  rw [exitCodeBytes_length htail] at h
  obtain ⟨callBytes, hcall, h⟩ := call_eq_some h
  obtain ⟨descs, hdescs, h⟩ := Option.bind_eq_some_iff.mp h
  obtain ⟨-, h⟩ := Option.ite_none_left_eq_some.mp h
  obtain ⟨thunks, hthunks, h⟩ := Option.bind_eq_some_iff.mp h
  obtain ⟨hdr, hhdr, h⟩ := Option.bind_eq_some_iff.mp h
  obtain ⟨-, rfl⟩ := (mapM_eq_some fun d => packIs_eq_some _).mp hthunks
  obtain ⟨-, rfl⟩ := (mapM_eq_some fun x => packIs_eq_some _).mp hdescs
  obtain ⟨hlen, himage, hfsize, hheaders⟩ := peHeader_eq_some hhdr
  obtain ⟨body, hbody⟩ : ∃ body, body = callBytes ++ tail ++
      (((offsetsFrom (namesOff call dlls) (nameSizes dlls)).zip
        (offsetsFrom (thunksOff call dlls) (thunkSizes dlls))).map
          fun x => words [0, 0, 0, sectAlign + x.1, sectAlign + x.2]).flatten ++ zeros 20 ++
      (dlls.map fun d => d.name ++ [0]).flatten ++
      (dlls.map fun d => words (d.ordinals.map (0x80000000 ||| ·) ++ [0])).flatten := ⟨_, rfl⟩
  have hbytes : hdr ++ body ++ zeros (roundUp (dataEnd call dlls) fileAlign - body.length) = bytes := by
    rw [hbody]
    exact Option.some.inj h
  rw [descs_eq] at hbody
  have hcode : (callBytes ++ tail).length = codeLen call := by
    rw [List.length_append, hcall, exitCodeBytes_length htail]
    rfl
  have hzeros : (zeros 20).length = 20 := List.length_replicate
  have hbodyLen : body.length = dataEnd call dlls := by
    rw [hbody]
    simp only [List.length_append, length_descs, length_names, length_thunks, hzeros]
    simp only [← List.length_append, hcode, dataEnd, thunksOff, namesOff]
    omega
  have hround : dataEnd call dlls ≤ roundUp (dataEnd call dlls) fileAlign := le_roundUp (by decide)
  have hb : (Buffer.ofList bytes).Has 0 (hdr ++ body) := by
    have hhas := Buffer.has_ofList [] (hdr ++ body)
      (zeros (roundUp (dataEnd call dlls) fileAlign - body.length))
    rwa [hbytes] at hhas
  have hsize : (Buffer.ofList bytes).size = 0x200 + roundUp (dataEnd call dlls) fileAlign := by
    rw [Buffer.size_ofList, ← hbytes, List.length_append, List.length_append, hlen, hbodyLen, zeros,
      List.length_replicate]
    omega
  rw [Buffer.has_append, hlen, Nat.zero_add] at hb
  obtain ⟨hhdrs, hhas⟩ := hb
  rw [hbody] at hhas
  simp only [Buffer.has_append, List.length_append, length_descs, length_names, hzeros] at hhas
  simp only [← List.length_append, hcode] at hhas
  obtain ⟨⟨⟨⟨-, hdescs⟩, hterm⟩, hnames⟩, hthunks⟩ := hhas
  have hnamesOff : namesOff call dlls = codeLen call + dlls.length * 20 + 20 := by
    rw [namesOff, Nat.succ_mul, Nat.add_assoc]
  refine ⟨hheaders _ hhdrs, hsize, hfsize, himage, hdescs, hterm, ?_, ?_⟩
  · rwa [hnamesOff]
  · rwa [thunksOff, hnamesOff]

/-! ### What the loader reads in the tables -/

theorem toNat_index {rva c : UInt32} {k : Nat} (h : rva.toNat + k * c.toNat < 2 ^ 32) :
    (rva + UInt32.ofNat k * c).toNat = rva.toNat + k * c.toNat := by
  rw [UInt32.toNat_add, UInt32.toNat_mul, UInt32.toNat_ofNat', Nat.mod_mul_mod, Nat.add_mod_mod,
    Nat.mod_eq_of_lt h]

theorem sum_take_add_le {l : List Nat} {i : Nat} (h : i < l.length) : (l.take i).sum + l[i] ≤ l.sum := by
  rw [← List.sum_take_succ l i h]
  conv_rhs => rw [← List.take_append_drop (i + 1) l, List.sum_append]
  exact Nat.le_add_right ..

namespace Built
variable {b : Buffer} {dlls : List Dll} {call : Bool} {subsystem : Nat}

/-- The image of the fixture when its imports are parsed. -/
abbrev image (b : Buffer) (dlls : List Dll) (call : Bool) (subsystem : Nat) : PeImage :=
  fixtureImage b (dataEnd call dlls) (roundUp (dataEnd call dlls) fileAlign) sectAlign subsystem

def dirRva (call : Bool) : UInt32 := UInt32.ofNat (sectAlign + codeLen call)

def desc (call : Bool) (dlls : List Dll) (i : Nat) : PeImportDescriptor where
  originalFirstThunk := 0
  timeDateStamp := 0
  forwarderChain := 0
  name := UInt32.ofNat (sectAlign + nameOff call dlls i)
  firstThunk := UInt32.ofNat (sectAlign + thunkOff call dlls i)

def ordinalThunk (n : Nat) : UInt32 := UInt32.ofNat (0x80000000 ||| n)

theorem ordinalThunk_toNat {n : Nat} (h : n < 2 ^ 16) : (ordinalThunk n).toNat = 2 ^ 31 + n := by
  have hor : 0x80000000 ||| n = 2 ^ 31 + n :=
    (Nat.two_pow_add_eq_or_of_lt (i := 31) (Nat.lt_trans h (by decide)) 1).symm
  rw [ordinalThunk, hor, UInt32.toNat_ofNat_of_lt' (show _ < 2 ^ 32 by omega)]

section
variable (h : Built b dlls call subsystem)
include h

theorem end_lt : sectAlign + dataEnd call dlls < 2 ^ 32 :=
  Nat.lt_of_le_of_lt (le_roundUp (by decide)) h.image_lt

theorem rva {rva n : UInt32} {o : Nat} (hrva : rva.toNat = sectAlign + o) (hn : 0 < n.toNat)
    (hend : o + n.toNat ≤ dataEnd call dlls) :
    peRvaToPtr (image b dlls call subsystem) rva n = some (0x200 + o) :=
  rva_fixture h.size (Nat.le_of_lt h.end_lt) h.fsize_lt (le_roundUp (by decide)) hrva hn hend

omit h in
theorem nameOff_le (call : Bool) {i : Nat} (hi : i < dlls.length) :
    nameOff call dlls i + (dlls[i].name.length + 1) ≤ dataEnd call dlls := by
  have hle := sum_take_add_le (l := nameSizes dlls) (i := i) (by simpa [nameSizes] using hi)
  simp only [nameSizes, List.getElem_map] at hle
  simp only [nameOff, dataEnd, thunksOff, nameSizes]
  omega

omit h in
theorem thunkOff_le (call : Bool) {i : Nat} (hi : i < dlls.length) :
    thunkOff call dlls i + (dlls[i].ordinals.length + 1) * 4 ≤ dataEnd call dlls := by
  have hle := sum_take_add_le (l := thunkSizes dlls) (i := i) (by simpa [thunkSizes] using hi)
  simp only [thunkSizes, List.getElem_map] at hle
  simp only [thunkOff, dataEnd, thunkSizes]
  omega

omit h in
theorem namesOff_le (call : Bool) (dlls : List Dll) : namesOff call dlls ≤ dataEnd call dlls := by
  simp only [dataEnd, thunksOff]
  omega

theorem desc_name_toNat {i : Nat} (hi : i < dlls.length) :
    (desc call dlls i).name.toNat = sectAlign + nameOff call dlls i := by
  have hle := nameOff_le call hi
  have hend := h.end_lt
  exact UInt32.toNat_ofNat_of_lt' (show _ < 2 ^ 32 by omega)

theorem desc_firstThunk_toNat {i : Nat} (hi : i < dlls.length) :
    (desc call dlls i).firstThunk.toNat = sectAlign + thunkOff call dlls i := by
  have hle := thunkOff_le call hi
  have hend := h.end_lt
  exact UInt32.toNat_ofNat_of_lt' (show _ < 2 ^ 32 by omega)

/-- Slot `k` of a DLL's thunk table, its terminator included. -/
theorem firstThunk_index {i k : Nat} (hi : i < dlls.length) (hk : k ≤ dlls[i].ordinals.length) :
    ((desc call dlls i).firstThunk + UInt32.ofNat k * 4).toNat = sectAlign + (thunkOff call dlls i + 4 * k) := by
  have hle := thunkOff_le call hi
  have hend := h.end_lt
  have hfour : UInt32.toNat 4 = 4 := rfl
  rw [toNat_index (by rw [h.desc_firstThunk_toNat hi, hfour]; omega), h.desc_firstThunk_toNat hi, hfour]
  omega

theorem dirRva_index {i : Nat} (hi : i ≤ dlls.length) :
    (dirRva call + UInt32.ofNat i * 20).toNat = sectAlign + (codeLen call + 20 * i) := by
  have hend := h.end_lt
  have hle := namesOff_le call dlls
  simp only [namesOff] at hle
  have hdir : (dirRva call).toNat = sectAlign + codeLen call :=
    UInt32.toNat_ofNat_of_lt' (show _ < 2 ^ 32 by omega)
  have h20 : UInt32.toNat 20 = 20 := rfl
  rw [toNat_index (by rw [hdir, h20]; omega), hdir, h20]
  omega

theorem descriptorAt_of_has {i : Nat} {ws : List Nat} (hi : i ≤ dlls.length)
    (hws : b.Has (0x200 + (codeLen call + 20 * i)) (words ws)) (hlen : ws.length = 5) :
    descriptorAt (image b dlls call subsystem) (dirRva call) i =
      some ⟨UInt32.ofNat ws[0], UInt32.ofNat ws[1], UInt32.ofNat ws[2], UInt32.ofNat ws[3],
        UInt32.ofNat ws[4]⟩ := by
  have hle := namesOff_le call dlls
  simp only [namesOff] at hle
  have h20 : UInt32.toNat 20 = 20 := rfl
  have hw := fun k hk => le32_of_has hws k (hlen ▸ hk)
  rw [descriptorAt, h.rva (h.dirRva_index hi) (by decide) (by rw [h20]; omega), Option.map_some,
    peImportDescriptorAt, Option.some.injEq, PeImportDescriptor.mk.injEq]
  exact ⟨hw 0 (by decide), hw 1 (by decide), hw 2 (by decide), hw 3 (by decide), hw 4 (by decide)⟩

theorem desc_table : Table (descriptorAt (image b dlls call subsystem) (dirRva call))
    PeImportDescriptor.isTerminator ((List.range dlls.length).map (desc call dlls)) := by
  refine .of_getElem (e := ⟨0, 0, 0, 0, 0⟩) (fun i hi => ?_) (fun d hd => ?_) (by decide)
  · rw [List.length_append, List.length_map, List.length_range, List.length_singleton] at hi
    rcases Nat.lt_or_ge i dlls.length with hlt | hge
    · have hhas := Buffer.has_flatten_of_length (n := 20) (by simp) h.descs (k := i) (by simpa using hlt)
      rw [List.getElem_map, List.getElem_range, Nat.add_assoc] at hhas
      rw [List.getElem_append_left (by simpa using hlt), List.getElem_map, List.getElem_range]
      exact h.descriptorAt_of_has (Nat.le_of_lt hlt) hhas rfl
    · obtain rfl : i = dlls.length := Nat.le_antisymm (Nat.le_of_lt_succ hi) hge
      have hzeros : zeros 20 = words [0, 0, 0, 0, 0] := by decide
      have hhas := h.terminator
      rw [hzeros, Nat.mul_comm] at hhas
      rw [List.getElem_concat_length (by simp)]
      exact h.descriptorAt_of_has (Nat.le_refl _) hhas rfl
  · obtain ⟨i, hi, rfl⟩ := List.mem_map.mp hd
    rintro ⟨-, -, -, hname, -⟩
    have hzero := h.desc_name_toNat (List.mem_range.mp hi)
    rw [hname, UInt32.toNat_zero, sectAlign] at hzero
    omega

theorem has_name {i : Nat} (hi : i < dlls.length) :
    b.Has (0x200 + nameOff call dlls i) (dlls[i].name ++ [0]) := by
  have hhas := Buffer.has_flatten h.names (k := i) (by simpa using hi)
  rw [List.getElem_map, ← List.map_take, List.map_map, Nat.add_assoc] at hhas
  have hsizes : (dlls.take i).map (List.length ∘ fun d => d.name ++ [0]) = (nameSizes dlls).take i := by
    rw [nameSizes, ← List.map_take]
    simp [Function.comp_def]
  rwa [hsizes] at hhas

theorem has_thunks {i : Nat} (hi : i < dlls.length) :
    b.Has (0x200 + thunkOff call dlls i) (words (dlls[i].ordinals.map (0x80000000 ||| ·) ++ [0])) := by
  have hhas := Buffer.has_flatten h.thunks (k := i) (by simpa using hi)
  rw [List.getElem_map, ← List.map_take, List.map_map, Nat.add_assoc] at hhas
  have hsizes : (dlls.take i).map (List.length ∘ fun d => words (d.ordinals.map (0x80000000 ||| ·) ++ [0])) =
      (thunkSizes dlls).take i := by
    rw [thunkSizes, ← List.map_take]
    simp [Function.comp_def, Nat.mul_comm]
  rwa [hsizes] at hhas

theorem name_table {i : Nat} (hi : i < dlls.length) (hnul : 0 ∉ dlls[i].name) :
    Table (byteAt (image b dlls call subsystem) (desc call dlls i).name) (· = 0) dlls[i].name := by
  refine .of_getElem (e := 0) (fun k hk => ?_) (fun c hc => ?_) rfl
  · have hle := nameOff_le call hi
    have hend := h.end_lt
    have hhas := h.has_name hi k hk
    rw [List.length_append, List.length_singleton] at hk
    have hname := h.desc_name_toNat hi
    have hone : UInt32.toNat 1 = 1 := rfl
    have hrva : ((desc call dlls i).name + UInt32.ofNat k).toNat =
        sectAlign + (nameOff call dlls i + k) := by
      have hk' : (UInt32.ofNat k).toNat = k := UInt32.toNat_ofNat_of_lt' (show _ < 2 ^ 32 by omega)
      rw [toNat_add_of_lt (by rw [hname, hk']; omega), hname, hk']
      omega
    rw [byteAt, h.rva hrva (by decide) (by rw [hone]; omega), Option.map_some, Option.some.injEq,
      ← Nat.add_assoc]
    exact hhas
  · rintro rfl
    exact hnul hc

theorem thunk_table {i : Nat} (hi : i < dlls.length) (hord : ∀ n ∈ dlls[i].ordinals, n < 2 ^ 16) :
    Table (thunkAt (image b dlls call subsystem) (desc call dlls i).thunkRva) (· = 0)
      (dlls[i].ordinals.map ordinalThunk) := by
  refine .of_getElem (e := 0) (fun k hk => ?_) (fun t ht => ?_) rfl
  · have hle := thunkOff_le call hi
    have hend := h.end_lt
    have hwords := le32_of_has (h.has_thunks hi) k (by simpa using hk)
    rw [List.length_append, List.length_map, List.length_singleton] at hk
    have hfour : UInt32.toNat 4 = 4 := rfl
    have hthunk : (desc call dlls i).thunkRva.toNat = sectAlign + thunkOff call dlls i :=
      UInt32.toNat_ofNat_of_lt' (show _ < 2 ^ 32 by omega)
    have hrva : ((desc call dlls i).thunkRva + UInt32.ofNat k * 4).toNat =
        sectAlign + (thunkOff call dlls i + 4 * k) := by
      rw [toNat_index (by rw [hthunk, hfour]; omega), hthunk, hfour]
      omega
    rw [thunkAt, h.rva hrva (by decide) (by rw [hfour]; omega), Option.map_some, Option.some.injEq,
      ← Nat.add_assoc]
    refine hwords.trans ?_
    have hmap : dlls[i].ordinals.map ordinalThunk ++ [0] =
        (dlls[i].ordinals.map (0x80000000 ||| ·) ++ [0]).map UInt32.ofNat := by
      simp [ordinalThunk, Function.comp_def]
    simp only [hmap, List.getElem_map]
  · obtain ⟨n, hn, rfl⟩ := List.mem_map.mp ht
    intro hzero
    have hnat := congrArg UInt32.toNat hzero
    rw [ordinalThunk_toNat (hord n hn), UInt32.toNat_zero] at hnat
    omega

theorem dllAccepted {i : Nat} (hi : i < dlls.length) (hd : dlls[i].Encodable) :
    DllAccepted (image b dlls call subsystem) (desc call dlls i) := by
  have hname := (h.name_table hi hd.nul).cut 63
  refine ⟨⟨_, hname⟩, .inl rfl, _, h.thunk_table hi hd.ordinals, fun t ht hnot => ?_⟩
  obtain ⟨n, hn, rfl⟩ := List.mem_map.mp ht
  refine absurd ?_ hnot
  rw [isOrdinalThunk, ordinalThunk_toNat (hd.ordinals n hn)]
  exact Nat.le_add_right ..

theorem importsAccepted (hdlls : ∀ d ∈ dlls, d.Encodable) :
    ImportsAccepted (image b dlls call subsystem) (dirRva call) := by
  refine ⟨_, h.desc_table, fun d hd => ?_⟩
  obtain ⟨i, hi, rfl⟩ := List.mem_map.mp hd
  have hi := List.mem_range.mp hi
  exact h.dllAccepted hi (hdlls _ (List.getElem_mem hi))

/-- Only one import list fits the tables: the one they were built from. -/
theorem dllRecovered {i : Nat} (hi : i < dlls.length) (hd : dlls[i].Encodable) {dll : PeImportDll}
    (hat : DllAt (image b dlls call subsystem) (desc call dlls i) dll) :
    DllRecovered (sectAlign + thunkOff call dlls i) dlls[i] dll := by
  constructor
  · exact hat.name.eq_of_table (h.name_table hi hd.nul) hd.short
  · obtain ⟨ts, hts, hfuncs⟩ := hat.funcs
    obtain rfl := hts.unique (h.thunk_table hi hd.ordinals)
    constructor
    · rw [← hfuncs.length_eq, List.length_map]
    · intro k hk hk'
      have hfn := hfuncs.get k (by rwa [List.length_map]) hk'
      rw [List.getElem_map] at hfn
      have hlt := hd.ordinals _ (List.getElem_mem hk)
      have hthunk := ordinalThunk_toNat hlt
      have hord : isOrdinalThunk (ordinalThunk dlls[i].ordinals[k]) := by
        rw [isOrdinalThunk, hthunk]
        exact Nat.le_add_right ..
      obtain ⟨hnum, hname⟩ := hfn.ofOrdinal hord
      refine ⟨hfn.byOrdinal_iff.mpr hord, ?_, hname, ?_⟩
      · rw [hnum, hthunk]
        omega
      · rw [hfn.iatRva_eq, h.firstThunk_index hi (Nat.le_of_lt hk), Nat.add_assoc]

end

end Built

/-! ### The whole file -/

/-- What is recovered from a fixture. -/
structure Recovered (dlls : List Dll) (call : Bool) (img : PeImage) : Prop where
  sections : ∃ s, img.sections = [s] ∧ s.rva = 0x1000
  imageBase : img.imageBase = 0x00400000
  entryPointRva : img.entryPointRva = 0x1000
  imports : Pointwise (fun i d dll => DllRecovered (sectAlign + thunkOff call dlls i) d dll) dlls img.imports
  relocs : img.relocs = []
  hasTls : img.hasTls = false

theorem fixture_roundTrip {alloc : Alloc} {fuel exitCode subsystem : Nat} {dlls : List Dll} {call : Bool}
    {bytes : List UInt8} (ha : alloc.Succeeds) (hfuel : 2 ^ 30 ≤ fuel) (hdlls : ∀ d ∈ dlls, d.Encodable)
    (hsub : subsystem = 2 ∨ subsystem = 3)
    (h : buildWithImports exitCode dlls call subsystem = some bytes) :
    ∃ img, peImageLoad alloc fuel (.ofList bytes) = .ok img ∧ Recovered dlls call img := by
  have hb := built_of_build h
  have hpos : 0 < dataEnd call dlls := by
    simp only [dataEnd, thunksOff, namesOff, codeLen]
    omega
  have hend := hb.end_lt
  have hheaders := peReadHeaders_fixture hb.headers hb.size hpos (by omega) hb.fsize_lt hsub
    (ha.sections 32 (by decide))
  have hdir : Built.dirRva call ≠ 0 := by
    cases call <;> decide
  obtain ⟨img, himg⟩ := exists_peParseImportsDir rfl rfl hdir ha hfuel (hb.importsAccepted hdlls)
  obtain ⟨-, ds, hds, hat⟩ := peParseImportsDir_spec rfl rfl hdir himg
  obtain rfl := hds.unique hb.desc_table
  have himports : Pointwise (fun i d dll => DllRecovered (sectAlign + thunkOff call dlls i) d dll) dlls
      img.imports := by
    constructor
    · simpa using hat.length_eq
    · intro i hi hi'
      have hdll := hat.get i (by simpa using hi) hi'
      rw [List.getElem_map, List.getElem_range] at hdll
      exact hb.dllRecovered hi (hdlls _ (List.getElem_mem hi)) hdll
  refine ⟨{ img with hasTls := false }, ?_, ?_⟩
  · rw [peImageLoad, loadImports, hheaders, Res.ok_bind]
    dsimp only
    rw [show UInt32.ofNat (sectAlign + codeLen call) = Built.dirRva call from rfl, himg]
    rfl
  · rw [peParseImportsDir, if_neg hdir, Res.bind_eq_ok] at himg
    obtain ⟨s, -, heq⟩ := himg
    cases heq
    exact ⟨⟨_, rfl, rfl⟩, rfl, rfl, himports, rfl, rfl⟩

def twoDlls : List Dll := [⟨cBytes "COMCTL32.dll", [17]⟩, ⟨cBytes "ws2_32", []⟩]

theorem fixture_roundTrip_twoDlls :
    ∃ img, peImageLoad .generous (2 ^ 30)
        (.ofList ((buildWithImports 55 twoDlls true 3).getD [])) = .ok img ∧ Recovered twoDlls true img := by
  have hdlls : ∀ d ∈ twoDlls, d.Encodable := by
    intro d hd
    rcases List.mem_pair.mp hd with rfl | rfl
    · exact ⟨by decide, by decide, by decide⟩
    · exact ⟨by decide, by decide, by decide⟩
  have hsome : (buildWithImports 55 twoDlls true 3).isSome = true := by decide
  obtain ⟨bytes, hbytes⟩ := Option.isSome_iff_exists.mp hsome
  rw [hbytes]
  exact fixture_roundTrip Alloc.generous_succeeds (Nat.le_refl _) hdlls (.inr rfl) hbytes

end Winlift.MkMiniPe

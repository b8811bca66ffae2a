import Winlift.PeReader
import Winlift.RelocBounds

/-!
# The loader's reads

Every read of the loader is inside the file: the headers and the section table are compared with the
file's size, everything behind an RVA comes from the map. The second pass over the relocations looks the
block headers up without checking the result; the first pass has found all of them
(`fillBlocks_result`).
-/

namespace Winlift
open CSem

section
variable {F : Fault → Prop} {img : PeImage}

/-! ### Imports -/

theorem wp_readCStringFrom (rva : UInt32) (n i : Nat) :
    Res.wp F (readCStringFrom img rva n i) fun _ => True := by
  induction n generalizing i with
  | zero => trivial
  | succ n ih =>
    rw [readCStringFrom]
    split
    · trivial
    · rename_i p hp
      rw [Res.wp_bind]
      refine (wp_readable_rva hp rfl).mpr ?_
      dsimp only
      split
      · trivial
      · rw [Res.wp_bind]
        exact Res.wp_mono (ih (i + 1)) fun _ _ => trivial

theorem wp_parseThunk (dllName : List UInt8) (thunk iatRva : UInt32) :
    Res.wp F (parseThunk img dllName thunk iatRva) fun _ => True := by
  unfold parseThunk
  split
  · trivial
  · simp only [Res.wp_bind, Res.wp_orReject]
    intro p hp
    refine (wp_readable_rva hp rfl).mpr ?_
    exact Res.wp_mono (wp_readCStringFrom ..) fun _ _ _ _ => trivial

theorem wp_thunkStep (grant : Nat → Bool) (dllName : List UInt8) (thunkRva iatRva : UInt32)
    (s : ThunkState) : Res.wp F (thunkStep grant img dllName thunkRva iatRva s) fun _ => True := by
  unfold thunkStep
  simp only [Res.wp_bind, Res.wp_orReject]
  intro p hp
  refine (wp_readable_rva hp rfl).mpr ?_
  split
  · trivial
  · simp only [Res.wp_bind, Res.wp_orReject]
    exact fun _ _ => Res.wp_mono (wp_parseThunk ..) fun _ _ => trivial

theorem wp_parseOneDll (alloc : Alloc) (fuel : Nat) (imports : List PeImportDll) (importsCap : Int)
    (desc : PeImportDescriptor) :
    Res.wp F (parseOneDll alloc fuel img imports importsCap desc) fun _ => True := by
  unfold parseOneDll
  simp only [Res.wp_bind, Res.wp_orReject, Res.wp_rejectIf]
  refine fun _ _ => Res.wp_mono (wp_readCStringFrom ..) fun _ _ _ _ _ => ?_
  refine wp_loop (I := fun _ => True) (fun s _ => Res.wp_mono (wp_thunkStep ..) fun r _ => ?_) _ _ trivial
  cases r <;> trivial

theorem wp_importStep (alloc : Alloc) (fuel : Nat) (dirRva : UInt32) (s : ImportState) :
    Res.wp F (importStep alloc fuel img dirRva s) fun _ => True := by
  unfold importStep
  simp only [Res.wp_bind, Res.wp_orReject]
  intro p hp
  refine (wp_readable_rva hp rfl).mpr ?_
  split
  · trivial
  · rw [Res.wp_bind]
    exact Res.wp_mono (wp_parseOneDll ..) fun _ _ => trivial

theorem wp_peParseImportsDir (alloc : Alloc) (fuel : Nat) (dirRva : UInt32) :
    Res.wp F (peParseImportsDir alloc fuel img dirRva) fun img' =>
      img' = { img with imports := img'.imports, importsCap := img'.importsCap } := by
  unfold peParseImportsDir
  split
  · rfl
  · rw [Res.wp_bind]
    refine wp_loop (I := fun _ => True) (fun s _ => Res.wp_mono (wp_importStep ..) fun r _ => ?_) _ _
      trivial
    cases r
    · trivial
    · rfl

/-! ### Headers -/

theorem wp_parseSectionsFrom {raw : Buffer} {secPtr n i : Nat}
    (h : secPtr + (i + n) * peSectionHeaderSize ≤ raw.size) :
    Res.wp F (parseSectionsFrom raw secPtr n i) fun ss => ss.length = n ∧
      ∀ s ∈ ss, s.fileOff.toNat + s.fsize.toNat ≤ raw.size := by
  induction n generalizing i with
  | zero => exact ⟨rfl, by simp⟩
  | succ n ih =>
    have hread : secPtr + i * peSectionHeaderSize + peSectionHeaderSize ≤ raw.size := by
      unfold peSectionHeaderSize at h ⊢
      omega
    rw [parseSectionsFrom, Res.wp_bind, wp_readable hread]
    simp only [Res.wp_bind, Res.wp_rejectIf]
    intro hs
    refine Res.wp_mono (ih (i := i + 1) ?_) fun rest hrest => ?_
    · rwa [Nat.add_assoc i 1 n, Nat.add_comm 1 n]
    · refine ⟨by simp [hrest.1], ?_⟩
      intro s hmem
      rcases List.mem_cons.mp hmem with rfl | hmem
      · exact Nat.not_lt.mp hs
      · exact hrest.2 s hmem

theorem wp_checkOptionalHeader (opt : PeOptionalHeader32) :
    Res.wp F (checkOptionalHeader opt) fun _ => True := by
  simp [checkOptionalHeader, Res.wp_bind, Res.wp_rejectIf]

/-- What the loader has established of an image when the directories are parsed. -/
structure ImageOf (raw : Buffer) (img : PeImage) : Prop where
  raw_eq : img.raw = raw
  sections_in_file : ∀ s ∈ img.sections, s.fileOff.toNat + s.fsize.toNat ≤ raw.size
  sections_length : img.sections.length < 2 ^ 16
  imageBase_ne_zero : img.imageBase ≠ 0

theorem wp_parseSections {raw : Buffer} {secPtr n : Nat} (grant : Nat → Bool)
    (h : secPtr + n * peSectionHeaderSize ≤ raw.size) :
    Res.wp F (parseSections grant raw secPtr n) fun ss => ss.length = n ∧
      ∀ s ∈ ss, s.fileOff.toNat + s.fsize.toNat ≤ raw.size := by
  unfold parseSections
  simp only [Res.wp_bind, Res.wp_rejectIf]
  intro _ _
  rw [Int.toNat_natCast]
  exact wp_parseSectionsFrom (by rwa [Nat.zero_add])

theorem wp_peReadHeaders (grant : Nat → Bool) (raw : Buffer) :
    Res.wp F (peReadHeaders grant raw) fun p => ImageOf raw p.1 := by
  unfold peReadHeaders
  simp only [Res.wp_bind, Res.wp_rejectIf]
  intro hdos
  refine (wp_readable ((Nat.zero_add _).symm ▸ Nat.not_lt.mp hdos)).mpr ?_
  generalize peDosHeaderAt raw 0 = dos
  intro _ hlfanew
  rw [not_or, Int.not_lt, Int.not_lt] at hlfanew
  refine (wp_readableAt hlfanew.1 hlfanew.2).mpr ?_
  intro _ hcoff
  refine (wp_readable (Nat.not_lt.mp hcoff)).mpr ?_
  generalize peCoffHeaderAt raw _ = coff
  intro _ _ _ hopt
  rw [not_or] at hopt
  refine (wp_readable (Nat.not_lt.mp hopt.2)).mpr ?_
  generalize peOptionalHeader32At raw _ = opt
  refine Res.wp_mono (wp_checkOptionalHeader opt) fun _ _ hbase hsec => ?_
  refine Res.wp_mono (wp_parseSections grant (Nat.not_lt.mp hsec)) fun ss hss => ?_
  exact ⟨rfl, hss.2, hss.1 ▸ coff.numberOfSections.toNat_lt, hbase⟩

theorem wp_loadImports (alloc : Alloc) (fuel : Nat) (raw : Buffer) :
    Res.wp F (loadImports alloc fuel raw) fun p => ImageOf raw p.1 := by
  unfold loadImports
  rw [Res.wp_bind]
  refine Res.wp_mono (wp_peReadHeaders ..) fun p hp => ?_
  simp only [Res.wp_bind]
  refine Res.wp_mono (wp_peParseImportsDir ..) fun img' himg => ?_
  rw [Res.wp_ok, himg]
  exact ⟨hp.raw_eq, hp.sections_in_file, hp.sections_length, hp.imageBase_ne_zero⟩

/-! ### Relocations and TLS callbacks -/

theorem wp_countRelocs (fuel : Nat) (dirRva dirSize : UInt32) :
    Res.wp F (countRelocs fuel img dirRva dirSize) fun _ => True := by
  refine wp_loop (I := fun _ => True) (fun s _ => ?_) _ _ trivial
  unfold countStep
  split
  · simp only [Res.wp_bind, Res.wp_orReject, Res.wp_rejectIf]
    intro p hp
    exact (wp_readable_rva hp rfl).mpr fun _ => trivial
  · trivial

theorem wp_relocPasses (grant : Nat → Bool) (fuel : Nat) (dirRva dirSize : UInt32) :
    Res.wp F (relocPasses grant fuel img dirRva dirSize) fun _ => True := by
  unfold relocPasses
  split
  · trivial
  · rw [Res.wp_bind]
    refine Res.wp_mono (wp_countRelocs ..) fun count _ => ?_
    split
    · trivial
    · simp only [Res.wp_bind, Res.wp_rejectIf]
      intro _
      refine wp_loop (I := fun _ => True) (fun s _ => ?_) _ _ trivial
      rw [Res.wp_ok]
      split <;> trivial

theorem peParseRelocsDir_eq {grant : Nat → Bool} {fuel : Nat} {dirRva dirSize : UInt32}
    {img' : PeImage} (h : peParseRelocsDir grant fuel img dirRva dirSize = .ok img') :
    img' = { img with relocs := img'.relocs } := by
  obtain ⟨r, -, h⟩ := Res.bind_eq_ok.mp h
  cases r with
  | none => cases h; rfl
  | some r =>
    have h : storeRelocs r.1 img r.2 = .ok img' := h
    unfold storeRelocs at h
    split at h
    · cases h
    · cases h
    · split_ifs at h
    · split_ifs at h; cases h; rfl

theorem wp_tlsStep (arrRva : UInt32) (s : TlsState) :
    Res.wp F (tlsStep img arrRva s) fun _ => True := by
  unfold tlsStep
  simp only [Res.wp_bind, Res.wp_orReject]
  intro p hp
  refine (wp_readable_rva hp rfl).mpr ?_
  split
  · trivial
  · simp only [Res.wp_bind, Res.wp_rejectIf]
    exact fun _ _ => trivial

theorem wp_peParseTlsDir (fuel : Nat) (dirRva dirSize : UInt32) :
    Res.wp F (peParseTlsDir fuel img dirRva dirSize) fun img' =>
      img' = { img with hasTls := img'.hasTls, tlsHasCallbacks := img'.tlsHasCallbacks,
                        tlsCallbackRvas := img'.tlsCallbackRvas } := by
  unfold peParseTlsDir
  split
  · rfl
  · simp only [Res.wp_bind, Res.wp_orReject]
    intro p hp
    refine (wp_readable_rva hp rfl).mpr ?_
    split
    · rfl
    · simp only [Res.wp_bind, Res.wp_rejectIf]
      intro _
      refine wp_loop (I := fun _ => True) (fun s _ => Res.wp_mono (wp_tlsStep ..) fun r _ => ?_) _ _
        trivial
      cases r
      · trivial
      · rfl

end

/-! ### `pe_image_load` -/

/-- The relocation parser can leave the defined behaviour with a store only. -/
theorem peParseRelocsDir_eq_fault {grant : Nat → Bool} {fuel : Nat} {img : PeImage}
    {dirRva dirSize : UInt32} {f : Fault}
    (h : peParseRelocsDir grant fuel img dirRva dirSize = .fault f) : f = .outsideStore := by
  unfold peParseRelocsDir at h
  cases hr : relocPasses grant fuel img dirRva dirSize with
  | err e => rw [hr] at h; cases h
  | timeout => rw [hr] at h; cases h
  | fault f' => exact ((wp_relocPasses (F := fun _ => False) grant fuel dirRva dirSize).of_fault hr).elim
  | ok r =>
    rw [hr] at h
    cases r with
    | none => cases h
    | some r =>
      obtain ⟨count, run⟩ := r
      obtain ⟨-, bs, hw, -, -, -, rfl⟩ := relocPasses_eq_some hr
      have h : storeRelocs count img (fillBlocks img dirRva bs []) = .fault f := h
      rw [storeRelocs, fillBlocks_result hw.size_ge] at h
      by_cases hall : ∀ b ∈ bs, b.Mapped img dirRva
      · rw [if_pos hall] at h
        dsimp only at h
        split_ifs at h
        exact (Res.fault.inj h).symm
      · rw [if_neg hall] at h
        dsimp only at h
        split_ifs at h
        exact (Res.fault.inj h).symm

/-- `pe_image_load` reads nothing outside the file, and nothing through `NULL`. -/
def ReadsInFile (raw : Buffer) : Prop :=
  ∀ (alloc : Alloc) (fuel : Nat),
    peImageLoad alloc fuel raw ≠ .fault .outsideRead ∧ peImageLoad alloc fuel raw ≠ .fault .nullRead

/-- Only the relocation parser can leave the defined behaviour. -/
theorem peImageLoad_eq_fault {alloc : Alloc} {fuel : Nat} {raw : Buffer} {f : Fault}
    (h : peImageLoad alloc fuel raw = .fault f) : ∃ img dirs,
    loadImports alloc fuel raw = .ok (img, dirs) ∧
      peParseRelocsDir alloc.relocs fuel img dirs.relocs.virtualAddress dirs.relocs.size =
        .fault f := by
  unfold peImageLoad at h
  cases himg : loadImports alloc fuel raw with
  | err e => rw [himg] at h; cases h
  | timeout => rw [himg] at h; cases h
  | fault f' => exact ((wp_loadImports (F := fun _ => False) alloc fuel raw).of_fault himg).elim
  | ok p =>
    obtain ⟨img, dirs⟩ := p
    rw [himg, Res.ok_bind] at h
    refine ⟨img, dirs, rfl, ?_⟩
    dsimp only at h
    cases hrel : peParseRelocsDir alloc.relocs fuel img dirs.relocs.virtualAddress
        dirs.relocs.size with
    | err e => rw [hrel] at h; cases h
    | timeout => rw [hrel] at h; cases h
    | ok img' =>
      rw [hrel] at h
      exact ((wp_peParseTlsDir (F := fun _ => False) fuel dirs.tls.virtualAddress
        dirs.tls.size).of_fault h).elim
    | fault f' =>
      rw [hrel] at h
      exact h

theorem readsInFile (raw : Buffer) : ReadsInFile raw := by
  have hsafe : ∀ alloc fuel f, peImageLoad alloc fuel raw = .fault f → f = .outsideStore := by
    intro alloc fuel f h
    obtain ⟨img, dirs, -, hrel⟩ := peImageLoad_eq_fault h
    exact peParseRelocsDir_eq_fault hrel
  intro alloc fuel
  constructor
  · intro h
    cases hsafe _ _ _ h
  · intro h
    cases hsafe _ _ _ h

/-- The directory parsers leave everything but their own results as the headers have it. -/
theorem peImageLoad_headers {alloc : Alloc} {fuel : Nat} {raw : Buffer} {img : PeImage}
    (h : peImageLoad alloc fuel raw = .ok img) : ∃ (img₀ : PeImage) (dirs : PeDirs),
      peReadHeaders alloc.sections raw = .ok (img₀, dirs) ∧
      img = { img₀ with imports := img.imports, importsCap := img.importsCap, relocs := img.relocs,
                        hasTls := img.hasTls, tlsHasCallbacks := img.tlsHasCallbacks,
                        tlsCallbackRvas := img.tlsCallbackRvas } := by
  obtain ⟨img₀, img₁, img₂, dirs, hheaders, himports, hrelocs, htls⟩ := peImageLoad_parts h
  refine ⟨img₀, dirs, hheaders, ?_⟩
  rw [(wp_peParseTlsDir (F := fun _ => True) fuel _ _).of_ok htls, peParseRelocsDir_eq hrelocs,
    (wp_peParseImportsDir (F := fun _ => True) alloc fuel _).of_ok himports]

theorem peImageLoad_eq_ok {alloc : Alloc} {fuel : Nat} {raw : Buffer} {img : PeImage}
    (h : peImageLoad alloc fuel raw = .ok img) : ImageOf raw img := by
  obtain ⟨img₀, dirs, hheaders, heq⟩ := peImageLoad_headers h
  have hof := (wp_peReadHeaders (F := fun _ => True) alloc.sections raw).of_ok hheaders
  rw [heq]
  exact ⟨hof.raw_eq, hof.sections_in_file, hof.sections_length, hof.imageBase_ne_zero⟩

end Winlift

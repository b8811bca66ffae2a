import Winlift.Appended
import Winlift.FileLayout
import Winlift.ImportSpec
import Winlift.RelocFormat
import Winlift.TlsSpec

/-!
# Which files are loaded

The format that `pe_image_load` accepts, said field by field over the bytes of a file and in exact integers
(`FileAccepted`), and what it finds in a file of that format (`FileDescribed`). The checks of
`pe_image_load` are more than the format has conditions: most of its size checks follow from the end of the
section table.
-/

namespace Winlift
open CSem Res

section
variable (raw : Buffer)

/-- Where the NT signature is. -/
def ntOff : Nat := (peDosHeaderAt raw 0).eLfanew.toNat

def coffHeader : PeCoffHeader := peCoffHeaderAt raw (ntOff raw + 4)

def optHeader : PeOptionalHeader32 := peOptionalHeader32At raw (ntOff raw + 24)

def sectionTable : Nat := ntOff raw + 24 + (coffHeader raw).sizeOfOptionalHeader.toNat

def fileSections : List PeSection :=
  (List.range (coffHeader raw).numberOfSections.toNat).map fun i =>
    peSectionOf (peSectionHeaderAt raw (sectionTable raw + i * peSectionHeaderSize))

structure HeadersAccepted : Prop where
  dos_le : peDosHeaderSize ≤ raw.size
  dos_magic : (peDosHeaderAt raw 0).eMagic = peDosMagic
  lfanew_nonneg : 0 ≤ (peDosHeaderAt raw 0).eLfanew
  signature : raw.le32 (ntOff raw) = peNtSignature
  machine : (coffHeader raw).machine = peMachineI386
  not_dll : (coffHeader raw).characteristics &&& peFileDll = 0
  executable : (coffHeader raw).characteristics &&& peFileExecutable ≠ 0
  opt_size : peOptionalHeader32Size ≤ (coffHeader raw).sizeOfOptionalHeader.toNat
  pe32 : (optHeader raw).magic = peOpthdr32Magic
  subsystem : (optHeader raw).subsystem = peSubsystemWindowsCui ∨
    (optHeader raw).subsystem = peSubsystemWindowsGui
  dirs_le : (optHeader raw).numberOfRvaAndSizes.toNat ≤ peNumDirectories
  not_dotnet : ((optHeader raw).dir peDirComDescriptor).size = 0
  no_delay : ((optHeader raw).dir peDirDelayImport).size = 0
  base_ne : (optHeader raw).imageBase ≠ 0
  table_le : sectionTable raw + (coffHeader raw).numberOfSections.toNat * peSectionHeaderSize ≤ raw.size
  data_le : ∀ s ∈ fileSections raw, s.fileOff.toNat + s.fsize.toNat ≤ raw.size

/-- The image before any directory is parsed. -/
def headersImage : PeImage where
  imageBase := (optHeader raw).imageBase
  entryPointRva := (optHeader raw).addressOfEntryPoint
  sizeOfImage := (optHeader raw).sizeOfImage
  sizeOfHeaders := (optHeader raw).sizeOfHeaders
  subsystem := (optHeader raw).subsystem
  sectionAlignment := (optHeader raw).sectionAlignment
  fileAlignment := (optHeader raw).fileAlignment
  sections := fileSections raw
  imports := []
  importsCap := 0
  relocs := []
  hasTls := false
  tlsHasCallbacks := false
  tlsCallbackRvas := []
  raw := raw

def headersDirs : PeDirs where
  imports := (optHeader raw).dir peDirImport
  relocs := (optHeader raw).dir peDirBasereloc
  tls := (optHeader raw).dir peDirTls

end

/-! ### Headers -/

section
variable {raw : Buffer} {grant : Nat → Bool} {img : PeImage} {dirs : PeDirs}

theorem parseSectionsFrom_eq_ok {secPtr n i : Nat} {ss : List PeSection}
    (hn : 0 < n → secPtr + (i + n) * peSectionHeaderSize ≤ raw.size) :
    parseSectionsFrom raw secPtr n i = .ok ss ↔
      ss = (List.range' i n).map (fun k =>
        peSectionOf (peSectionHeaderAt raw (secPtr + k * peSectionHeaderSize))) ∧
      ∀ s ∈ ss, s.fileOff.toNat + s.fsize.toNat ≤ raw.size := by
  induction n generalizing i ss with
  | zero =>
    rw [parseSectionsFrom, ok.injEq, List.range'_zero, List.map_nil]
    constructor
    · rintro rfl
      exact ⟨rfl, by simp⟩
    · rintro ⟨rfl, -⟩
      rfl
  | succ n ih =>
    have hend := hn (Nat.succ_pos n)
    have hrest : 0 < n → secPtr + (i + 1 + n) * peSectionHeaderSize ≤ raw.size := by
      intro
      rwa [Nat.add_assoc, Nat.add_comm 1 n]
    have hread : (readable raw (some (secPtr + i * peSectionHeaderSize)) peSectionHeaderSize :
        Res PeError Nat) = .ok (secPtr + i * peSectionHeaderSize) := by
      refine readable_of_le (Nat.le_trans ?_ hend)
      rw [Nat.add_mul, Nat.succ_mul]
      omega
    rw [parseSectionsFrom, hread, ok_bind, List.range'_succ, List.map_cons]
    simp only [bind_eq_ok, rejectIf_eq_ok, ih hrest, exists_const, Nat.not_lt, ok.injEq]
    constructor
    · rintro ⟨hle, rest, ⟨rfl, hall⟩, rfl⟩
      exact ⟨rfl, List.forall_mem_cons.mpr ⟨hle, hall⟩⟩
    · rintro ⟨rfl, hall⟩
      obtain ⟨hle, hall⟩ := List.forall_mem_cons.mp hall
      exact ⟨hle, _, ⟨rfl, hall⟩, rfl⟩

theorem dir_size_eq_zero {opt : PeOptionalHeader32} {k : Nat} : (opt.dir k).size = 0 ↔
    ¬ (k < opt.numberOfRvaAndSizes.toNat ∧ (opt.dataDirectory k).size ≠ 0) := by
  unfold PeOptionalHeader32.dir
  split_ifs with hk <;> simp [hk]

theorem checkOptionalHeader_eq_ok {opt : PeOptionalHeader32} {u : Unit} : checkOptionalHeader opt = .ok u ↔
    opt.magic = peOpthdr32Magic ∧
      (opt.subsystem = peSubsystemWindowsCui ∨ opt.subsystem = peSubsystemWindowsGui) ∧
      opt.numberOfRvaAndSizes.toNat ≤ peNumDirectories ∧ (opt.dir peDirComDescriptor).size = 0 ∧
      (opt.dir peDirDelayImport).size = 0 := by
  have hmagic : opt.magic = peOpthdr32Magic → opt.magic ≠ peOpthdr64Magic := by
    intro h
    rw [h]
    decide
  simp only [checkOptionalHeader, bind_eq_ok, rejectIf_eq_ok, exists_const, dir_size_eq_zero, not_not,
    Nat.not_lt, ne_eq, ← or_iff_not_and_not]
  constructor
  · rintro ⟨-, h⟩
    exact h
  · intro h
    exact ⟨hmagic h.1, h⟩

theorem HeadersAccepted.sizes (h : HeadersAccepted raw) :
    ntOff raw + 24 + peOptionalHeader32Size ≤ sectionTable raw ∧ sectionTable raw ≤ raw.size := by
  have hopt := h.opt_size
  have htable := h.table_le
  unfold sectionTable at htable ⊢
  omega

theorem parseSections_of_accepted (hgrant : ∀ n ≤ ptrdiffMax, grant n = true) (h : HeadersAccepted raw) :
    parseSections grant raw (sectionTable raw) ((coffHeader raw).numberOfSections.toNat : Int) =
      .ok (fileSections raw) := by
  have hcount := (coffHeader raw).numberOfSections.toNat_lt
  have hbytes : sizeT ((coffHeader raw).numberOfSections.toNat : Int) * peSectionSize ≤ ptrdiffMax := by
    rw [sizeT_natCast (by omega), peSectionSize, ptrdiffMax]
    omega
  rw [parseSections, rejectIf_of_not _ (by omega), ok_bind,
    rejectIf_of_not _ (by simp [hgrant _ hbytes]), ok_bind, Int.toNat_natCast]
  refine (parseSectionsFrom_eq_ok fun _ => ?_).mpr ⟨?_, h.data_le⟩
  · rw [Nat.zero_add]
    exact h.table_le
  · rw [← List.range_eq_range']
    rfl

theorem peReadHeaders_iff (hgrant : ∀ n ≤ ptrdiffMax, grant n = true) :
    peReadHeaders grant raw = .ok (img, dirs) ↔
      HeadersAccepted raw ∧ img = headersImage raw ∧ dirs = headersDirs raw := by
  have hnt : (peDosHeaderAt raw 0).eLfanew.toNat = ntOff raw := rfl
  have hopt_off : ntOff raw + 4 + peCoffHeaderSize = ntOff raw + 24 := Nat.add_assoc _ 4 20
  constructor
  · intro h
    simp only [peReadHeaders, bind_eq_ok, rejectIf_eq_ok, readable_eq_ok, Option.some.injEq] at h
    obtain ⟨_, hdos, _, ⟨rfl, -⟩, _, hmz, _, hlfanew, p, hp, _, hsig, _, hcoff, _, ⟨rfl, -⟩, _, hmachine, _,
      hdll, _, hexe, _, hopt, _, ⟨rfl, -⟩, _, hcheck, _, hbase, _, htable, sections, hsections, heq⟩ := h
    have hp' : p = ntOff raw := by
      rw [readableAt] at hp
      split_ifs at hp
      exact (ok.inj hp).symm
    simp only [hnt, hopt_off, hp'] at *
    obtain ⟨hmagic, hsub, hdirs, hdotnet, hdelay⟩ := checkOptionalHeader_eq_ok.mp hcheck
    obtain ⟨_, -, _, -, hsections⟩ := by simpa only [parseSections, bind_eq_ok] using hsections
    rw [Nat.not_lt] at htable
    obtain ⟨hss, hdata⟩ := (parseSectionsFrom_eq_ok fun _ => by simpa using htable).mp hsections
    rw [← List.range_eq_range', Int.toNat_natCast] at hss
    have hfile : sections = fileSections raw := hss
    subst hfile
    cases heq
    refine ⟨?_, rfl, rfl⟩
    exact
      { dos_le := Nat.not_lt.mp hdos
        dos_magic := not_not.mp hmz
        lfanew_nonneg := by omega
        signature := not_not.mp hsig
        machine := not_not.mp hmachine
        not_dll := not_not.mp hdll
        executable := hexe
        opt_size := by unfold coffHeader; omega
        pe32 := hmagic
        subsystem := hsub
        dirs_le := hdirs
        not_dotnet := hdotnet
        no_delay := hdelay
        base_ne := hbase
        table_le := htable
        data_le := hdata }
  · rintro ⟨h, rfl, rfl⟩
    obtain ⟨hsec, hend⟩ := h.sizes
    have hopt_size : peOptionalHeader32Size = 224 := rfl
    have hcoff_size : peCoffHeaderSize = 20 := rfl
    have hlfanew : (peDosHeaderAt raw 0).eLfanew = ntOff raw := (Int.toNat_of_nonneg h.lfanew_nonneg).symm
    have hread : readableAt raw (peDosHeaderAt raw 0).eLfanew 4 = (.ok (ntOff raw) : Res PeError Nat) := by
      rw [hlfanew, readableAt_natCast, if_pos (by omega)]
    have hcheck : checkOptionalHeader (optHeader raw) = .ok () :=
      checkOptionalHeader_eq_ok.mpr ⟨h.pe32, h.subsystem, h.dirs_le, h.not_dotnet, h.no_delay⟩
    have hsections : parseSections grant raw (sectionTable raw)
        ((coffHeader raw).numberOfSections.toNat : Int) = .ok (fileSections raw) :=
      parseSections_of_accepted hgrant h
    simp only [peReadHeaders, bind_eq_ok, rejectIf_eq_ok, readable_eq_ok, Option.some.injEq, and_assoc,
      exists_eq_left', exists_const, hnt, hopt_off, hread, ok.injEq]
    refine ⟨Nat.not_lt.mpr h.dos_le, by simpa using h.dos_le, not_not.mpr h.dos_magic, ?_,
      not_not.mpr h.signature, ?_, ?_, not_not.mpr h.machine,
      not_not.mpr h.not_dll, h.executable, ?_, ?_, (), hcheck, h.base_ne,
      Nat.not_lt.mpr h.table_le, _, hsections, rfl⟩
    · omega
    · omega
    · omega
    · exact not_or.mpr ⟨Nat.not_lt.mpr h.opt_size, by omega⟩
    · omega

end

/-! ### Directories -/

structure FileAccepted (raw : Buffer) : Prop where
  headers : HeadersAccepted raw
  imports : (headersDirs raw).imports.virtualAddress = 0 ∨
    ImportsAccepted (headersImage raw) (headersDirs raw).imports.virtualAddress
  relocs : RelocDirAccepted (headersImage raw) (headersDirs raw).relocs
  tls : TlsAccepted (headersImage raw) (headersDirs raw).tls.virtualAddress (headersDirs raw).tls.size

/-- The image that is loaded: what the headers say, and what each directory has. -/
def FileDescribed (raw : Buffer) (img : PeImage) : Prop :=
  ∃ imports cap relocs,
    ((headersDirs raw).imports.virtualAddress = 0 ∧ imports = [] ∨
      (headersDirs raw).imports.virtualAddress ≠ 0 ∧
        ImportsAt (headersImage raw) (headersDirs raw).imports.virtualAddress imports) ∧
    RelocDirRecorded (headersImage raw) (headersDirs raw).relocs relocs ∧
    TlsRecorded { headersImage raw with imports := imports, importsCap := cap, relocs := relocs }
      (headersDirs raw).tls.virtualAddress (headersDirs raw).tls.size img

section
variable {img img' : PeImage} (hmap : peRvaToPtr img' = peRvaToPtr img) (hraw : img'.raw = img.raw)
include hmap hraw

theorem callbackAt_congr : callbackAt img' = callbackAt img := by
  funext arrRva k
  rw [callbackAt, callbackAt, hmap, hraw]

theorem TlsAccepted.congr {dirRva dirSize : UInt32} (hbase : img'.imageBase = img.imageBase)
    (h : TlsAccepted img dirRva dirSize) : TlsAccepted img' dirRva dirSize := by
  have harray : ∀ arrRva ts, CallbackArray img arrRva ts → CallbackArray img' arrRva ts := by
    intro arrRva ts h
    refine ⟨?_, h.short, ?_⟩
    · rw [callbackAt_congr hmap hraw]
      exact h.table
    · rw [hbase]
      exact h.above_base
  unfold TlsAccepted at h ⊢
  rw [hmap, hraw, hbase]
  refine h.imp_right (.imp_right ?_)
  rintro ⟨p, hp, hcb⟩
  refine ⟨p, hp, hcb.imp_right ?_⟩
  rintro ⟨hle, ts, hts⟩
  exact ⟨hle, ts, harray _ _ hts⟩

end

/-! ### The loader -/

section
variable {alloc : Alloc} {fuel : Nat} {raw : Buffer} {img img' : PeImage}

/-- Only the array of relocations changes. -/
theorem peParseRelocsDir_frame {grant : Nat → Bool} {dirRva dirSize : UInt32}
    (h : peParseRelocsDir grant fuel img dirRva dirSize = .ok img') :
    img' = { img with relocs := img'.relocs } := by
  obtain ⟨r, -, h⟩ := bind_eq_ok.mp h
  cases r with
  | none =>
    cases h
    rfl
  | some r =>
    have hstore : storeRelocs r.1 img r.2 = .ok img' := h
    obtain ⟨-, -, rfl⟩ := storeRelocs_eq_ok hstore
    rfl

theorem relocDir_of_ok (halloc : alloc.Lawful) {dir : PeDataDirectory} (hspace : RelocsInSpace img dir)
    (hnew : img.relocs = [])
    (h : peParseRelocsDir alloc.relocs fuel img dir.virtualAddress dir.size = .ok img') :
    RelocDirAccepted img dir ∧ RelocDirRecorded img dir img'.relocs := by
  by_cases hdir : dir.Absent
  · rw [peParseRelocsDir_of_absent hdir] at h
    cases h
    exact ⟨.inl hdir, .inl ⟨hdir, hnew⟩⟩
  · obtain ⟨hrva, hsize⟩ := not_or.mp hdir
    obtain ⟨bs, hw⟩ := exists_walk_of_ok hrva hsize h
    refine ⟨relocDirAccepted_of_walk hdir hspace hw (checksPass_of_ok halloc.relocs hw hrva h), ?_⟩
    have hbs : DirBlocks img dir.virtualAddress dir.size bs := by
      rwa [DirBlocks, if_neg hrva]
    rw [fileRelocs_of_ok hnew hbs (sizeSum_lt hdir hspace hw) h]
    exact relocDirRecorded_of_walk hdir hspace hw

theorem exists_relocDir (halloc : alloc.Succeeds) {dir : PeDataDirectory} (hspace : RelocsInSpace img dir)
    (h : RelocDirAccepted img dir) : ∃ n, ∀ img' fuel, peRvaToPtr img' = peRvaToPtr img → img'.raw = img.raw →
      n < fuel → ∃ img'', peParseRelocsDir alloc.relocs fuel img' dir.virtualAddress dir.size = .ok img'' := by
  rcases h with hdir | ⟨fs, hfs, hok⟩
  · exact ⟨0, fun img' fuel _ _ _ => ⟨img', peParseRelocsDir_of_absent hdir⟩⟩
  · refine ⟨fs.length, fun img' fuel hmap hraw hfuel => ?_⟩
    by_cases hdir : dir.Absent
    · exact ⟨img', peParseRelocsDir_of_absent hdir⟩
    · have hok' : (∀ b ∈ fs, b.entries = 0) ∨ ∀ b ∈ fs, b.InFile img' := by
        simpa only [inFile_congr hmap] using hok
      obtain ⟨bs, hlen, hw, hpass⟩ := (hfs.congr hmap hraw).exists_walk hdir (hspace.congr hmap hraw) hok'
      exact exists_ok_of_checksPass halloc.relocs hw (fun h => hdir (.inl h)) hpass (hlen ▸ hfuel)

theorem importsDir_of_ok {dirRva : UInt32} (hnew : img.imports = []) (hcap : img.importsCap = 0)
    (h : peParseImportsDir alloc fuel img dirRva = .ok img') :
    ∃ imports cap, img' = { img with imports := imports, importsCap := cap } ∧
      (dirRva = 0 ∨ ImportsAccepted img dirRva) ∧
        (dirRva = 0 ∧ imports = [] ∨ dirRva ≠ 0 ∧ ImportsAt img dirRva imports) := by
  by_cases hdir : dirRva = 0
  · rw [peParseImportsDir, if_pos hdir] at h
    cases h
    exact ⟨_, _, rfl, .inl hdir, .inl ⟨hdir, hnew⟩⟩
  · obtain ⟨hacc, hat⟩ := peParseImportsDir_spec hnew hcap hdir h
    obtain ⟨s, -, rfl⟩ := (peParseImportsDir_eq_ok hnew hcap hdir).mp h
    exact ⟨_, _, rfl, .inr hacc, .inr ⟨hdir, hat⟩⟩

theorem exists_importsDir (halloc : alloc.Succeeds) {dirRva : UInt32} (hnew : img.imports = [])
    (hcap : img.importsCap = 0) (h : dirRva = 0 ∨ ImportsAccepted img dirRva) (hfuel : 2 ^ 30 ≤ fuel) :
    ∃ img', peParseImportsDir alloc fuel img dirRva = .ok img' := by
  by_cases hdir : dirRva = 0
  · exact ⟨img, by rw [peParseImportsDir, if_pos hdir]⟩
  · exact exists_peParseImportsDir hnew hcap hdir halloc hfuel (h.resolve_left hdir)

theorem peImageLoad_of_ok (hsucc : alloc.Succeeds) (hlaw : alloc.Lawful)
    (hspace : RelocsInSpace (headersImage raw) (headersDirs raw).relocs)
    (h : peImageLoad alloc fuel raw = .ok img) : FileAccepted raw ∧ FileDescribed raw img := by
  obtain ⟨img₀, img₁, img₂, dirs, hheaders, himports, hrelocs, htls⟩ := peImageLoad_parts h
  obtain ⟨hacc, rfl, rfl⟩ := (peReadHeaders_iff hsucc.sections).mp hheaders
  obtain ⟨imports, cap, rfl, hiacc, hiat⟩ := importsDir_of_ok rfl rfl himports
  obtain ⟨hracc, hrat⟩ := relocDir_of_ok hlaw (hspace.congr (by rfl) (by rfl)) rfl hrelocs
  obtain ⟨relocs, hrelocs_eq⟩ : ∃ relocs, img₂.relocs = relocs := ⟨_, rfl⟩
  have hframe := peParseRelocsDir_frame hrelocs
  rw [hrelocs_eq] at hframe hrat
  subst hframe
  obtain ⟨htacc, htat⟩ := peParseTlsDir_eq_ok rfl htls
  refine ⟨⟨hacc, hiacc, ?_, ?_⟩, imports, cap, relocs, hiat, ?_, htat⟩
  · refine hracc.congr ?_ ?_ <;> rfl
  · refine htacc.congr ?_ ?_ ?_ <;> rfl
  · refine hrat.congr ?_ ?_ <;> rfl

theorem exists_peImageLoad (hsucc : alloc.Succeeds)
    (hspace : RelocsInSpace (headersImage raw) (headersDirs raw).relocs) (h : FileAccepted raw) :
    ∃ fuel img, peImageLoad alloc fuel raw = .ok img := by
  obtain ⟨n, hrelocs⟩ := exists_relocDir hsucc hspace h.relocs
  have hheaders := (peReadHeaders_iff hsucc.sections).mpr ⟨h.headers, rfl, rfl⟩
  obtain ⟨img₁, himports⟩ := exists_importsDir hsucc rfl rfl h.imports
    (show 2 ^ 30 ≤ 2 ^ 30 + n + 1 by omega)
  obtain ⟨imports, cap, rfl, -⟩ := importsDir_of_ok rfl rfl himports
  obtain ⟨img₂, hrelocs₂⟩ := hrelocs
    { headersImage raw with imports := imports, importsCap := cap } (2 ^ 30 + n + 1) rfl rfl (by omega)
  have hframe := peParseRelocsDir_frame hrelocs₂
  have htls : TlsAccepted img₂ (headersDirs raw).tls.virtualAddress (headersDirs raw).tls.size := by
    rw [hframe]
    refine h.tls.congr ?_ ?_ ?_ <;> rfl
  have hnew : img₂.tlsCallbackRvas = [] := by rw [hframe]; rfl
  obtain ⟨img, htls⟩ := exists_peParseTlsDir hnew
    (show peMaxTlsCallbacks < 2 ^ 30 + n + 1 by unfold peMaxTlsCallbacks; omega) htls
  refine ⟨2 ^ 30 + n + 1, img, ?_⟩
  rw [peImageLoad, loadImports, hheaders, ok_bind]
  simp only [himports, ok_bind, hrelocs₂, htls]

end

theorem relocPairFile_inSpace : RelocsInSpace (headersImage relocPairFile) (headersDirs relocPairFile).relocs := by
  have hrun : (headersDirs relocPairFile).relocs.start = 0x160 ∧ (headersDirs relocPairFile).relocs.stop = 0x174 ∧
      headerAt (headersImage relocPairFile) 0x160 = some ⟨0x1000, 12⟩ ∧
      headerAt (headersImage relocPairFile) 0x16C = some ⟨0x1000, 8⟩ := by decide +kernel
  obtain ⟨hstart, hstop, hfirst, hsecond⟩ := hrun
  intro _ bs e h
  rw [hstart, hstop] at h
  cases h with
  | nil => decide
  | cons hlt hblk h =>
    cases hfirst.symm.trans hblk
    cases h with
    | nil => decide
    | cons hlt hblk h =>
      cases hsecond.symm.trans hblk
      cases h with
      | nil => decide
      | cons hlt => exact absurd hlt (Nat.lt_irrefl _)

end Winlift

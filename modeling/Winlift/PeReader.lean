import Winlift.PeImports
import Winlift.PeRelocs

/-!
# Loading a PE file (`pe_reader.c`)

`peImageLoad` is cut where its first reader of an RVA starts: `peReadHeaders` is the part that works
on file offsets (the DOS, NT, COFF and optional headers and the section table), `loadDirs` runs the
three directory parsers on its result.
-/

namespace Winlift
open CSem

/-! ### `read_whole_file` -/

/-- What the file system answers to an attempt to read a file. -/
inductive FileRead where
  | cannotOpen
  | cannotSeek
  | cannotTell
  | shortRead (size : Nat)
  | content (raw : Buffer)

def readWholeFile (alloc : Alloc) (path : String) (read : FileRead) : Res PeError Buffer :=
  match read with
  | .cannotOpen => .err (peErrorSet .errOpen s!"cannot open '{path}'")
  | .cannotSeek => .err (peErrorSet .errOpen s!"cannot seek '{path}'")
  | .cannotTell => .err (peErrorSet .errOpen s!"cannot determine size of '{path}'")
  | .shortRead size => do
    .rejectIf (alloc.file size = false) (peErrorSet .errOpen s!"out of memory reading '{path}'")
    .err (peErrorSet .truncated s!"short read on '{path}'")
  | .content raw => do
    .rejectIf (alloc.file raw.size = false) (peErrorSet .errOpen s!"out of memory reading '{path}'")
    .ok raw

/-! ### `parse_sections` -/

def peSectionSize : Nat := 32

def peSectionOf (sh : PeSectionHeader) : PeSection where
  name := sh.name
  rva := sh.virtualAddress
  vsize := if sh.virtualSize ≠ 0 then sh.virtualSize else sh.sizeOfRawData
  fileOff := sh.pointerToRawData
  fsize := sh.sizeOfRawData
  characteristics := sh.characteristics

def PeSection.text (s : PeSection) : String := cText (s.name.takeWhile (· ≠ 0))

/-- The loop of `parse_sections`: `n` headers are left, the next one is header `i`. -/
def parseSectionsFrom (raw : Buffer) (secPtr : Nat) : Nat → Nat → Res PeError (List PeSection)
  | 0, _ => .ok []
  | n + 1, i => do
    let p ← readable raw (some (secPtr + i * peSectionHeaderSize)) peSectionHeaderSize
    let s := peSectionOf (peSectionHeaderAt raw p)
    .rejectIf (raw.size < s.fileOff.toNat + s.fsize.toNat) <|
      peErrorSet .malformed s!"malformed PE: section '{s.text}' raw data extends past EOF"
    let rest ← parseSectionsFrom raw secPtr n (i + 1)
    .ok (s :: rest)

def parseSections (grant : Nat → Bool) (raw : Buffer) (secPtr : Nat) (nSections : Int) :
    Res PeError (List PeSection) := do
  .rejectIf (nSections < 0) <|
    peErrorSet .tooManySections s!"malformed PE: NumberOfSections={nSections} out of range"
  .rejectIf (0 < nSections ∧ grant (sizeT nSections * peSectionSize) = false) <|
    peErrorSet .malformed "out of memory parsing sections"
  parseSectionsFrom raw secPtr nSections.toNat 0

/-! ### `pe_image_load` -/

structure PeDirs where
  imports : PeDataDirectory
  relocs : PeDataDirectory
  tls : PeDataDirectory
deriving Repr

/-- Directory `k`, if the header says it has that many. -/
def PeOptionalHeader32.dir (opt : PeOptionalHeader32) (k : Nat) : PeDataDirectory :=
  if k < opt.numberOfRvaAndSizes.toNat then opt.dataDirectory k else ⟨0, 0⟩

def checkOptionalHeader (opt : PeOptionalHeader32) : Res PeError Unit := do
  .rejectIf (opt.magic = peOpthdr64Magic) <| peErrorSet .pe32Plus
    "unsupported: 64-bit PE (PE32+) not supported, this tool targets 32-bit PE32 only"
  .rejectIf (opt.magic ≠ peOpthdr32Magic) <| peErrorSet .badOpthdrMagic
    s!"unsupported: unrecognized optional header magic 0x{hexPad 4 opt.magic.toNat}"
  .rejectIf (opt.subsystem ≠ peSubsystemWindowsCui ∧ opt.subsystem ≠ peSubsystemWindowsGui) <|
    peErrorSet .unsupportedSubsystem
      s!"unsupported: subsystem {opt.subsystem} not supported (only Windows console/CUI=3 or GUI=2)"
  .rejectIf (peNumDirectories < opt.numberOfRvaAndSizes.toNat) <|
    peErrorSet .malformed "malformed PE: NumberOfRvaAndSizes out of range"
  .rejectIf (peDirComDescriptor < opt.numberOfRvaAndSizes.toNat ∧
      (opt.dataDirectory peDirComDescriptor).size ≠ 0) <|
    peErrorSet .hasDotnet "unsupported: managed (.NET) executables not supported"
  .rejectIf (peDirDelayImport < opt.numberOfRvaAndSizes.toNat ∧
      (opt.dataDirectory peDirDelayImport).size ≠ 0) <|
    peErrorSet .delayImports "unsupported: delay-loaded imports not supported"

/-- `pe_image_load` up to the section table. -/
def peReadHeaders (grant : Nat → Bool) (raw : Buffer) : Res PeError (PeImage × PeDirs) := do
  .rejectIf (raw.size < peDosHeaderSize) <|
    peErrorSet .truncated "file too small to contain a DOS header"
  let p ← readable raw (some 0) peDosHeaderSize
  let dos := peDosHeaderAt raw p
  .rejectIf (dos.eMagic ≠ peDosMagic) <| peErrorSet .badDosMagic
    s!"bad DOS header magic 0x{hexPad 4 dos.eMagic.toNat} (expected 'MZ')"
  .rejectIf (dos.eLfanew < 0 ∨ (raw.size : Int) < dos.eLfanew + 4) <|
    peErrorSet .malformed "malformed PE: e_lfanew out of range"
  let p ← readableAt raw dos.eLfanew 4
  .rejectIf (raw.le32 p ≠ peNtSignature) <| peErrorSet .badNtSignature
    s!"bad NT signature 0x{hexPad 8 (raw.le32 p).toNat} (expected \"PE\\0\\0\")"
  let coffOff := dos.eLfanew.toNat + 4
  .rejectIf (raw.size < coffOff + peCoffHeaderSize) <|
    peErrorSet .truncated "file truncated: missing COFF header"
  let p ← readable raw (some coffOff) peCoffHeaderSize
  let coff := peCoffHeaderAt raw p
  .rejectIf (coff.machine ≠ peMachineI386) <| peErrorSet .notI386 <|
    s!"unsupported machine type 0x{hexPad 4 coff.machine.toNat} " ++
      "(only IMAGE_FILE_MACHINE_I386 / 0x014c is supported)"
  .rejectIf (coff.characteristics &&& peFileDll ≠ 0) <|
    peErrorSet .isDll "unsupported: DLLs not supported, only EXE"
  .rejectIf (coff.characteristics &&& peFileExecutable = 0) <|
    peErrorSet .notExecutable "unsupported: file is not marked executable"
  let opthdrOff := coffOff + peCoffHeaderSize
  .rejectIf (coff.sizeOfOptionalHeader.toNat < peOptionalHeader32Size ∨
      raw.size < opthdrOff + peOptionalHeader32Size) <|
    peErrorSet .truncated "file truncated or optional header too small"
  let p ← readable raw (some opthdrOff) peOptionalHeader32Size
  let opt := peOptionalHeader32At raw p
  checkOptionalHeader opt
  .rejectIf (opt.imageBase = 0) <|
    peErrorSet .imagebaseConflict "unsupported: ImageBase is 0"
  let secOff := opthdrOff + coff.sizeOfOptionalHeader.toNat
  .rejectIf (raw.size < secOff + coff.numberOfSections.toNat * peSectionHeaderSize) <|
    peErrorSet .truncated "file truncated: section table extends past EOF"
  let sections ← parseSections grant raw secOff coff.numberOfSections.toNat
  .ok ({ imageBase := opt.imageBase
         entryPointRva := opt.addressOfEntryPoint
         sizeOfImage := opt.sizeOfImage
         sizeOfHeaders := opt.sizeOfHeaders
         subsystem := opt.subsystem
         sectionAlignment := opt.sectionAlignment
         fileAlignment := opt.fileAlignment
         sections := sections
         imports := []
         importsCap := 0
         relocs := []
         hasTls := false
         tlsHasCallbacks := false
         tlsCallbackRvas := []
         raw := raw },
       ⟨opt.dir peDirImport, opt.dir peDirBasereloc, opt.dir peDirTls⟩)

/-- No directory has been parsed yet. -/
theorem peReadHeaders_new {grant : Nat → Bool} {raw : Buffer} {img : PeImage} {dirs : PeDirs}
    (h : peReadHeaders grant raw = .ok (img, dirs)) :
    img.imports = [] ∧ img.importsCap = 0 ∧ img.tlsCallbackRvas = [] ∧ img.raw = raw := by
  simp only [peReadHeaders, Res.bind_eq_ok] at h
  obtain ⟨_, -, _, -, _, -, _, -, _, -, _, -, _, -, _, -, _, -, _, -, _, -, _, -, _, -, _, -, _, -, _, -, _, -, h⟩ := h
  cases h
  exact ⟨rfl, rfl, rfl, rfl⟩

/-- The image the relocation parser is called on, and the directories. -/
def loadImports (alloc : Alloc) (fuel : Nat) (raw : Buffer) : Res PeError (PeImage × PeDirs) := do
  let (img, dirs) ← peReadHeaders alloc.sections raw
  let img ← peParseImportsDir alloc fuel img dirs.imports.virtualAddress
  .ok (img, dirs)

/-- `pe_image_load` on the bytes of a file; every loop of the parsers runs for at most `fuel`
iterations. -/
def peImageLoad (alloc : Alloc) (fuel : Nat) (raw : Buffer) : Res PeError PeImage := do
  let (img, dirs) ← loadImports alloc fuel raw
  let img ← peParseRelocsDir alloc.relocs fuel img dirs.relocs.virtualAddress dirs.relocs.size
  peParseTlsDir fuel img dirs.tls.virtualAddress dirs.tls.size

/-- A run that returns an image, part by part. -/
theorem peImageLoad_parts {alloc : Alloc} {fuel : Nat} {raw : Buffer} {img : PeImage}
    (h : peImageLoad alloc fuel raw = .ok img) : ∃ (img₀ img₁ img₂ : PeImage) (dirs : PeDirs),
      peReadHeaders alloc.sections raw = .ok (img₀, dirs) ∧
      peParseImportsDir alloc fuel img₀ dirs.imports.virtualAddress = .ok img₁ ∧
      peParseRelocsDir alloc.relocs fuel img₁ dirs.relocs.virtualAddress dirs.relocs.size = .ok img₂ ∧
      peParseTlsDir fuel img₂ dirs.tls.virtualAddress dirs.tls.size = .ok img := by
  obtain ⟨⟨img₁, dirs⟩, himports, h⟩ := Res.bind_eq_ok.mp h
  obtain ⟨img₂, hrelocs, htls⟩ := Res.bind_eq_ok.mp h
  obtain ⟨⟨img₀, dirs₀⟩, hheaders, himports⟩ := Res.bind_eq_ok.mp himports
  obtain ⟨img₁', himports, heq⟩ := Res.bind_eq_ok.mp himports
  cases heq
  exact ⟨img₀, img₁, img₂, dirs, hheaders, himports, hrelocs, htls⟩

end Winlift

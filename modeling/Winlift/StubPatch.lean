import Winlift.Layout
import Winlift.ShimAbi

/-!
# Binding the imports and embedding the shim (`stub_patch.c`)

The shim blob is an ELF file generated by the build, so it is a parameter: any buffer. A read that
leaves it is a fault.
-/

namespace Winlift
open CSem

def shimMinBase : UInt32 := 0x0F000000

/-! ### Symbols -/

/-- `strcmp(s, name) == 0` for the C string at offset `pos` of the blob. -/
def strcmpAt (blob : Buffer) : Nat → List UInt8 → Res String Bool
  | pos, [] => do
    let p ← readable blob (some pos) 1
    .ok (blob.byte p == 0)
  | pos, c :: cs => do
    let p ← readable blob (some pos) 1
    if blob.byte p = c then strcmpAt blob (pos + 1) cs else .ok false

/-- The symbol loop of `shim_find_symbol`: `n` symbols are left, the next one is symbol `j`. -/
def findInSymtab (blob : Buffer) (name : List UInt8) (syms strs : Nat) :
    Nat → Nat → Res String (Option UInt32)
  | 0, _ => .ok none
  | n + 1, j => do
    let p ← readable blob (some (syms + j * elf32SymSize)) elf32SymSize
    let sym := elf32SymAt blob p
    if ← strcmpAt blob (strs + sym.stName.toNat) name then .ok (some sym.stValue)
    else findInSymtab blob name syms strs n (j + 1)

def findInSections (blob : Buffer) (name : List UInt8) (shdrs : Nat) :
    Nat → Nat → Res String (Option UInt32)
  | 0, _ => .ok none
  | n + 1, i => do
    let p ← readable blob (some (shdrs + i * elf32ShdrSize)) elf32ShdrSize
    let sh := elf32ShdrAt blob p
    if sh.shType ≠ shtSymtab then findInSections blob name shdrs n (i + 1)
    else do
      let q ← readable blob (some (shdrs + sh.shLink.toNat * elf32ShdrSize)) elf32ShdrSize
      let strtab := elf32ShdrAt blob q
      match ← findInSymtab blob name sh.shOffset.toNat strtab.shOffset.toNat
          (sh.shSize.toNat / elf32SymSize) 0 with
      | some value => .ok (some value)
      | none => findInSections blob name shdrs n (i + 1)

def shimEhdr (blob : Buffer) : Res String Elf32Ehdr := do
  let p ← readable blob (some 0) elf32EhdrSize
  .ok (elf32EhdrAt blob p)

def shimFindSymbol (blob : Buffer) (name : List UInt8) : Res String (Option UInt32) := do
  let eh ← shimEhdr blob
  findInSections blob name eh.eShoff.toNat eh.eShnum.toNat 0

/-! ### Patching -/

/-- The segment loop of `shim_poke32`: `n` program headers are left, the next one is header `i`. -/
def pokeFrom (blob shim : Buffer) (vaddr value : UInt32) (phdrs : Nat) :
    Nat → Nat → Res String Buffer
  | 0, _ => .err <| snprintf 256
      s!"internal error: shim vaddr 0x{hexPad 8 vaddr.toNat} not in any shim segment"
  | n + 1, i => do
    let p ← readable blob (some (phdrs + i * elf32PhdrSize)) elf32PhdrSize
    let ph := elf32PhdrAt blob p
    if ph.pType = ptLoad ∧ ph.pVaddr ≤ vaddr ∧ vaddr + 4 ≤ ph.pVaddr + ph.pFilesz then
      store32 shim (ph.pOffset + (vaddr - ph.pVaddr)).toNat value
    else pokeFrom blob shim vaddr value phdrs n (i + 1)

/-- `shim_poke32`: the copy `shim` of the blob with `value` stored at the blob's address `vaddr`. -/
def shimPoke32 (blob shim : Buffer) (vaddr value : UInt32) : Res String Buffer := do
  let eh ← shimEhdr blob
  pokeFrom blob shim vaddr value eh.ePhoff.toNat eh.ePhnum.toNat 0

/-- The address bound to an import: its entry in the table, and that entry's symbol in the blob. -/
def resolveImport (blob : Buffer) (dllName funcName : List UInt8) : Res String UInt32 := do
  let e ← .orReject (shimLookupImport dllName funcName) <| snprintf 256 <|
    s!"unsupported: import '{cText dllName}!{cText funcName}' is not implemented by " ++
      "winlift's compatibility shim"
  let addr ← shimFindSymbol blob e.shimSymbol
  .orReject addr <| snprintf 256 <|
    s!"internal error: shim symbol '{cText e.shimSymbol}' for " ++
      s!"'{cText dllName}!{cText funcName}' missing from shim blob"

/-- The inner import loop of `stub_patch_apply`, over the functions of one DLL. -/
def patchFuncs (blob : Buffer) (dllName : List UInt8) :
    List PeImportFunc → PeImage → Res String PeImage
  | [], img => .ok img
  | fn :: rest, img => do
    let addr ← resolveImport blob dllName fn.name
    let slot ← .orReject (peRvaToPtr img fn.iatRva 4) <| snprintf 256
      s!"internal error: IAT slot RVA 0x{hexPad 8 fn.iatRva.toNat} out of range"
    let raw ← store32 img.raw slot addr
    patchFuncs blob dllName rest { img with raw := raw }

def patchImports (blob : Buffer) : List PeImportDll → PeImage → Res String PeImage
  | [], img => .ok img
  | dll :: rest, img => do
    let img ← patchFuncs blob dll.dllName dll.funcs img
    patchImports blob rest img

/-! ### Embedding the shim -/

def shimSegment (ph : Elf32Phdr) (nextFileOff : UInt32) : Segment where
  vaddr := ph.pVaddr
  flags := ph.pFlags
  fileOffset := nextFileOff
  data := if 0 < ph.pFilesz then some ⟨.shim, ph.pOffset.toNat⟩ else none
  filesz := ph.pFilesz
  memsz := ph.pMemsz

/-- The loop that appends the blob's `PT_LOAD` segments to `segs`: `n` program headers are left, the
next one is header `i`. -/
def appendShim (blob : Buffer) (phdrs : Nat) :
    Nat → Nat → UInt32 → List Segment → Res String (List Segment)
  | 0, _, _, segs => .ok segs
  | n + 1, i, nextFileOff, segs => do
    let p ← readable blob (some (phdrs + i * elf32PhdrSize)) elf32PhdrSize
    let ph := elf32PhdrAt blob p
    if ph.pType ≠ ptLoad then appendShim blob phdrs n (i + 1) nextFileOff segs
    else do
      .rejectIf (elfMaxSegments ≤ segs.length)
        "internal error: too many segments while embedding shim"
      let seg := shimSegment ph nextFileOff
      appendShim blob phdrs n (i + 1) (alignUp (nextFileOff + seg.filesz) pageSize) (segs ++ [seg])

def nextFileOffset (segs : List Segment) : UInt32 :=
  match segs.getLast? with
  | some last => alignUp (last.fileOffset + last.filesz) pageSize
  | none => pageSize

/-- What `stub_patch_apply` leaves behind: the image with its raw bytes patched, the private copy of
the blob, and the completed spec. -/
structure StubPatched where
  img : PeImage
  shim : Buffer
  spec : Spec

def StubPatched.mem (r : StubPatched) : Mem Block
  | .raw => r.img.raw
  | .shim => r.shim

def stubPatchApply (grant : Nat → Bool) (blob : Buffer) (img : PeImage) (spec : Spec) :
    Res String StubPatched := do
  .rejectIf (shimMinBase < img.imageBase + img.sizeOfImage) <| snprintf 256 <|
    s!"unsupported: image (base 0x{hexPad 8 img.imageBase.toNat}, " ++
      s!"size 0x{hexPad 8 img.sizeOfImage.toNat}) reaches into the shim's reserved " ++
      s!"address range starting at 0x{hexPad 8 shimMinBase.toNat}"
  -- 1. resolve and patch every import's IAT slot
  let img ← patchImports blob img.imports img
  -- 2. the private copy of the blob, told where the program starts
  .rejectIf (grant blob.size = false) "out of memory copying shim blob"
  let target ← shimFindSymbol blob (cBytes "shim_pe_entry_target")
  let target ← .orReject target "internal error: shim blob missing required symbols"
  let start ← shimFindSymbol blob (cBytes "_start")
  let start ← .orReject start "internal error: shim blob missing required symbols"
  let shim ← shimPoke32 blob blob target (img.imageBase + img.entryPointRva)
  -- 3. the blob's own segments
  let eh ← shimEhdr blob
  let segs ← appendShim blob eh.ePhoff.toNat eh.ePhnum.toNat 0 (nextFileOffset spec.segments)
    spec.segments
  -- 4. the ELF file starts at the shim's `_start`
  .ok ⟨img, shim, ⟨start, segs⟩⟩

/-! ### A shim in miniature

A blob of the shape the build gives the real one: one `PT_LOAD` segment from `SHIM_MIN_BASE` on, a
symbol table and a string table. -/

def wordBytes (ws : List UInt32) : List UInt8 := ws.flatMap le32Bytes

def miniShimHeader : Elf32Ehdr where
  eIdent := elfMagic ++ [1, 1, 1, 0, 0, 0, 0, 0, 0, 0, 0, 0]
  eType := etExec
  eMachine := em386
  eVersion := evCurrent
  eEntry := 0x0F000000
  ePhoff := 52
  eShoff := 225
  eFlags := 0
  eEhsize := 52
  ePhentsize := 32
  ePhnum := 1
  eShentsize := 40
  eShnum := 3
  eShstrndx := 2

def miniShimLoad : Elf32Phdr where
  pType := ptLoad
  pOffset := 84
  pVaddr := 0x0F000000
  pPaddr := 0x0F000000
  pFilesz := 24
  pMemsz := 32
  pFlags := pfR ||| pfW ||| pfX
  pAlign := 0x1000

def miniShim : Buffer := .ofList <|
  miniShimHeader.bytes ++ miniShimLoad.bytes ++
  -- code, with `shim_pe_entry_target` at 0x0F000004
  wordBytes [0x0425FFFF, 0, 0xC3, 0xC3, 0xC3, 0xC3] ++
  -- symbols
  wordBytes [0, 0, 0, 0] ++ wordBytes [1, 0x0F000000, 0, 0] ++ wordBytes [8, 0x0F000004, 0, 0] ++
  wordBytes [29, 0x0F000010, 0, 0] ++
  -- their names
  0 :: cBytes "_start" ++ 0 :: cBytes "shim_pe_entry_target" ++
  0 :: cBytes "shim_InitCommonControls" ++ 0 ::
  -- section headers
  wordBytes [0, 0, 0, 0, 0, 0, 0, 0, 0, 0] ++ wordBytes [0, shtSymtab, 0, 0, 108, 64, 2, 0, 0, 16] ++
  wordBytes [0, 3, 0, 0, 172, 53, 0, 0, 0, 0]

end Winlift

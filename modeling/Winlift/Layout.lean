import Winlift.PeImage
import Winlift.ElfWriter

/-!
# PE sections to ELF segments (`layout.c`)

Every segment keeps the PE's own addresses. Its data pointer goes into the raw file (`Block.raw`), so
what is patched there later shows in the segment; the shim's segments get a block of their own.
-/

namespace Winlift
open CSem

/-- The blocks segment data points into: the raw PE file and the private copy of the shim blob. -/
inductive Block where
  | raw
  | shim
deriving DecidableEq, Repr

abbrev Segment := ElfSegment Block
abbrev Spec := ElfImageSpec Block

def pageSize : UInt32 := 0x1000

def alignUp (n a : UInt32) : UInt32 := (n + a - 1) / a * a

def peSectionFlagsToElf (characteristics : UInt32) : UInt32 :=
  let flags : UInt32 := 0
  let flags := if characteristics &&& peScnMemRead ≠ 0 then flags ||| pfR else flags
  let flags := if characteristics &&& peScnMemWrite ≠ 0 then flags ||| pfW else flags
  let flags := if characteristics &&& peScnMemExecute ≠ 0 then flags ||| pfX else flags
  if flags = 0 then pfR else flags

/-- The segment for the PE headers, RVA 0 up to `SizeOfHeaders`. -/
def headerSegment (img : PeImage) (curFileOff : UInt32) : Segment where
  vaddr := img.imageBase
  flags := pfR
  fileOffset := curFileOff
  data := if 0 < img.sizeOfHeaders then some ⟨.raw, 0⟩ else none
  filesz := img.sizeOfHeaders
  memsz := img.sizeOfHeaders

def sectionSegment (img : PeImage) (s : PeSection) (curFileOff : UInt32) : Segment where
  vaddr := img.imageBase + s.rva
  flags := peSectionFlagsToElf s.characteristics
  fileOffset := curFileOff
  data := if 0 < s.fsize then some ⟨.raw, s.fileOff.toNat⟩ else none
  filesz := s.fsize
  -- the tail past `fsize` is zero-filled (e.g. .bss)
  memsz := if s.fsize < s.vsize then s.vsize else s.fsize

/-- The section loop of `pe_layout_to_elf_spec`. -/
def layoutSections (img : PeImage) : List PeSection → UInt32 → Res String (List Segment)
  | [], _ => .ok []
  | s :: rest, curFileOff => do
    .rejectIf (s.rva % pageSize ≠ 0) <| snprintf 256
      s!"unsupported: section '{cText (s.name.takeWhile (· ≠ 0))}' RVA 0x{hexPad 8 s.rva.toNat} is not page-aligned"
    let seg := sectionSegment img s curFileOff
    let segs ← layoutSections img rest (alignUp (curFileOff + seg.filesz) pageSize)
    .ok (seg :: segs)

def peLayoutToElfSpec (img : PeImage) : Res String Spec := do
  .rejectIf (img.sections.length = 0 ∨ elfMaxSegments < img.sections.length + 1) <|
    snprintf 256 s!"unsupported: {img.sections.length} sections (0 or too many)"
  .rejectIf (img.imageBase % pageSize ≠ 0) <|
    snprintf 256 s!"unsupported: ImageBase 0x{hexPad 8 img.imageBase.toNat} is not page-aligned"
  let hdr := headerSegment img pageSize
  let segs ← layoutSections img img.sections (alignUp (pageSize + hdr.filesz) pageSize)
  .ok ⟨img.imageBase + img.entryPointRva, hdr :: segs⟩

end Winlift

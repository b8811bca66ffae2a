import Winlift.ElfFormat

/-!
# The ELF32 writer (`elf_writer.c`)

It knows nothing of PE: the segments' data are pointers into a memory of blocks named by any type `β`.
The stream is the list of bytes written to it so far; `Stdio` says how every call to the C library
turns out.
-/

namespace Winlift
open CSem

def elfMaxSegments : Nat := 64

structure ElfSegment (β : Type) where
  vaddr : UInt32
  flags : UInt32
  fileOffset : UInt32
  /-- `filesz` bytes to place at `fileOffset`. -/
  data : Option (Ptr β)
  filesz : UInt32
  memsz : UInt32
deriving Repr

structure ElfImageSpec (β : Type) where
  entry : UInt32
  segments : List (ElfSegment β)
deriving Repr

/-- How the calls to the C library turn out: whether the output file can be opened, how many of the
`n` bytes asked for the `k`-th `fwrite` takes, and whether the stream closes without error. -/
structure Stdio where
  fopen : Bool
  fwrite : Nat → Nat → Nat
  fclose : Bool

structure Stdio.WritesOk (io : Stdio) : Prop where
  fopen : io.fopen = true
  fwrite : ∀ k n, n ≤ io.fwrite k n

def Stdio.working : Stdio := ⟨true, fun _ n => n, true⟩

theorem Stdio.working_ok : working.WritesOk := ⟨rfl, fun _ n => Nat.le_refl n⟩

structure OutStream where
  calls : Nat
  bytes : List UInt8

variable {β : Type}

/-- `if (fwrite(data, …, f) != …) goto write_fail;`. -/
def fwrite (io : Stdio) (out : OutStream) (data : List UInt8) : Res String OutStream :=
  if data.length ≤ io.fwrite out.calls data.length then .ok ⟨out.calls + 1, out.bytes ++ data⟩
  else .err "short write to output file"

def elfEhdr (entry : UInt32) (n : Nat) : Elf32Ehdr where
  eIdent := elfMagic ++ [1, 1, 1, 0, 0, 0, 0, 0, 0, 0, 0, 0]
  eType := etExec
  eMachine := em386
  eVersion := evCurrent
  eEntry := entry
  ePhoff := 52
  eShoff := 0
  eFlags := 0
  eEhsize := 52
  ePhentsize := 32
  ePhnum := UInt16.ofNat n
  eShentsize := 0
  eShnum := 0
  eShstrndx := 0

def ElfSegment.phdr (s : ElfSegment β) : Elf32Phdr where
  pType := ptLoad
  pOffset := s.fileOffset
  pVaddr := s.vaddr
  pPaddr := s.vaddr
  pFilesz := s.filesz
  pMemsz := s.memsz
  pFlags := s.flags
  pAlign := 0x1000

def writePhdrs (io : Stdio) : List (ElfSegment β) → OutStream → Res String OutStream
  | [], out => .ok out
  | s :: rest, out => do
    let out ← fwrite io out s.phdr.bytes
    writePhdrs io rest out

/-- The padding loop, in chunks of at most a page, for at most `n` of them. -/
def writePad (io : Stdio) : Nat → UInt32 → OutStream → Res String OutStream
  | 0, pad, out => if pad = 0 then .ok out else .timeout
  | n + 1, pad, out =>
    if pad = 0 then .ok out
    else do
      let chunk := if 0x1000 < pad then 0x1000 else pad
      let out ← fwrite io out (List.replicate chunk.toNat 0)
      writePad io n (pad - chunk) out

/-- The loop that writes the segments' data; `cur` is the file offset the source thinks it is at. -/
def writeSegments (io : Stdio) (mem : Mem β) :
    List (ElfSegment β) → UInt32 → OutStream → Res String OutStream
  | [], _, out => .ok out
  | s :: rest, cur, out =>
    if s.filesz = 0 then writeSegments io mem rest cur out
    else do
      .rejectIf (s.fileOffset < cur) "internal error: overlapping segment file ranges"
      let pad := s.fileOffset - cur
      let out ← writePad io pad.toNat pad out
      match s.data with
      | none => .err "internal error: segment has filesz but no data"
      | some p =>
        if p.Holds mem s.filesz.toNat then do
          let out ← fwrite io out (p.bytes mem s.filesz.toNat)
          writeSegments io mem rest (s.fileOffset + s.filesz) out
        else .fault .outsideRead

structure ElfWriteRun where
  /-- The output file was opened, and so truncated. -/
  opened : Bool
  /-- On success, the bytes handed to the stream. -/
  result : Res String (List UInt8)

def phdrsEnd (n : Nat) : UInt32 := 52 + UInt32.ofNat n * 32

/-- The part of `elf_write` after a successful `fopen`. `fclose` is called on every path, and its
result is dropped. -/
def elfWriteOpened (io : Stdio) (mem : Mem β) (spec : ElfImageSpec β) : Res String (List UInt8) := do
  let out ← fwrite io ⟨0, []⟩ (elfEhdr spec.entry spec.segments.length).bytes
  let out ← writePhdrs io spec.segments out
  let out ← writeSegments io mem spec.segments (phdrsEnd spec.segments.length) out
  .ok out.bytes

def elfWrite (io : Stdio) (mem : Mem β) (spec : ElfImageSpec β) : ElfWriteRun :=
  let n := spec.segments.length
  if n = 0 ∨ elfMaxSegments < n then ⟨false, .err "internal error: bad segment count"⟩
  else if ∃ s ∈ spec.segments, s.filesz ≠ 0 ∧ s.fileOffset < phdrsEnd n then
    ⟨false, .err "internal error: segment file range overlaps ELF headers"⟩
  else if io.fopen = false then ⟨false, .err "cannot open output file for writing"⟩
  else ⟨true, elfWriteOpened io mem spec⟩

end Winlift

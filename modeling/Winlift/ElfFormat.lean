import Winlift.CSem.Memory

/-!
# ELF32 on-disk structures (`elf32_format.h`)

Each packed structure the tool writes has its bytes, each one it reads has its reader at an offset.
-/

namespace Winlift
open CSem

def etExec : UInt16 := 2
def em386 : UInt16 := 3
def evCurrent : UInt32 := 1
def ptLoad : UInt32 := 1
def shtSymtab : UInt32 := 2
def pfX : UInt32 := 1
def pfW : UInt32 := 2
def pfR : UInt32 := 4

structure Elf32Ehdr where
  eIdent : List UInt8
  eType : UInt16
  eMachine : UInt16
  eVersion : UInt32
  eEntry : UInt32
  ePhoff : UInt32
  eShoff : UInt32
  eFlags : UInt32
  eEhsize : UInt16
  ePhentsize : UInt16
  ePhnum : UInt16
  eShentsize : UInt16
  eShnum : UInt16
  eShstrndx : UInt16
deriving DecidableEq, Repr

def elf32EhdrSize : Nat := 52

def Elf32Ehdr.bytes (eh : Elf32Ehdr) : List UInt8 :=
  eh.eIdent ++ le16Bytes eh.eType ++ le16Bytes eh.eMachine ++ le32Bytes eh.eVersion ++
    le32Bytes eh.eEntry ++ le32Bytes eh.ePhoff ++ le32Bytes eh.eShoff ++ le32Bytes eh.eFlags ++
    le16Bytes eh.eEhsize ++ le16Bytes eh.ePhentsize ++ le16Bytes eh.ePhnum ++
    le16Bytes eh.eShentsize ++ le16Bytes eh.eShnum ++ le16Bytes eh.eShstrndx

def elf32EhdrAt (b : Buffer) (i : Nat) : Elf32Ehdr where
  eIdent := b.slice i 16
  eType := b.le16 (i + 16)
  eMachine := b.le16 (i + 18)
  eVersion := b.le32 (i + 20)
  eEntry := b.le32 (i + 24)
  ePhoff := b.le32 (i + 28)
  eShoff := b.le32 (i + 32)
  eFlags := b.le32 (i + 36)
  eEhsize := b.le16 (i + 40)
  ePhentsize := b.le16 (i + 42)
  ePhnum := b.le16 (i + 44)
  eShentsize := b.le16 (i + 46)
  eShnum := b.le16 (i + 48)
  eShstrndx := b.le16 (i + 50)

structure Elf32Phdr where
  pType : UInt32
  pOffset : UInt32
  pVaddr : UInt32
  pPaddr : UInt32
  pFilesz : UInt32
  pMemsz : UInt32
  pFlags : UInt32
  pAlign : UInt32
deriving DecidableEq, Repr

def elf32PhdrSize : Nat := 32

def Elf32Phdr.bytes (ph : Elf32Phdr) : List UInt8 :=
  le32Bytes ph.pType ++ le32Bytes ph.pOffset ++ le32Bytes ph.pVaddr ++ le32Bytes ph.pPaddr ++
    le32Bytes ph.pFilesz ++ le32Bytes ph.pMemsz ++ le32Bytes ph.pFlags ++ le32Bytes ph.pAlign

def elf32PhdrAt (b : Buffer) (i : Nat) : Elf32Phdr where
  pType := b.le32 i
  pOffset := b.le32 (i + 4)
  pVaddr := b.le32 (i + 8)
  pPaddr := b.le32 (i + 12)
  pFilesz := b.le32 (i + 16)
  pMemsz := b.le32 (i + 20)
  pFlags := b.le32 (i + 24)
  pAlign := b.le32 (i + 28)

structure Elf32Shdr where
  shType : UInt32
  shOffset : UInt32
  shSize : UInt32
  shLink : UInt32
deriving Repr

def elf32ShdrSize : Nat := 40

def elf32ShdrAt (b : Buffer) (i : Nat) : Elf32Shdr where
  shType := b.le32 (i + 4)
  shOffset := b.le32 (i + 16)
  shSize := b.le32 (i + 20)
  shLink := b.le32 (i + 24)

structure Elf32Sym where
  stName : UInt32
  stValue : UInt32
deriving Repr

def elf32SymSize : Nat := 16

def elf32SymAt (b : Buffer) (i : Nat) : Elf32Sym where
  stName := b.le32 i
  stValue := b.le32 (i + 4)

@[simp] theorem Elf32Phdr.length_bytes (ph : Elf32Phdr) : ph.bytes.length = elf32PhdrSize := rfl

theorem Elf32Ehdr.length_bytes (eh : Elf32Ehdr) (h : eh.eIdent.length = 16) :
    eh.bytes.length = elf32EhdrSize := by
  simp [Elf32Ehdr.bytes, elf32EhdrSize, h]

theorem elf32EhdrAt_of_has {b : Buffer} {i : Nat} {eh : Elf32Ehdr} (hlen : eh.eIdent.length = 16)
    (h : b.Has i eh.bytes) : elf32EhdrAt b i = eh := by
  simp only [Elf32Ehdr.bytes, Buffer.has_append, List.length_append, hlen, length_le16Bytes,
    length_le32Bytes, Nat.reduceAdd] at h
  obtain ⟨⟨⟨⟨⟨⟨⟨⟨⟨⟨⟨⟨⟨hident, h16⟩, h18⟩, h20⟩, h24⟩, h28⟩, h32⟩, h36⟩, h40⟩, h42⟩, h44⟩, h46⟩, h48⟩,
    h50⟩ := h
  have hslice := hident.slice
  rw [hlen] at hslice
  simp only [elf32EhdrAt, hslice, h16.le16, h18.le16, h20.le32, h24.le32, h28.le32, h32.le32, h36.le32,
    h40.le16, h42.le16, h44.le16, h46.le16, h48.le16, h50.le16]

theorem elf32PhdrAt_of_has {b : Buffer} {i : Nat} {ph : Elf32Phdr} (h : b.Has i ph.bytes) :
    elf32PhdrAt b i = ph := by
  simp only [Elf32Phdr.bytes, Buffer.has_append, List.length_append, length_le32Bytes,
    Nat.reduceAdd] at h
  obtain ⟨⟨⟨⟨⟨⟨⟨h0, h4⟩, h8⟩, h12⟩, h16⟩, h20⟩, h24⟩, h28⟩ := h
  simp only [elf32PhdrAt, h0.le32, h4.le32, h8.le32, h12.le32, h16.le32, h20.le32, h24.le32, h28.le32]

/-! ### Reading a whole file -/

def elf32Phdrs (b : Buffer) : List Elf32Phdr :=
  (List.range (elf32EhdrAt b 0).ePhnum.toNat).map fun k =>
    elf32PhdrAt b ((elf32EhdrAt b 0).ePhoff.toNat + k * elf32PhdrSize)

def elfMagic : List UInt8 := [0x7F, 0x45, 0x4C, 0x46]

/-- A little-endian ELF32 executable for the i386, with program headers of 32 bytes. -/
def Elf32Ehdr.Valid (eh : Elf32Ehdr) : Prop :=
  eh.eIdent.take 7 = elfMagic ++ [1, 1, 1] ∧ eh.eType = etExec ∧ eh.eMachine = em386 ∧
    eh.eVersion = evCurrent ∧ eh.ePhentsize.toNat = elf32PhdrSize

instance (eh : Elf32Ehdr) : Decidable eh.Valid := inferInstanceAs (Decidable (_ ∧ _))

/-- An ELF32 executable decoded: its entry point and its program headers, if all of them lie in the
file. -/
def elf32Decode (b : Buffer) : Option (UInt32 × List Elf32Phdr) :=
  let eh := elf32EhdrAt b 0
  if elf32EhdrSize ≤ b.size ∧ eh.Valid ∧
      eh.ePhoff.toNat + eh.ePhnum.toNat * elf32PhdrSize ≤ b.size then
    some (eh.eEntry, elf32Phdrs b)
  else none

end Winlift

import Winlift.CSem.Memory

/-!
# On-disk PE/COFF structures (`pe_format.h`)

The packed structures are read at an offset of a buffer, field by field at the offsets the packing
gives them; only the fields the tool reads are kept.
-/

namespace Winlift
open CSem

def peDosMagic : UInt16 := 0x5A4D
def peNtSignature : UInt32 := 0x00004550
def peMachineI386 : UInt16 := 0x014C
def peOpthdr32Magic : UInt16 := 0x010B
def peOpthdr64Magic : UInt16 := 0x020B
def peFileDll : UInt16 := 0x2000
def peFileExecutable : UInt16 := 0x0002
def peSubsystemWindowsGui : UInt16 := 2
def peSubsystemWindowsCui : UInt16 := 3
def peScnMemExecute : UInt32 := 0x20000000
def peScnMemRead : UInt32 := 0x40000000
def peScnMemWrite : UInt32 := 0x80000000
def peDirImport : Nat := 1
def peDirBasereloc : Nat := 5
def peDirTls : Nat := 9
def peDirDelayImport : Nat := 13
def peDirComDescriptor : Nat := 14
def peNumDirectories : Nat := 16
def peOrdinalFlag32 : UInt32 := 0x80000000
def peRelBasedAbsolute : UInt16 := 0
def peRelBasedHighlow : UInt16 := 3
def peMaxTlsCallbacks : Nat := 16

structure PeDosHeader where
  eMagic : UInt16
  /-- `int32_t` in the file: negative from `2^31` on. -/
  eLfanew : Int
deriving Repr

def peDosHeaderSize : Nat := 64

def peDosHeaderAt (b : Buffer) (i : Nat) : PeDosHeader where
  eMagic := b.le16 i
  eLfanew := int32 (b.le32 (i + 60)).toNat

structure PeCoffHeader where
  machine : UInt16
  numberOfSections : UInt16
  sizeOfOptionalHeader : UInt16
  characteristics : UInt16
deriving Repr

def peCoffHeaderSize : Nat := 20

def peCoffHeaderAt (b : Buffer) (i : Nat) : PeCoffHeader where
  machine := b.le16 i
  numberOfSections := b.le16 (i + 2)
  sizeOfOptionalHeader := b.le16 (i + 16)
  characteristics := b.le16 (i + 18)

structure PeDataDirectory where
  virtualAddress : UInt32
  size : UInt32
deriving Repr

structure PeOptionalHeader32 where
  magic : UInt16
  addressOfEntryPoint : UInt32
  imageBase : UInt32
  sectionAlignment : UInt32
  fileAlignment : UInt32
  sizeOfImage : UInt32
  sizeOfHeaders : UInt32
  subsystem : UInt16
  numberOfRvaAndSizes : UInt32
  dataDirectory : Nat → PeDataDirectory

def peOptionalHeader32Size : Nat := 224

def peOptionalHeader32At (b : Buffer) (i : Nat) : PeOptionalHeader32 where
  magic := b.le16 i
  addressOfEntryPoint := b.le32 (i + 16)
  imageBase := b.le32 (i + 28)
  sectionAlignment := b.le32 (i + 32)
  fileAlignment := b.le32 (i + 36)
  sizeOfImage := b.le32 (i + 56)
  sizeOfHeaders := b.le32 (i + 60)
  subsystem := b.le16 (i + 68)
  numberOfRvaAndSizes := b.le32 (i + 92)
  dataDirectory k := ⟨b.le32 (i + 96 + 8 * k), b.le32 (i + 96 + 8 * k + 4)⟩

structure PeSectionHeader where
  name : List UInt8
  virtualSize : UInt32
  virtualAddress : UInt32
  sizeOfRawData : UInt32
  pointerToRawData : UInt32
  characteristics : UInt32
deriving Repr

def peSectionHeaderSize : Nat := 40

def peSectionHeaderAt (b : Buffer) (i : Nat) : PeSectionHeader where
  name := b.slice i 8
  virtualSize := b.le32 (i + 8)
  virtualAddress := b.le32 (i + 12)
  sizeOfRawData := b.le32 (i + 16)
  pointerToRawData := b.le32 (i + 20)
  characteristics := b.le32 (i + 36)

structure PeImportDescriptor where
  /-- RVA of the lookup table, 0 to use `firstThunk` directly. -/
  originalFirstThunk : UInt32
  timeDateStamp : UInt32
  forwarderChain : UInt32
  name : UInt32
  firstThunk : UInt32
deriving DecidableEq, Repr

def peImportDescriptorSize : Nat := 20

def peImportDescriptorAt (b : Buffer) (i : Nat) : PeImportDescriptor where
  originalFirstThunk := b.le32 i
  timeDateStamp := b.le32 (i + 4)
  forwarderChain := b.le32 (i + 8)
  name := b.le32 (i + 12)
  firstThunk := b.le32 (i + 16)

def peImportByNameSize : Nat := 2

structure PeBaseRelocationBlock where
  virtualAddress : UInt32
  sizeOfBlock : UInt32
deriving DecidableEq, Repr

def peBaseRelocationBlockSize : Nat := 8

def peBaseRelocationBlockAt (b : Buffer) (i : Nat) : PeBaseRelocationBlock where
  virtualAddress := b.le32 i
  sizeOfBlock := b.le32 (i + 4)

def peTlsDirectory32Size : Nat := 24

/-- The `AddressOfCallBacks` field of a TLS directory. -/
def peTlsAddressOfCallBacksAt (b : Buffer) (i : Nat) : UInt32 := b.le32 (i + 12)

end Winlift

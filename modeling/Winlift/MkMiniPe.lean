import Winlift.PeFormat
import Winlift.Diagnostics

/-!
# The fixture builder (`tools/mkminipe.py`)

Hand-emits a PE32 file with one section. Python's integers are unbounded, and `struct.pack` raises an
error on one that does not fit its slot: then there is no file (`none`).
-/

namespace Winlift.MkMiniPe
open CSem

def imageBase : Nat := 0x00400000
def fileAlign : Nat := 0x200
def sectAlign : Nat := 0x1000

/-- `struct.pack('<I', n)`. -/
def packI (n : Nat) : Option (List UInt8) :=
  if n < 2 ^ 32 then some (le32Bytes (UInt32.ofNat n)) else none

def packH (n : Nat) : Option (List UInt8) :=
  if n < 2 ^ 16 then some (le16Bytes (UInt16.ofNat n)) else none

def packIs (ns : List Nat) : Option (List UInt8) := (ns.mapM packI).map List.flatten

def packHs (ns : List Nat) : Option (List UInt8) := (ns.mapM packH).map List.flatten

/-- `mov eax, 1; mov ebx, <exit_code>; int 0x80`. -/
def exitCodeBytes (exitCode : Nat) : Option (List UInt8) := do
  let imm ← packI exitCode
  some ([0xB8, 0x01, 0x00, 0x00, 0x00] ++ [0xBB] ++ imm ++ [0xCD, 0x80])

def zeros (n : Nat) : List UInt8 := List.replicate n 0

/-- `_pe_header`: the headers of the single-section image, padded to `FILE_ALIGN`. -/
def peHeader (textVsize textFsize entryRva subsystem importDirRva importDirSize : Nat) :
    Option (List UInt8) := do
  let lfanew ← packI 64
  let dosHeader := cBytes "MZ" ++ zeros 58 ++ lfanew
  let sizeOfOptHdr := 224
  let coff := (← packHs [0x014C, 1]) ++ (← packIs [0, 0, 0]) ++
    (← packHs [sizeOfOptHdr, 0x0002 ||| 0x0100])
  let headersSizeRaw := 64 + 4 + coff.length + sizeOfOptHdr + 40 * 1
  let sizeOfHeaders := roundUp headersSizeRaw fileAlign
  let textRva := sectAlign
  let textFileOff := sizeOfHeaders
  let sizeOfImage := roundUp (textRva + textVsize) sectAlign
  let opt := (← packHs [0x010B]) ++ [1, 0] ++
    (← packIs [textFsize, 0, 0, entryRva, textRva, 0, imageBase, sectAlign, fileAlign]) ++
    (← packHs [0, 0, 0, 0, 4, 0]) ++ (← packIs [0, sizeOfImage, sizeOfHeaders, 0]) ++
    (← packHs [subsystem, 0]) ++
    (← packIs [0x100000, 0x1000, 0x100000, 0x1000, 0, 16])
  let dataDirs ← packIs ([0, 0] ++ [importDirRva, importDirSize] ++ List.replicate 28 0)
  let sectCharacteristics := 0x00000020 ||| 0x20000000 ||| 0x40000000
  let sect := cBytes ".text" ++ zeros 3 ++
    (← packIs [textVsize, textRva, textFsize, textFileOff, 0, 0]) ++ (← packHs [0, 0]) ++
    (← packIs [sectCharacteristics])
  let headerBlob := dosHeader ++ cBytes "PE" ++ zeros 2 ++ coff ++ opt ++ dataDirs ++ sect
  some (headerBlob ++ zeros (sizeOfHeaders - headerBlob.length))

/-- `build`: no imports, the entry point is an exit system call. -/
def build (exitCode : Nat) (subsystem : Nat) : Option (List UInt8) := do
  let code ← exitCodeBytes exitCode
  let textFsize := roundUp code.length fileAlign
  let headerBlob ← peHeader code.length textFsize sectAlign subsystem 0 0
  some (headerBlob ++ code ++ zeros (textFsize - code.length))

def minimalNoimport : Buffer := .ofList ((build 42 3).getD [])

/-- A DLL to import from: its ASCII name and the ordinals. -/
structure Dll where
  name : List UInt8
  ordinals : List Nat
deriving DecidableEq, Repr

/-- The offsets at which parts of the given sizes start when the first one starts at `pos`. -/
def offsetsFrom (pos : Nat) : List Nat → List Nat
  | [] => []
  | n :: ns => pos :: offsetsFrom (pos + n) ns

/-- `build_with_imports`: code, descriptor table, names and thunk tables, packed back to back. -/
def buildWithImports (exitCode : Nat) (dlls : List Dll) (callFirstOrdinal : Bool)
    (subsystem : Nat) : Option (List UInt8) := do
  let tail ← exitCodeBytes exitCode
  let codeLen := (if callFirstOrdinal then 6 else 0) + tail.length
  let descTableOff := codeLen
  let descTableSize := (dlls.length + 1) * 20
  let nameSizes := dlls.map fun d => d.name.length + 1
  let namesOff := descTableOff + descTableSize
  let nameOffsets := offsetsFrom namesOff nameSizes
  let thunkSizes := dlls.map fun d => (d.ordinals.length + 1) * 4
  let thunksOff := namesOff + nameSizes.sum
  let thunkOffsets := offsetsFrom thunksOff thunkSizes
  let dataEnd := thunksOff + thunkSizes.sum
  let textRva := sectAlign
  let call ←
    if callFirstOrdinal then do
      let first ← thunkOffsets.head?
      let target ← packI (imageBase + (textRva + first))
      some ([0xFF, 0x15] ++ target)
    else some []
  let descs ← (nameOffsets.zip thunkOffsets).mapM fun (name, thunk) =>
    packIs [0, 0, 0, textRva + name, textRva + thunk]
  if dlls.any fun d => d.name.any fun c => 128 ≤ c then none
  else do
    let names := dlls.flatMap fun d => d.name ++ [0]
    let thunks ← dlls.mapM fun d => packIs (d.ordinals.map (0x80000000 ||| ·) ++ [0])
    let bodyData := call ++ tail ++ descs.flatten ++ zeros 20 ++ names ++ thunks.flatten
    let textFsize := roundUp dataEnd fileAlign
    let headerBlob ← peHeader dataEnd textFsize textRva subsystem (textRva + descTableOff)
      descTableSize
    some (headerBlob ++ bodyData ++ zeros (textFsize - bodyData.length))

def ordinalImport : Buffer :=
  .ofList ((buildWithImports 55 [⟨cBytes "COMCTL32.dll", [17]⟩] true 3).getD [])

end Winlift.MkMiniPe

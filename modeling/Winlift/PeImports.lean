import Winlift.CSem.Loop
import Winlift.PeImage

/-!
# The import directory (`pe_imports.c`)

Two nested walks: descriptors up to the all-zero one, and for each its thunks up to the zero one. The
walks step an RVA by `i * 20` and `i * 4` in 32 bits and have no bound of their own, so both are
`loop`s.
-/

namespace Winlift
open CSem

/-- `ensure_capacity`: the array's new capacity, or `none` if it had to grow and could not. -/
def ensureCapacity (grant : Nat → Bool) (cap : Int) (count elemSize : Nat) : Option Int :=
  if (count : Int) < cap then some cap
  else
    let newCap := if cap = 0 then 8 else int32 (cap * 2)
    if grant (sizeT newCap * elemSize % 2 ^ 64) then some newCap else none

/-- The loop of `read_c_string`: `n` more bytes may be read, the next one is byte `i`. -/
def readCStringFrom (img : PeImage) (rva : UInt32) : Nat → Nat → Res PeError (Option (List UInt8))
  | 0, _ => .ok (some [])
  | n + 1, i =>
    match peRvaToPtr img (rva + UInt32.ofNat i) 1 with
    | none => .ok none
    | some p => do
      let p ← readable img.raw (some p) 1
      let c := img.raw.byte p
      if c = 0 then .ok (some [])
      else do
        let rest ← readCStringFrom img rva n (i + 1)
        .ok (rest.map (c :: ·))

/-- `read_c_string`: the string at `rva`, cut off after `outCap - 1` bytes, or `none` when a byte is
not backed by the file. -/
def readCString (img : PeImage) (rva : UInt32) (outCap : Nat) : Res PeError (Option (List UInt8)) :=
  readCStringFrom img rva (outCap - 1) 0

/-! ### Thunks -/

def ordinalName (ordinal : UInt16) : List UInt8 := cBytes "#" ++ cBytes (toString ordinal.toNat)

def peImportFuncSize : Nat := 136
def peImportDllSize : Nat := 80

structure ThunkState where
  i : UInt32
  funcs : List PeImportFunc
  funcsCap : Int

def parseThunk (img : PeImage) (dllName : List UInt8) (thunk iatRva : UInt32) :
    Res PeError PeImportFunc :=
  if thunk &&& peOrdinalFlag32 ≠ 0 then
    let ordinal := UInt16.ofNat (thunk &&& 0xFFFF).toNat
    .ok ⟨ordinalName ordinal, ordinal, true, iatRva⟩
  else do
    let namep ← .orReject (peRvaToPtr img thunk 2) <| peErrorSet .malformed
      s!"malformed PE: import-by-name RVA out of range in '{cText dllName}'"
    let _ ← readable img.raw (some namep) peImportByNameSize
    let name ← readCString img (thunk + 2) 128
    let name ← .orReject name <| peErrorSet .malformed
      s!"malformed PE: import function name out of range in '{cText dllName}'"
    .ok ⟨name, 0, false, iatRva⟩

def thunkStep (grant : Nat → Bool) (img : PeImage) (dllName : List UInt8) (thunkRva iatRva : UInt32)
    (s : ThunkState) : Res PeError (Step ThunkState ThunkState) := do
  let tp ← .orReject (peRvaToPtr img (thunkRva + s.i * 4) 4) <| peErrorSet .malformed
    s!"malformed PE: thunk table for '{cText dllName}' out of range"
  let tp ← readable img.raw (some tp) 4
  let thunk := img.raw.le32 tp
  if thunk = 0 then .ok (.done s)
  else do
    let cap ← .orReject (ensureCapacity grant s.funcsCap s.funcs.length peImportFuncSize) <|
      peErrorSet .malformed s!"out of memory parsing imports from '{cText dllName}'"
    let fn ← parseThunk img dllName thunk (iatRva + s.i * 4)
    .ok (.more ⟨s.i + 1, s.funcs ++ [fn], cap⟩)

/-! ### Descriptors -/

structure ImportState where
  i : UInt32
  imports : List PeImportDll
  importsCap : Int

/-- `parse_one_dll`: the next entry of the DLL array and the array's capacity. -/
def parseOneDll (alloc : Alloc) (fuel : Nat) (img : PeImage) (imports : List PeImportDll)
    (importsCap : Int) (desc : PeImportDescriptor) : Res PeError (PeImportDll × Int) := do
  let cap ← .orReject (ensureCapacity alloc.imports importsCap imports.length peImportDllSize) <|
    peErrorSet .malformed "out of memory parsing imported DLLs"
  let dllName ← readCString img desc.name 64
  let dllName ← .orReject dllName <| peErrorSet .malformed
    "malformed PE: import DLL name RVA out of range"
  .rejectIf (desc.forwarderChain ≠ 0xFFFFFFFF ∧ desc.forwarderChain ≠ 0) <|
    peErrorSet .forwardedImport
      s!"unsupported: forwarded imports not supported (dll '{cText dllName}')"
  let thunkRva := if desc.originalFirstThunk ≠ 0 then desc.originalFirstThunk else desc.firstThunk
  let s ← loop (thunkStep (alloc.funcs imports.length) img dllName thunkRva desc.firstThunk) fuel
    ⟨0, [], 0⟩
  .ok (⟨dllName, s.funcs, s.funcsCap⟩, cap)

def PeImportDescriptor.isTerminator (desc : PeImportDescriptor) : Prop :=
  desc.originalFirstThunk = 0 ∧ desc.timeDateStamp = 0 ∧ desc.forwarderChain = 0 ∧ desc.name = 0 ∧
    desc.firstThunk = 0

instance (desc : PeImportDescriptor) : Decidable desc.isTerminator :=
  inferInstanceAs (Decidable (_ ∧ _))

def importStep (alloc : Alloc) (fuel : Nat) (img : PeImage) (dirRva : UInt32) (s : ImportState) :
    Res PeError (Step ImportState ImportState) := do
  let p ← .orReject (peRvaToPtr img (dirRva + s.i * 20) 20) <|
    peErrorSet .malformed "malformed PE: import directory out of range"
  let p ← readable img.raw (some p) peImportDescriptorSize
  let desc := peImportDescriptorAt img.raw p
  if desc.isTerminator then .ok (.done s)
  else do
    let (dll, cap) ← parseOneDll alloc fuel img s.imports s.importsCap desc
    .ok (.more ⟨s.i + 1, s.imports ++ [dll], cap⟩)

/-- `pe_parse_imports_dir`; the directory's size is not looked at. -/
def peParseImportsDir (alloc : Alloc) (fuel : Nat) (img : PeImage) (dirRva : UInt32) :
    Res PeError PeImage :=
  if dirRva = 0 then .ok img
  else do
    let s ← loop (importStep alloc fuel img dirRva) fuel ⟨0, img.imports, img.importsCap⟩
    .ok { img with imports := s.imports, importsCap := s.importsCap }

end Winlift

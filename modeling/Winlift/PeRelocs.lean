import Winlift.CSem.Loop
import Winlift.PeImage

/-!
# Base relocations and TLS callbacks (`pe_relocs.c`)

The relocation directory is walked twice. The first pass adds up the entries of all blocks in `count`,
the second stores the RVAs of the `HIGHLOW` entries into an array of `count` elements. Both step
`consumed`, a `uint32_t`, by the size of the block; `count` and `idx` are of type `int`.
-/

namespace Winlift
open CSem

/-- `(int)((blk.SizeOfBlock - sizeof(blk)) / 2)`, the subtraction in `size_t`. -/
def PeBaseRelocationBlock.nEntries (blk : PeBaseRelocationBlock) : Int :=
  int32 ((blk.sizeOfBlock.toNat + (2 ^ 64 - 8)) % 2 ^ 64 / 2 : Nat)

/-! ### First pass -/

structure CountState where
  consumed : UInt32
  count : Int

def countStep (img : PeImage) (dirRva dirSize : UInt32) (s : CountState) :
    Res PeError (Step CountState Int) :=
  if s.consumed < dirSize then do
    let bp ← .orReject (peRvaToPtr img (dirRva + s.consumed) 8) <|
      peErrorSet .malformed "malformed PE: base relocation block out of range"
    let bp ← readable img.raw (some bp) peBaseRelocationBlockSize
    let blk := peBaseRelocationBlockAt img.raw bp
    .rejectIf (blk.sizeOfBlock < 8) <|
      peErrorSet .malformed "malformed PE: base relocation block size too small"
    .ok (.more ⟨s.consumed + blk.sizeOfBlock, int32 (s.count + blk.nEntries)⟩)
  else .ok (.done s.count)

def countRelocs (fuel : Nat) (img : PeImage) (dirRva dirSize : UInt32) : Res PeError Int :=
  loop (countStep img dirRva dirSize) fuel ⟨0, 0⟩

/-! ### Second pass -/

structure RelocStore where
  idx : Nat
  rva : UInt32
deriving DecidableEq, Repr

/-- What the second pass has done so far: the stores, in order, with `idx` going up by one. -/
structure FillState where
  consumed : UInt32
  stores : List RelocStore

structure FillRun where
  stores : List RelocStore
  result : Res PeError Unit

/-- Going on after a read; a read that is no success ends the pass. -/
def FillRun.afterRead (stores : List RelocStore) (r : Res PeError Nat) (next : Nat → FillRun) :
    FillRun :=
  match r with
  | .ok p => next p
  | .err e => ⟨stores, .err e⟩
  | .fault f => ⟨stores, .fault f⟩
  | .timeout => ⟨stores, .timeout⟩

def relocStore (va : UInt32) (e : UInt16) (stores : List RelocStore) : List RelocStore :=
  let type := e >>> 12
  let offset := e &&& 0x0FFF
  -- `PE_REL_BASED_ABSOLUTE` is padding, other types do not occur in i386 output
  if type = peRelBasedAbsolute then stores
  else if type = peRelBasedHighlow then stores ++ [⟨stores.length, va + offset.toUInt32⟩]
  else stores

/-- The entry loop: `n` entries are left, the next one is entry `i`, at `entries + i * 2`. The product is an
`int`, and from `i = 2^30` on its value is not defined; the address is stepped exactly, as the Makefile's
build does it. -/
def fillEntries (raw : Buffer) (entries : Nat) (va : UInt32) :
    Nat → Nat → List RelocStore → FillRun
  | 0, _, stores => ⟨stores, .ok ()⟩
  | n + 1, i, stores =>
    .afterRead stores (readable raw (some (entries + i * 2)) 2) fun p =>
      fillEntries raw entries va n (i + 1) (relocStore va (raw.le16 p) stores)

def fillBlock (img : PeImage) (dirRva consumed : UInt32) (blk : PeBaseRelocationBlock)
    (stores : List RelocStore) : FillRun :=
  let n := blk.nEntries
  match peRvaToPtr img (dirRva + consumed + 8) (UInt32.ofInt n * 2) with
  | none => ⟨stores, .err <|
      peErrorSet .malformed "malformed PE: base relocation entries out of range"⟩
  | some entries => fillEntries img.raw entries blk.virtualAddress n.toNat 0 stores

/-- One pass of the filling loop. The block header is read through the RVA map's result without
looking whether it is `NULL`. -/
def fillStep (img : PeImage) (dirRva dirSize : UInt32) (s : FillState) : Step FillState FillRun :=
  if s.consumed < dirSize then
    match (readable img.raw (peRvaToPtr img (dirRva + s.consumed) 8) peBaseRelocationBlockSize :
        Res PeError Nat) with
    | .ok bp =>
      let blk := peBaseRelocationBlockAt img.raw bp
      let run := fillBlock img dirRva s.consumed blk s.stores
      match run.result with
      | .ok () => .more ⟨s.consumed + blk.sizeOfBlock, run.stores⟩
      | _ => .done run
    | .err e => .done ⟨s.stores, .err e⟩
    | .fault f => .done ⟨s.stores, .fault f⟩
    | .timeout => .done ⟨s.stores, .timeout⟩
  else .done ⟨s.stores, .ok ()⟩

def fillRelocs (fuel : Nat) (img : PeImage) (dirRva dirSize : UInt32) : Res PeError FillRun :=
  loop (fun s => .ok (fillStep img dirRva dirSize s)) fuel ⟨0, []⟩

/-! ### `pe_parse_relocs_dir` -/

def peRelocSize : Nat := 4

/-- The second pass over an array of `count` elements. A store at `count` or beyond is a fault,
whatever the pass returns after it. -/
def storeRelocs (count : Int) (img : PeImage) (run : FillRun) : Res PeError PeImage :=
  match run.result with
  | .fault f => .fault f
  | .timeout => .timeout
  | .err e => if (run.stores.length : Int) ≤ count then .err e else .fault .outsideStore
  | .ok () =>
    if (run.stores.length : Int) ≤ count then .ok { img with relocs := run.stores.map (·.rva) }
    else .fault .outsideStore

/-- The two passes: the `count` of the first and the run of the second, if it is entered. -/
def relocPasses (grant : Nat → Bool) (fuel : Nat) (img : PeImage) (dirRva dirSize : UInt32) :
    Res PeError (Option (Int × FillRun)) :=
  if dirRva = 0 ∨ dirSize = 0 then .ok none
  else do
    let count ← countRelocs fuel img dirRva dirSize
    if count = 0 then .ok none
    else do
      .rejectIf (grant (sizeT count * peRelocSize % 2 ^ 64) = false) <|
        peErrorSet .malformed "out of memory parsing relocations"
      let run ← fillRelocs fuel img dirRva dirSize
      .ok (some (count, run))

def peParseRelocsDir (grant : Nat → Bool) (fuel : Nat) (img : PeImage) (dirRva dirSize : UInt32) :
    Res PeError PeImage := do
  match ← relocPasses grant fuel img dirRva dirSize with
  | none => .ok img
  | some (count, run) => storeRelocs count img run

/-! ### `pe_parse_tls_dir` -/

structure TlsState where
  i : UInt32
  rvas : List UInt32

def tlsStep (img : PeImage) (arrRva : UInt32) (s : TlsState) :
    Res PeError (Step TlsState (List UInt32)) := do
  let ep ← .orReject (peRvaToPtr img (arrRva + s.i * 4) 4) <|
    peErrorSet .malformed "malformed PE: TLS callback array out of range"
  let ep ← readable img.raw (some ep) 4
  let cbVa := img.raw.le32 ep
  if cbVa = 0 then .ok (.done s.rvas)
  else do
    .rejectIf (cbVa < img.imageBase) <|
      peErrorSet .malformed "malformed PE: TLS callback VA below ImageBase"
    .rejectIf (peMaxTlsCallbacks ≤ s.rvas.length) <|
      peErrorSet .malformed "malformed PE: too many TLS callbacks"
    .ok (.more ⟨s.i + 1, s.rvas ++ [cbVa - img.imageBase]⟩)

def peParseTlsDir (fuel : Nat) (img : PeImage) (dirRva dirSize : UInt32) : Res PeError PeImage :=
  if dirRva = 0 ∨ dirSize = 0 then .ok { img with hasTls := false }
  else do
    let p ← .orReject (peRvaToPtr img dirRva 24) <|
      peErrorSet .malformed "malformed PE: TLS directory out of range"
    let p ← readable img.raw (some p) peTlsDirectory32Size
    let callBacks := peTlsAddressOfCallBacksAt img.raw p
    if callBacks = 0 then .ok { img with hasTls := true, tlsHasCallbacks := false }
    else do
      .rejectIf (callBacks < img.imageBase) <|
        peErrorSet .malformed "malformed PE: TLS AddressOfCallBacks below ImageBase"
      let rvas ← loop (tlsStep img (callBacks - img.imageBase)) fuel ⟨0, img.tlsCallbackRvas⟩
      .ok { img with hasTls := true, tlsHasCallbacks := true, tlsCallbackRvas := rvas }

end Winlift

import Winlift.Diagnostics
import Winlift.PeFormat

/-!
# The parsed image and its RVA map (`pe_image.h`, `pe_rva_to_ptr`)

Pointers into the raw file are offsets into `raw`. The heap-allocated arrays of the source are lists;
the capacities they grow by are kept where the growth is modelled.
-/

namespace Winlift
open CSem

structure PeSection where
  name : List UInt8
  rva : UInt32
  vsize : UInt32
  fileOff : UInt32
  fsize : UInt32
  characteristics : UInt32
deriving Repr

structure PeImportFunc where
  name : List UInt8
  ordinal : UInt16
  byOrdinal : Bool
  iatRva : UInt32
deriving DecidableEq, Repr

structure PeImportDll where
  dllName : List UInt8
  funcs : List PeImportFunc
  funcsCap : Int
deriving DecidableEq, Repr

structure PeImage where
  imageBase : UInt32
  entryPointRva : UInt32
  sizeOfImage : UInt32
  sizeOfHeaders : UInt32
  subsystem : UInt16
  sectionAlignment : UInt32
  fileAlignment : UInt32
  sections : List PeSection
  imports : List PeImportDll
  importsCap : Int
  relocs : List UInt32
  hasTls : Bool
  tlsHasCallbacks : Bool
  tlsCallbackRvas : List UInt32
  raw : Buffer

/-- Which allocation requests succeed, by what is allocated and how many bytes it takes. The
functions of one DLL have an array of their own, so `funcs` also gets the DLL's index. -/
structure Alloc where
  file : Nat → Bool
  sections : Nat → Bool
  imports : Nat → Bool
  funcs : Nat → Nat → Bool
  relocs : Nat → Bool
  rawCopy : Nat → Bool
  shimCopy : Nat → Bool

def ptrdiffMax : Nat := 2 ^ 63 - 1

/-- What `malloc` and `realloc` promise: no block is larger than `PTRDIFF_MAX`. -/
structure Alloc.Lawful (a : Alloc) : Prop where
  file : ∀ n, a.file n = true → n ≤ ptrdiffMax
  sections : ∀ n, a.sections n = true → n ≤ ptrdiffMax
  imports : ∀ n, a.imports n = true → n ≤ ptrdiffMax
  funcs : ∀ i n, a.funcs i n = true → n ≤ ptrdiffMax
  relocs : ∀ n, a.relocs n = true → n ≤ ptrdiffMax
  rawCopy : ∀ n, a.rawCopy n = true → n ≤ ptrdiffMax
  shimCopy : ∀ n, a.shimCopy n = true → n ≤ ptrdiffMax

def Alloc.generous : Alloc where
  file n := n ≤ ptrdiffMax
  sections n := n ≤ ptrdiffMax
  imports n := n ≤ ptrdiffMax
  funcs _ n := n ≤ ptrdiffMax
  relocs n := n ≤ ptrdiffMax
  rawCopy n := n ≤ ptrdiffMax
  shimCopy n := n ≤ ptrdiffMax

theorem Alloc.generous_lawful : generous.Lawful where
  file _ h := of_decide_eq_true h
  sections _ h := of_decide_eq_true h
  imports _ h := of_decide_eq_true h
  funcs _ _ h := of_decide_eq_true h
  relocs _ h := of_decide_eq_true h
  rawCopy _ h := of_decide_eq_true h
  shimCopy _ h := of_decide_eq_true h

/-- No request that `malloc` and `realloc` may grant is refused. -/
structure Alloc.Succeeds (a : Alloc) : Prop where
  file : ∀ n ≤ ptrdiffMax, a.file n = true
  sections : ∀ n ≤ ptrdiffMax, a.sections n = true
  imports : ∀ n ≤ ptrdiffMax, a.imports n = true
  funcs : ∀ i, ∀ n ≤ ptrdiffMax, a.funcs i n = true
  relocs : ∀ n ≤ ptrdiffMax, a.relocs n = true
  rawCopy : ∀ n ≤ ptrdiffMax, a.rawCopy n = true
  shimCopy : ∀ n ≤ ptrdiffMax, a.shimCopy n = true

theorem Alloc.generous_succeeds : generous.Succeeds where
  file _ h := decide_eq_true h
  sections _ h := decide_eq_true h
  imports _ h := decide_eq_true h
  funcs _ _ h := decide_eq_true h
  relocs _ h := decide_eq_true h
  rawCopy _ h := decide_eq_true h
  shimCopy _ h := decide_eq_true h

/-- A value of type `int` converted to `size_t`. -/
def sizeT (n : Int) : Nat := (n % 2 ^ 64).toNat

theorem sizeT_natCast {n : Nat} (h : n < 2 ^ 64) : sizeT n = n := by
  unfold sizeT
  omega

/-! ### The RVA map -/

/-- The section part of `pe_rva_to_ptr`: the first section whose virtual range takes the whole range
decides. -/
def sectionsRvaToPtr (rawSize : Nat) (rva minLen : UInt32) : List PeSection → Option Nat
  | [] => none
  | s :: rest =>
    if s.rva ≤ rva ∧ rva.toNat + minLen.toNat ≤ s.rva.toNat + s.vsize.toNat then
      let within := rva - s.rva
      -- the zero-filled tail (.bss) has no raw bytes
      if s.fsize ≤ within then none
      else if s.fsize.toNat < within.toNat + minLen.toNat then none
      else if rawSize < s.fileOff.toNat + within.toNat + minLen.toNat then none
      else some (s.fileOff.toNat + within.toNat)
    else sectionsRvaToPtr rawSize rva minLen rest

def peRvaToPtr (img : PeImage) (rva minLen : UInt32) : Option Nat :=
  if rva < img.sizeOfHeaders then
    if img.sizeOfHeaders.toNat < rva.toNat + minLen.toNat then none
    else if img.raw.size < rva.toNat + minLen.toNat then none
    else some rva.toNat
  else sectionsRvaToPtr img.raw.size rva minLen img.sections

theorem sectionsRvaToPtr_le {rawSize : Nat} {rva minLen : UInt32} {p : Nat} :
    ∀ {ss : List PeSection}, sectionsRvaToPtr rawSize rva minLen ss = some p →
      p + minLen.toNat ≤ rawSize
  | [], h => by simp [sectionsRvaToPtr] at h
  | s :: rest, h => by
    simp only [sectionsRvaToPtr] at h
    split_ifs at h with h₁ h₂ h₃ h₄
    · cases h; omega
    · exact sectionsRvaToPtr_le h

/-- A range that a section takes and that ends in its raw data is mapped there. -/
theorem sectionsRvaToPtr_of_le {rawSize : Nat} {rva minLen : UInt32} {s : PeSection} {ss : List PeSection}
    (hle : s.rva ≤ rva) (hlen : 0 < minLen.toNat) (hv : rva.toNat + minLen.toNat ≤ s.rva.toNat + s.vsize.toNat)
    (hf : rva.toNat + minLen.toNat ≤ s.rva.toNat + s.fsize.toNat)
    (hraw : s.fileOff.toNat + s.fsize.toNat ≤ rawSize) :
    sectionsRvaToPtr rawSize rva minLen (s :: ss) = some (s.fileOff.toNat + (rva - s.rva).toNat) := by
  have hsub := UInt32.toNat_sub_of_le rva s.rva hle
  rw [UInt32.le_iff_toNat_le] at hle
  rw [sectionsRvaToPtr, if_pos ⟨UInt32.le_iff_toNat_le.mpr hle, hv⟩]
  dsimp only
  rw [if_neg (by rw [UInt32.le_iff_toNat_le]; omega), if_neg (by omega), if_neg (by omega)]

theorem peRvaToPtr_le {img : PeImage} {rva minLen : UInt32} {p : Nat}
    (h : peRvaToPtr img rva minLen = some p) : p + minLen.toNat ≤ img.raw.size := by
  unfold peRvaToPtr at h
  split_ifs at h with h₁ h₂ h₃
  · cases h; omega
  · exact sectionsRvaToPtr_le h

theorem readable_of_rva {ε : Type} {img : PeImage} {rva minLen : UInt32} {p n : Nat}
    (h : peRvaToPtr img rva minLen = some p) (hn : n = minLen.toNat) :
    (readable img.raw (some p) n : Res ε Nat) = .ok p :=
  readable_of_le (hn ▸ peRvaToPtr_le h)

theorem wp_readable_rva {ε : Type} {F : Fault → Prop} {Q : Nat → Prop} {img : PeImage}
    {rva minLen : UInt32} {p n : Nat} (h : peRvaToPtr img rva minLen = some p) (hn : n = minLen.toNat) :
    Res.wp F (readable img.raw (some p) n : Res ε Nat) Q ↔ Q p :=
  wp_readable (hn ▸ peRvaToPtr_le h)

end Winlift

import Winlift.CSem.Extent
import Winlift.PeImage

/-!
# Block reads and byte reads through the RVA map

`pe_rva_to_ptr` takes the first section whose virtual range holds the whole block. Where the virtual
ranges are apart that is the only one that holds any of it, so the map is a relation between blocks and
file offsets (`peRvaToPtr_eq_some`), and the parts of a block are found where the block is
(`rvaMap_agrees`).
-/

namespace Winlift
open CSem

section
variable (img : PeImage) (rva len : UInt32)

def PeSection.virtual (s : PeSection) : Extent := ⟨s.rva.toNat, s.rva.toNat + s.vsize.toNat⟩

/-- The block lies below `SizeOfHeaders` and the size of the file. -/
def InHeaders : Prop :=
  rva.toNat + len.toNat ≤ img.sizeOfHeaders.toNat ∧ rva.toNat + len.toNat ≤ img.raw.size

/-- The block lies in the section's virtual range, in its raw data and in the file. -/
structure InSection (s : PeSection) : Prop where
  start : s.rva.toNat ≤ rva.toNat
  virtual : rva.toNat + len.toNat ≤ s.rva.toNat + s.vsize.toNat
  raw : rva.toNat - s.rva.toNat + len.toNat ≤ s.fsize.toNat
  file : s.fileOff.toNat + (rva.toNat - s.rva.toNat) + len.toNat ≤ img.raw.size

end

variable {img : PeImage} {rva len : UInt32} {o : Nat}

theorem PeSection.mem_virtual {s : PeSection} (hstart : s.rva.toNat ≤ rva.toNat)
    (hv : rva.toNat + len.toNat ≤ s.rva.toNat + s.vsize.toNat) (hlen : 0 < len.toNat) :
    rva.toNat ∈ s.virtual := by
  refine ⟨hstart, ?_⟩
  show rva.toNat < s.rva.toNat + s.vsize.toNat
  omega

/-- What the section that is taken does with the block. -/
theorem sectionsRvaToPtr_cons {s : PeSection} {ss : List PeSection} (hstart : s.rva.toNat ≤ rva.toNat)
    (hv : rva.toNat + len.toNat ≤ s.rva.toNat + s.vsize.toNat) (hlen : 0 < len.toNat) :
    sectionsRvaToPtr img.raw.size rva len (s :: ss) = some o ↔
      InSection img rva len s ∧ o = s.fileOff.toNat + (rva.toNat - s.rva.toNat) := by
  have hsub : (rva - s.rva).toNat = rva.toNat - s.rva.toNat := toNat_sub_of_le hstart
  rw [sectionsRvaToPtr, if_pos ⟨UInt32.le_iff_toNat_le.mpr hstart, hv⟩]
  simp only [UInt32.le_iff_toNat_le, hsub]
  split_ifs with htail hraw hfile
  · simp only [false_iff]
    rintro ⟨h, -⟩
    have hr := h.raw
    omega
  · simp only [false_iff]
    rintro ⟨h, -⟩
    exact Nat.not_lt.mpr h.raw hraw
  · simp only [false_iff]
    rintro ⟨h, -⟩
    exact Nat.not_lt.mpr h.file hfile
  · rw [Option.some.injEq, eq_comm, iff_and_self]
    exact fun _ => ⟨hstart, hv, Nat.not_lt.mp hraw, Nat.not_lt.mp hfile⟩

theorem sectionsRvaToPtr_eq_some {ss : List PeSection} (hapart : (ss.map PeSection.virtual).Pairwise Extent.Apart)
    (hlen : 0 < len.toNat) : sectionsRvaToPtr img.raw.size rva len ss = some o ↔
      ∃ s ∈ ss, InSection img rva len s ∧ o = s.fileOff.toNat + (rva.toNat - s.rva.toNat) := by
  induction ss with
  | nil => simp [sectionsRvaToPtr]
  | cons s rest ih =>
    rw [List.map_cons, List.pairwise_cons] at hapart
    rw [List.exists_mem_cons_iff]
    by_cases hin : s.rva ≤ rva ∧ rva.toNat + len.toNat ≤ s.rva.toNat + s.vsize.toNat
    · obtain ⟨hstart, hv⟩ := hin
      rw [sectionsRvaToPtr_cons (UInt32.le_iff_toNat_le.mp hstart) hv hlen, iff_self_or]
      rintro ⟨t, ht, h, -⟩
      -- the ranges of both sections would have the block's first byte
      have hs := PeSection.mem_virtual (UInt32.le_iff_toNat_le.mp hstart) hv hlen
      have ht' := PeSection.mem_virtual h.start h.virtual hlen
      exact absurd ht' ((hapart.1 _ (List.mem_map_of_mem ht)).not_mem hs)
    · rw [sectionsRvaToPtr, if_neg hin, ih hapart.2, iff_or_self]
      rintro ⟨h, -⟩
      exact absurd ⟨UInt32.le_iff_toNat_le.mpr h.start, h.virtual⟩ hin

theorem peRvaToPtr_eq_some (hapart : (img.sections.map PeSection.virtual).Pairwise Extent.Apart)
    (hlen : 0 < len.toNat) : peRvaToPtr img rva len = some o ↔
      InHeaders img rva len ∧ o = rva.toNat ∨ img.sizeOfHeaders ≤ rva ∧
        ∃ s ∈ img.sections, InSection img rva len s ∧ o = s.fileOff.toNat + (rva.toNat - s.rva.toNat) := by
  rw [peRvaToPtr]
  by_cases hhdr : rva < img.sizeOfHeaders
  · rw [if_pos hhdr, or_iff_left fun h => absurd hhdr (UInt32.not_lt.mpr h.1)]
    simp only [InHeaders]
    split_ifs with hsize hfile
    · simp only [false_iff]
      omega
    · simp only [false_iff]
      omega
    · rw [Option.some.injEq, eq_comm, iff_and_self]
      omega
  · rw [if_neg hhdr, sectionsRvaToPtr_eq_some hapart hlen, or_iff_right, and_iff_right (UInt32.not_lt.mp hhdr)]
    rintro ⟨h, -⟩
    rw [UInt32.lt_iff_toNat_lt] at hhdr
    have hsize := h.1
    omega

/-- A block is resolved iff it is in the headers or in a section, and its parts are resolved to the parts
of what it is resolved to. -/
theorem rvaMap_agrees (hapart : (img.sections.map PeSection.virtual).Pairwise Extent.Apart)
    (hwrap : ∀ s ∈ img.sections, s.virtual.hi ≤ 2 ^ 32) (hlen : 1 ≤ len.toNat) :
    ((∃ o, peRvaToPtr img rva len = some o) ↔ InHeaders img rva len ∨
      img.sizeOfHeaders ≤ rva ∧ ∃ s ∈ img.sections, InSection img rva len s) ∧
    ∀ o, peRvaToPtr img rva len = some o → o + len.toNat ≤ img.raw.size ∧
      ∀ k m : UInt32, 1 ≤ m.toNat → k.toNat + m.toNat ≤ len.toNat →
        peRvaToPtr img (rva + k) m = some (o + k.toNat) := by
  simp only [peRvaToPtr_eq_some hapart hlen]
  constructor
  · constructor
    · rintro ⟨o, ⟨h, -⟩ | ⟨hle, s, hs, h, -⟩⟩
      · exact .inl h
      · exact .inr ⟨hle, s, hs, h⟩
    · rintro (h | ⟨hle, s, hs, h⟩)
      · exact ⟨_, .inl ⟨h, rfl⟩⟩
      · exact ⟨_, .inr ⟨hle, s, hs, h, rfl⟩⟩
  · intro o h
    refine ⟨peRvaToPtr_le ((peRvaToPtr_eq_some hapart hlen).mpr h), fun k m hm hkm => ?_⟩
    rw [peRvaToPtr_eq_some hapart hm]
    rcases h with ⟨⟨hsize, hfile⟩, rfl⟩ | ⟨hle, s, hs, h, rfl⟩
    · have hadd : (rva + k).toNat = rva.toNat + k.toNat :=
        toNat_add_of_lt (by have := img.sizeOfHeaders.toNat_lt; omega)
      refine .inl ⟨⟨?_, ?_⟩, hadd.symm⟩ <;> omega
    · obtain ⟨hstart, hv, hraw, hfile⟩ := h
      have hhi : s.rva.toNat + s.vsize.toNat ≤ 2 ^ 32 := hwrap s hs
      have hadd : (rva + k).toNat = rva.toNat + k.toNat := toNat_add_of_lt (by omega)
      rw [UInt32.le_iff_toNat_le] at hle ⊢
      refine .inr ⟨by omega, s, hs, ⟨?_, ?_, ?_, ?_⟩, ?_⟩ <;> omega

/-- Sixteen bytes of headers, `.text` with eight bytes of code and `.data`, of which half is `.bss`. -/
def twoSections : PeImage where
  imageBase := 0x400000
  entryPointRva := 0x1000
  sizeOfImage := 0x3000
  sizeOfHeaders := 16
  subsystem := 3
  sectionAlignment := 0x1000
  fileAlignment := 8
  sections := [⟨cBytes ".text", 0x1000, 8, 16, 8, 0x60000020⟩, ⟨cBytes ".data", 0x2000, 16, 24, 8, 0xC0000040⟩]
  imports := []
  importsCap := 0
  relocs := []
  hasTls := false
  tlsHasCallbacks := false
  tlsCallbackRvas := []
  raw := .ofList (List.replicate 32 0)

theorem rvaMap_agrees_twoSections : peRvaToPtr twoSections 0x2004 4 = some 28 ∧
    ∀ k m : UInt32, 1 ≤ m.toNat → k.toNat + m.toNat ≤ 4 →
      peRvaToPtr twoSections (0x2004 + k) m = some (28 + k.toNat) :=
  have h := @rvaMap_agrees twoSections 0x2004 4 (by decide) (by decide) (by decide)
  have hread : peRvaToPtr twoSections 0x2004 4 = some 28 := by decide
  ⟨hread, (h.2 28 hread).2⟩

end Winlift

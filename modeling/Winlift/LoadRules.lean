import Winlift.ImageMap
import Winlift.WriterSpec

/-!
# What ELF asks of the segments

`PT_LOAD` segments lie on pages of their own, in ascending order, and each is congruent to its file
offset modulo its alignment. The layout compares no section with another, so the first is a property of
the section table (`noCollision_iff`); it checks that its own addresses are page-aligned, and the shim's
embedding does not (`phdrsLoadable_iff`).
-/

namespace Winlift
open CSem

/-! ### Segments apart in memory -/

/-- The pages of the segments that take memory, in exact integers. -/
def mappedPages (img : PeImage) (segs : List Segment) : List Extent :=
  (((0 :: img.sections.map (·.rva)).zip segs).filter fun p => 0 < p.2.memsz.toNat).map fun p =>
    (⟨img.imageBase.toNat + p.1.toNat, img.imageBase.toNat + p.1.toNat + p.2.memsz.toNat⟩ : Extent).roundOut
      0x1000

structure NoCollision (img : PeImage) (segs : List Segment) : Prop where
  apart : (mappedPages img segs).Pairwise Extent.Apart
  ascending : (mappedPages img segs).Pairwise fun i j => i.lo < j.lo
  below : ∀ i ∈ mappedPages img segs, i.hi ≤ 2 ^ 32

/-- A pass over the section table: every section that takes memory starts at or behind `next`, where
the pages of the part before it end, and the last pages end at or below `2 ^ 32`. -/
def PagesFit (base : Nat) : Nat → List PeSection → Prop
  | next, [] => base + next ≤ 2 ^ 32
  | next, s :: rest =>
    if s.vsize = 0 ∧ s.fsize = 0 then PagesFit base next rest
    else next ≤ s.rva.toNat ∧
      PagesFit base (s.rva.toNat + roundUp (max s.vsize.toNat s.fsize.toNat) 0x1000) rest

instance instDecidablePagesFit (base : Nat) : ∀ next ss, Decidable (PagesFit base next ss)
  | _, [] => inferInstanceAs (Decidable (_ ≤ _))
  | next, s :: rest =>
    have := instDecidablePagesFit base next rest
    have := instDecidablePagesFit base
      (s.rva.toNat + roundUp (max s.vsize.toNat s.fsize.toNat) 0x1000) rest
    decidable_of_iff (if s.vsize = 0 ∧ s.fsize = 0 then PagesFit base next rest
      else next ≤ s.rva.toNat ∧
        PagesFit base (s.rva.toNat + roundUp (max s.vsize.toNat s.fsize.toNat) 0x1000) rest) Iff.rfl

section
variable {img : PeImage} {spec : Spec}

theorem mappedPages_unplace (img : PeImage) (segs : List Segment) :
    mappedPages img (segs.map unplace) = mappedPages img segs := by
  simp only [mappedPages, List.zip_map_right, List.filter_map, List.map_map]
  rfl

theorem roundOut_of_aligned {lo n : Nat} (h : 0x1000 ∣ lo) :
    (⟨lo, lo + n⟩ : Extent).roundOut 0x1000 = ⟨lo, lo + roundUp n 0x1000⟩ := by
  obtain ⟨q, rfl⟩ := h
  simp only [Extent.roundOut, roundUp, Extent.mk.injEq]
  omega

theorem dvd_of_page_aligned {x : UInt32} (h : x % pageSize = 0) : 0x1000 ∣ x.toNat :=
  Nat.dvd_of_mod_eq_zero (congrArg UInt32.toNat h)

/-- The pages of the sections that take memory. -/
def sectionPages (img : PeImage) (ss : List PeSection) : List Extent :=
  (ss.filter fun s => 0 < max s.vsize.toNat s.fsize.toNat).map fun s =>
    ⟨img.imageBase.toNat + s.rva.toNat,
      img.imageBase.toNat + s.rva.toNat + roundUp (max s.vsize.toNat s.fsize.toNat) 0x1000⟩

theorem mappedPages_eq (hlay : LayoutOf img spec) : mappedPages img spec.segments =
    (if 0 < img.sizeOfHeaders.toNat then
      [⟨img.imageBase.toNat, img.imageBase.toNat + roundUp img.sizeOfHeaders.toNat 0x1000⟩]
    else []) ++ sectionPages img img.sections := by
  have hbase := dvd_of_page_aligned hlay.base_aligned
  have hsections : ((img.sections.filter fun s => 0 < max s.vsize.toNat s.fsize.toNat).map fun s =>
      (⟨img.imageBase.toNat + s.rva.toNat, img.imageBase.toNat + s.rva.toNat +
        max s.vsize.toNat s.fsize.toNat⟩ : Extent).roundOut 0x1000) = sectionPages img img.sections := by
    refine List.map_congr_left fun s hs => roundOut_of_aligned ?_
    exact Nat.dvd_add hbase (dvd_of_page_aligned (hlay.rva_aligned s (List.mem_of_mem_filter hs)))
  have hmapped : ((img.sections.map fun s => (s.rva, sectionSegment img s 0)).filter fun p =>
      0 < p.2.memsz.toNat).map (fun p => (⟨img.imageBase.toNat + p.1.toNat,
        img.imageBase.toNat + p.1.toNat + p.2.memsz.toNat⟩ : Extent).roundOut 0x1000) =
      sectionPages img img.sections := by
    rw [← hsections, List.filter_map, List.map_map]
    simp only [Function.comp_def, sectionSegment_memsz]
  rw [← mappedPages_unplace, hlay.segments, imageSegments, mappedPages, List.zip_cons_cons,
    List.zip_map']
  by_cases hpos : 0 < img.sizeOfHeaders.toNat
  · rw [List.filter_cons_of_pos (by rw [decide_eq_true_eq]; exact hpos), List.map_cons, hmapped,
      if_pos hpos]
    exact congrArg (· :: _) (roundOut_of_aligned hbase)
  · rw [List.filter_cons_of_neg (by rw [decide_eq_true_eq]; exact hpos), hmapped, if_neg hpos,
      List.nil_append]

theorem between_sectionPages (img : PeImage) (ss : List PeSection) (next : Nat) :
    Extent.Between (img.imageBase.toNat + next) (sectionPages img ss) (2 ^ 32) ↔
      PagesFit img.imageBase.toNat next ss := by
  induction ss generalizing next with
  | nil => rfl
  | cons s rest ih =>
    have hsize : (s.vsize = 0 ∧ s.fsize = 0) ↔ ¬ 0 < max s.vsize.toNat s.fsize.toNat := by
      rw [← UInt32.toNat_inj, ← UInt32.toNat_inj, UInt32.toNat_zero]
      omega
    rw [PagesFit, sectionPages, List.filter_cons]
    by_cases hpos : 0 < max s.vsize.toNat s.fsize.toNat
    · rw [if_pos (decide_eq_true hpos), if_neg fun h => hsize.mp h hpos, List.map_cons, Extent.Between,
        ← ih, Nat.add_assoc]
      exact and_congr (Nat.add_le_add_iff_left ..) Iff.rfl
    · rw [if_neg (by simpa using hpos), if_pos (hsize.mpr hpos), ← ih]
      rfl

/-- The segments collide unless the section table happens to be in order: nothing has compared one
section with another, or with the headers. -/
theorem noCollision_iff (hspec : peLayoutToElfSpec img = .ok spec) : NoCollision img spec.segments ↔
    PagesFit img.imageBase.toNat (roundUp img.sizeOfHeaders.toNat 0x1000) img.sections := by
  have hbase := img.imageBase.toNat_lt
  have hlay := peLayoutToElfSpec_eq_ok hspec
  have hround : ∀ n, 0 < n → 0 < roundUp n 0x1000 := fun n hn =>
    Nat.lt_of_lt_of_le hn (le_roundUp (by norm_num))
  have hpages : ∀ i ∈ mappedPages img spec.segments, i.lo < i.hi ∧ img.imageBase.toNat ≤ i.lo := by
    intro i hi
    rw [mappedPages_eq hlay] at hi
    rcases List.mem_append.mp hi with hi | hi
    · split_ifs at hi with hpos
      · rw [List.mem_singleton.mp hi]
        exact ⟨Nat.lt_add_of_pos_right (hround _ hpos), Nat.le_refl _⟩
      · cases hi
    · obtain ⟨s, hs, rfl⟩ := List.mem_map.mp hi
      have hpos := of_decide_eq_true (List.mem_filter.mp hs).2
      exact ⟨Nat.lt_add_of_pos_right (hround _ hpos), Nat.le_add_right ..⟩
  have hbetween : NoCollision img spec.segments ↔
      Extent.Between img.imageBase.toNat (mappedPages img spec.segments) (2 ^ 32) := by
    rw [Extent.between_iff (fun i hi => (hpages i hi).1) (Nat.le_of_lt hbase) fun i hi => (hpages i hi).2]
    exact ⟨fun h => ⟨h.apart, h.ascending, h.below⟩, fun h => ⟨h.1, h.2.1, h.2.2⟩⟩
  rw [hbetween, mappedPages_eq hlay]
  split_ifs with hpos
  · rw [List.singleton_append, Extent.Between, between_sectionPages]
    exact and_iff_right (Nat.le_refl _)
  · have hzero : img.sizeOfHeaders.toNat = 0 := Nat.eq_zero_of_not_pos hpos
    rw [List.nil_append, hzero]
    exact between_sectionPages img img.sections 0

end

theorem noCollision_minimalNoimport : ∃ img spec,
    peImageLoad .generous 1 MkMiniPe.minimalNoimport = .ok img ∧ peLayoutToElfSpec img = .ok spec ∧
      NoCollision img spec.segments := by
  have hrun : (peImageLoad .generous 1 MkMiniPe.minimalNoimport).okAnd fun img =>
      (peLayoutToElfSpec img).okAnd fun _ =>
        PagesFit img.imageBase.toNat (roundUp img.sizeOfHeaders.toNat 0x1000) img.sections := by
    decide +kernel
  obtain ⟨img, spec, himg, hspec, hfit⟩ := loads_of_okAnd hrun
  exact ⟨img, spec, himg, hspec, (noCollision_iff hspec).mpr (of_decide_eq_true hfit)⟩

/-- A file whose section is at RVA 0, where the headers are. -/
def sectionOnHeadersFile : Buffer := MkMiniPe.minimalNoimport.patches [(324, 0)]

theorem sectionOnHeadersFile_collides : ¬ ∀ alloc fuel raw img spec,
    peImageLoad alloc fuel raw = .ok img → peLayoutToElfSpec img = .ok spec →
      NoCollision img spec.segments := by
  intro h
  have hrun : (peImageLoad .generous 1 sectionOnHeadersFile).okAnd fun img =>
      (peLayoutToElfSpec img).okAnd fun spec =>
        ¬ (mappedPages img spec.segments).Pairwise Extent.Apart := by decide +kernel
  obtain ⟨img, spec, himg, hspec, hout⟩ := loads_of_okAnd hrun
  exact of_decide_eq_true hout (h _ _ _ _ _ himg hspec).apart

/-! ### Program headers that can be loaded -/

/-- The rule for a `PT_LOAD` entry: congruent in file and memory, and no more bytes in the file than in
memory. -/
def Elf32Phdr.Loadable (ph : Elf32Phdr) : Prop :=
  ph.pOffset.toNat % ph.pAlign.toNat = ph.pVaddr.toNat % ph.pAlign.toNat ∧ ph.pFilesz ≤ ph.pMemsz

instance instDecidableLoadable (ph : Elf32Phdr) : Decidable ph.Loadable := inferInstanceAs (Decidable (_ ∧ _))

def PhdrsLoadable (file : Buffer) : Prop :=
  ∃ entry phdrs, elf32Decode file = some (entry, phdrs) ∧ ∀ ph ∈ phdrs, ph.Loadable

/-- The `PT_LOAD` segments of the blob are those of a valid executable. -/
structure ShimLoadsValid (blob : Buffer) : Prop where
  congruent : ∀ ph ∈ shimLoads blob, ph.pOffset.toNat % 0x1000 = ph.pVaddr.toNat % 0x1000
  filesz_le : ∀ ph ∈ shimLoads blob, ph.pFilesz ≤ ph.pMemsz

section
variable {blob : Buffer} {img : PeImage} {spec : Spec} {r : StubPatched}

theorem ElfSegment.phdr_loadable_iff {seg : Segment} (hoff : 0x1000 ∣ seg.fileOffset.toNat) :
    seg.phdr.Loadable ↔ 0x1000 ∣ (unplace seg).vaddr.toNat ∧ (unplace seg).filesz ≤ (unplace seg).memsz := by
  have halign : UInt32.toNat 0x1000 = 0x1000 := rfl
  rw [Elf32Phdr.Loadable]
  refine and_congr ?_ Iff.rfl
  show seg.fileOffset.toNat % UInt32.toNat 0x1000 = seg.vaddr.toNat % UInt32.toNat 0x1000 ↔
    0x1000 ∣ seg.vaddr.toNat
  rw [halign, Nat.mod_eq_zero_of_dvd hoff, Nat.dvd_iff_mod_eq_zero]
  exact eq_comm

theorem imageSegments_loadable (hlay : LayoutOf img spec) :
    ∀ seg ∈ imageSegments img, 0x1000 ∣ seg.vaddr.toNat ∧ seg.filesz ≤ seg.memsz := by
  have hbase := dvd_of_page_aligned hlay.base_aligned
  rw [imageSegments, List.forall_mem_cons, List.forall_mem_map]
  refine ⟨⟨hbase, UInt32.le_refl _⟩, fun s hs => ⟨?_, ?_⟩⟩
  · show 0x1000 ∣ (img.imageBase + s.rva).toNat
    rw [UInt32.toNat_add]
    exact (Nat.dvd_mod_iff (by norm_num)).mpr
      (Nat.dvd_add hbase (dvd_of_page_aligned (hlay.rva_aligned s hs)))
  · rw [UInt32.le_iff_toNat_le, sectionSegment_memsz]
    exact Nat.le_max_right ..

/-- The segments of the PE file can always be loaded; those of the shim are moved to page boundaries of
the file and keep their addresses, so those have to be page boundaries too. -/
theorem phdrsLoadable_iff {grant : Nat → Bool} {io : Stdio} {file : List UInt8}
    (hspec : peLayoutToElfSpec img = .ok spec) (hr : stubPatchApply grant blob img spec = .ok r)
    (hvalid : ShimLoadsValid blob) (hfile : (elfWrite io r.mem r.spec).result = .ok file) :
    PhdrsLoadable (.ofList file) ↔ ∀ ph ∈ shimLoads blob, 0x1000 ∣ ph.pVaddr.toNat := by
  have hlay := peLayoutToElfSpec_eq_ok hspec
  have hstub := stubPatchApply_eq_ok hr
  have haligned := (laidOut_all hlay hstub).aligned (Nat.dvd_refl _)
  have hdecoded : PhdrsLoadable (.ofList file) ↔ ∀ seg ∈ r.spec.segments, seg.phdr.Loadable := by
    simp [PhdrsLoadable, elfWrite_decodes hfile]
  have hunplace : (∀ seg ∈ r.spec.segments, seg.phdr.Loadable) ↔
      ∀ seg ∈ imageSegments img ++ shimSegments blob, 0x1000 ∣ seg.vaddr.toNat ∧ seg.filesz ≤ seg.memsz := by
    rw [← unplace_all hlay hstub, List.forall_mem_map]
    exact forall₂_congr fun seg hseg => ElfSegment.phdr_loadable_iff (haligned seg hseg)
  rw [hdecoded, hunplace, List.forall_mem_append, and_iff_right (imageSegments_loadable hlay),
    shimSegments, List.forall_mem_map]
  exact forall₂_congr fun ph hph => and_iff_left (hvalid.filesz_le ph hph)

end

/-- The shim in miniature with its segment, congruent to its file offset, 84 bytes into a page. -/
def unalignedShim : Buffer := miniShim.patches [(60, 0x0F000054), (144, 0x0F000058)]

theorem unalignedShim_valid : ShimLoadsValid unalignedShim where
  congruent := by decide +kernel
  filesz_le := by decide +kernel

theorem unalignedShim_converts : ∃ img spec r file,
    peImageLoad .generous 1 MkMiniPe.minimalNoimport = .ok img ∧ peLayoutToElfSpec img = .ok spec ∧
      stubPatchApply (fun _ => true) unalignedShim img spec = .ok r ∧
      (elfWrite .working r.mem r.spec).result = .ok file ∧
      ∃ seg ∈ r.spec.segments, ¬ seg.phdr.Loadable := by
  have hrun : (peImageLoad .generous 1 MkMiniPe.minimalNoimport).okAnd fun img =>
      (peLayoutToElfSpec img).okAnd fun spec =>
        (stubPatchApply (fun _ => true) unalignedShim img spec).okAnd fun r =>
          (elfWrite .working r.mem r.spec).result.okAnd fun _ =>
            ∃ seg ∈ r.spec.segments, ¬ seg.phdr.Loadable := by decide +kernel
  obtain ⟨img, spec, r, himg, hspec, hr, hrun⟩ := converts_of_okAnd hrun
  obtain ⟨file, hfile, hseg⟩ := Res.okAnd_iff.mp hrun
  exact ⟨img, spec, r, file, himg, hspec, hr, hfile, of_decide_eq_true hseg⟩

/-- The shim in miniature with a segment that begins where its file does. -/
def alignedShim : Buffer := miniShim.patches [(56, 0), (68, 108), (72, 116)]

theorem phdrsLoadable_alignedShim : ∃ img spec r file,
    peImageLoad .generous 1 MkMiniPe.minimalNoimport = .ok img ∧ peLayoutToElfSpec img = .ok spec ∧
      stubPatchApply (fun _ => true) alignedShim img spec = .ok r ∧
      (elfWrite .working r.mem r.spec).result = .ok file ∧ PhdrsLoadable (.ofList file) := by
  have hrun : (peImageLoad .generous 1 MkMiniPe.minimalNoimport).okAnd fun img =>
      (peLayoutToElfSpec img).okAnd fun spec =>
        (stubPatchApply (fun _ => true) alignedShim img spec).okAnd fun r =>
          (elfWrite .working r.mem r.spec).result.okAnd fun _ => True := by decide +kernel
  obtain ⟨img, spec, r, himg, hspec, hr, hrun⟩ := converts_of_okAnd hrun
  obtain ⟨file, hfile, -⟩ := Res.okAnd_iff.mp hrun
  have hvalid : ShimLoadsValid alignedShim := ⟨by decide +kernel, by decide +kernel⟩
  exact ⟨img, spec, r, file, himg, hspec, hr, hfile,
    (phdrsLoadable_iff hspec hr hvalid hfile).mpr (by decide +kernel)⟩

theorem unalignedShim_not_loadable : ¬ ∀ alloc fuel raw grant blob io img spec r file,
    ShimLoadsValid blob → peImageLoad alloc fuel raw = .ok img → peLayoutToElfSpec img = .ok spec →
      stubPatchApply grant blob img spec = .ok r → (elfWrite io r.mem r.spec).result = .ok file →
        PhdrsLoadable (.ofList file) := by
  intro h
  obtain ⟨img, spec, r, file, himg, hspec, hr, hfile, seg, hseg, hout⟩ := unalignedShim_converts
  obtain ⟨entry, phdrs, hdecode, hload⟩ :=
    h _ _ _ _ _ _ _ _ _ _ unalignedShim_valid himg hspec hr hfile
  rw [elfWrite_decodes hfile, Option.some.injEq, Prod.mk.injEq] at hdecode
  obtain ⟨-, rfl⟩ := hdecode
  exact hout (hload _ (List.mem_map_of_mem hseg))

end Winlift

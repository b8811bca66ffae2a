import Winlift.LoadSafe
import Winlift.StubPatch

/-!
# Where the segments go in the output file

The layout and the shim's embedding place one segment after the other at the next page boundary, in
32-bit arithmetic (`LaidOut`). Their spec lemmas `peLayoutToElfSpec_eq_ok` and `stubPatchApply_eq_ok`
say which segments there are; what the segments' offsets, sizes and addresses amount to in exact
integers follows from these two.
-/

namespace Winlift
open CSem

/-! ### Runs on a file

What `decide` has found out about a run, as facts about its results. -/

theorem loads_of_okAnd {fuel : Nat} {raw : Buffer} {p : PeImage → Spec → Bool}
    (h : ((peImageLoad .generous fuel raw).okAnd fun img => (peLayoutToElfSpec img).okAnd (p img)) = true) :
    ∃ img spec, peImageLoad .generous fuel raw = .ok img ∧ peLayoutToElfSpec img = .ok spec ∧
      p img spec = true := by
  obtain ⟨img, himg, h⟩ := Res.okAnd_iff.mp h
  obtain ⟨spec, hspec, h⟩ := Res.okAnd_iff.mp h
  exact ⟨img, spec, himg, hspec, h⟩

theorem converts_of_okAnd {fuel : Nat} {raw blob : Buffer} {p : PeImage → Spec → StubPatched → Bool}
    (h : ((peImageLoad .generous fuel raw).okAnd fun img => (peLayoutToElfSpec img).okAnd fun spec =>
      (stubPatchApply (fun _ => true) blob img spec).okAnd (p img spec)) = true) :
    ∃ img spec r, peImageLoad .generous fuel raw = .ok img ∧ peLayoutToElfSpec img = .ok spec ∧
      stubPatchApply (fun _ => true) blob img spec = .ok r ∧ p img spec r = true := by
  obtain ⟨img, spec, himg, hspec, h⟩ := loads_of_okAnd h
  obtain ⟨r, hr, h⟩ := Res.okAnd_iff.mp h
  exact ⟨img, spec, r, himg, hspec, hr, h⟩

/-! ### `align_up` -/

theorem alignUp_toNat (n : UInt32) :
    (alignUp n pageSize).toNat = roundUp n.toNat 0x1000 % 2 ^ 32 := by
  have hn := n.toNat_lt
  have hpage : UInt32.toNat 0x1000 = 0x1000 := rfl
  have hone : UInt32.toNat 1 = 1 := rfl
  simp only [alignUp, pageSize, roundUp, UInt32.toNat_mul, UInt32.toNat_div, UInt32.toNat_sub,
    UInt32.toNat_add, hpage, hone]
  omega

theorem alignUp_dvd (n : UInt32) : 0x1000 ∣ (alignUp n pageSize).toNat := by
  rw [alignUp_toNat]
  exact (Nat.dvd_mod_iff (by norm_num)).mpr (dvd_roundUp ..)

theorem le_alignUp (n : UInt32) : n ≤ alignUp n pageSize ∨ alignUp n pageSize = 0 := by
  have hn := n.toNat_lt
  have hle := le_roundUp (n := n.toNat) (a := 0x1000) (by norm_num)
  have hlt := roundUp_lt (n := n.toNat) (a := 0x1000) (by norm_num)
  have hdvd := dvd_roundUp n.toNat 0x1000
  rcases Nat.lt_or_ge (roundUp n.toNat 0x1000) (2 ^ 32) with hwrap | hwrap
  · left
    rwa [UInt32.le_iff_toNat_le, alignUp_toNat, Nat.mod_eq_of_lt hwrap]
  · right
    apply UInt32.toNat_inj.mp
    rw [alignUp_toNat]
    simp only [UInt32.toNat_zero]
    omega

/-! ### Segments one after the other -/

/-- The segments start at `off`, each at the next page boundary after the one before it. -/
def LaidOut : UInt32 → List Segment → Prop
  | _, [] => True
  | off, s :: rest => s.fileOffset = off ∧ LaidOut (alignUp (off + s.filesz) pageSize) rest

/-- Where the next segment goes after `segs` have been placed from `off` on. -/
def endOff : UInt32 → List Segment → UInt32
  | off, [] => off
  | off, s :: rest => endOff (alignUp (off + s.filesz) pageSize) rest

theorem LaidOut.append {off : UInt32} {segs segs' : List Segment} (h : LaidOut off segs)
    (h' : LaidOut (endOff off segs) segs') : LaidOut off (segs ++ segs') := by
  induction segs generalizing off with
  | nil => exact h'
  | cons s rest ih => exact ⟨h.1, ih h.2 h'⟩

theorem LaidOut.nextFileOffset {off : UInt32} {segs : List Segment} (h : LaidOut off segs)
    (hne : segs ≠ []) : nextFileOffset segs = endOff off segs := by
  induction segs generalizing off with
  | nil => exact absurd rfl hne
  | cons s rest ih =>
    cases rest with
    | nil =>
      obtain ⟨rfl, -⟩ := h
      rfl
    | cons s' rest' =>
      rw [endOff, ← ih h.2 (List.cons_ne_nil _ _)]
      simp [Winlift.nextFileOffset, List.getLast?_cons_cons]

/-! ### `pe_layout_to_elf_spec` -/

/-- A segment without its place in the file. -/
def unplace (s : Segment) : Segment := { s with fileOffset := 0 }

def imageSegments (img : PeImage) : List Segment :=
  headerSegment img 0 :: img.sections.map fun s => sectionSegment img s 0

structure LayoutOf (img : PeImage) (spec : Spec) : Prop where
  entry : spec.entry = img.imageBase + img.entryPointRva
  base_aligned : img.imageBase % pageSize = 0
  rva_aligned : ∀ s ∈ img.sections, s.rva % pageSize = 0
  segments : spec.segments.map unplace = imageSegments img
  laidOut : LaidOut pageSize spec.segments
  length_le : spec.segments.length ≤ elfMaxSegments

theorem layoutSections_eq_ok {img : PeImage} {ss : List PeSection} {off : UInt32}
    {segs : List Segment} (h : layoutSections img ss off = .ok segs) :
    (∀ s ∈ ss, s.rva % pageSize = 0) ∧
      segs.map unplace = ss.map (fun s => sectionSegment img s 0) ∧ LaidOut off segs := by
  induction ss generalizing off segs with
  | nil => cases h; exact ⟨by simp, rfl, trivial⟩
  | cons s rest ih =>
    obtain ⟨u, hrva, h⟩ := Res.bind_eq_ok.mp h
    obtain ⟨segs', hrest, h⟩ := Res.bind_eq_ok.mp h
    cases h
    obtain ⟨haligned, hsegs, hlaid⟩ := ih hrest
    refine ⟨?_, congrArg (sectionSegment img s 0 :: ·) hsegs, rfl, hlaid⟩
    intro s' hs'
    rcases List.mem_cons.mp hs' with rfl | hs'
    · exact Decidable.not_not.mp (Res.rejectIf_eq_ok.mp hrva)
    · exact haligned s' hs'

theorem peLayoutToElfSpec_eq_ok {img : PeImage} {spec : Spec}
    (h : peLayoutToElfSpec img = .ok spec) : LayoutOf img spec := by
  obtain ⟨u, hn, h⟩ := Res.bind_eq_ok.mp h
  obtain ⟨u, hbase, h⟩ := Res.bind_eq_ok.mp h
  obtain ⟨segs, hsegs, h⟩ := Res.bind_eq_ok.mp h
  cases h
  obtain ⟨haligned, hof, hlaid⟩ := layoutSections_eq_ok hsegs
  rw [Res.rejectIf_eq_ok, not_or, Nat.not_lt] at hn
  refine ⟨rfl, Decidable.not_not.mp (Res.rejectIf_eq_ok.mp hbase), haligned,
    congrArg (headerSegment img 0 :: ·) hof, ⟨rfl, hlaid⟩, ?_⟩
  have hlen := congrArg List.length hof
  rw [List.length_map, List.length_map] at hlen
  rw [List.length_cons, hlen]
  exact hn.2

/-! ### `stub_patch_apply` -/

def shimLoads (blob : Buffer) : List Elf32Phdr := (elf32Phdrs blob).filter (·.pType = ptLoad)

def shimSegments (blob : Buffer) : List Segment := (shimLoads blob).map fun ph => shimSegment ph 0

structure StubPatchOf (blob : Buffer) (img : PeImage) (spec : Spec) (r : StubPatched) : Prop where
  below_shim : img.imageBase + img.sizeOfImage ≤ shimMinBase
  patched : patchImports blob img.imports img = .ok r.img
  target : ∃ target, shimFindSymbol blob (cBytes "shim_pe_entry_target") = .ok (some target) ∧
    shimPoke32 blob blob target (img.imageBase + img.entryPointRva) = .ok r.shim
  entry : shimFindSymbol blob (cBytes "_start") = .ok (some r.spec.entry)
  segments : ∃ segs, r.spec.segments = spec.segments ++ segs ∧
    segs.map unplace = shimSegments blob ∧ LaidOut (nextFileOffset spec.segments) segs
  length_le : spec.segments.length ≤ elfMaxSegments → r.spec.segments.length ≤ elfMaxSegments

theorem patchFuncs_frame {blob : Buffer} {dllName : List UInt8} {funcs : List PeImportFunc}
    {img img' : PeImage} (h : patchFuncs blob dllName funcs img = .ok img') :
    img' = { img with raw := img'.raw } ∧ img'.raw.size = img.raw.size := by
  induction funcs generalizing img with
  | nil => cases h; exact ⟨rfl, rfl⟩
  | cons fn rest ih =>
    obtain ⟨addr, -, h⟩ := Res.bind_eq_ok.mp h
    obtain ⟨slot, -, h⟩ := Res.bind_eq_ok.mp h
    obtain ⟨raw, hraw, h⟩ := Res.bind_eq_ok.mp h
    obtain ⟨-, rfl⟩ := store32_eq_ok.mp hraw
    obtain ⟨he, hs⟩ := ih h
    exact ⟨he, hs⟩

theorem patchImports_frame {blob : Buffer} {dlls : List PeImportDll} {img img' : PeImage}
    (h : patchImports blob dlls img = .ok img') :
    img' = { img with raw := img'.raw } ∧ img'.raw.size = img.raw.size := by
  induction dlls generalizing img with
  | nil => cases h; exact ⟨rfl, rfl⟩
  | cons dll rest ih =>
    obtain ⟨img₁, h₁, h⟩ := Res.bind_eq_ok.mp h
    obtain ⟨he₁, hs₁⟩ := patchFuncs_frame h₁
    obtain ⟨he, hs⟩ := ih h
    refine ⟨?_, hs.trans hs₁⟩
    rw [he, he₁]

theorem appendShim_eq_ok {blob : Buffer} {phdrs n i : Nat} {off : UInt32} {segs segs' : List Segment}
    (h : appendShim blob phdrs n i off segs = .ok segs') :
    ∃ new, segs' = segs ++ new ∧ LaidOut off new ∧
      new.map unplace = (((List.range' i n).map fun k =>
        elf32PhdrAt blob (phdrs + k * elf32PhdrSize)).filter (·.pType = ptLoad)).map
          (fun ph => shimSegment ph 0) ∧
      (segs.length ≤ elfMaxSegments → segs'.length ≤ elfMaxSegments) := by
  induction n generalizing i off segs with
  | zero =>
    cases h
    exact ⟨[], (List.append_nil _).symm, trivial, rfl, id⟩
  | succ n ih =>
    obtain ⟨p, hp, h⟩ := Res.bind_eq_ok.mp h
    obtain ⟨hp, -⟩ := readable_eq_ok.mp hp
    cases hp
    rw [List.range'_succ, List.map_cons]
    dsimp only at h
    split_ifs at h with hload
    · obtain ⟨new, hnew, hlaid, hof, hlen⟩ := ih h
      refine ⟨new, hnew, hlaid, ?_, hlen⟩
      rwa [List.filter_cons_of_neg (by simpa using hload)]
    · obtain ⟨u, hroom, h⟩ := Res.bind_eq_ok.mp h
      obtain ⟨new, hnew, hlaid, hof, hlen⟩ := ih h
      rw [Res.rejectIf_eq_ok, Nat.not_le] at hroom
      refine ⟨_ :: new, ?_, ⟨rfl, hlaid⟩, ?_, fun _ => ?_⟩
      · rw [hnew, List.append_assoc]; rfl
      · rw [List.filter_cons_of_pos (by simpa using hload)]
        exact congrArg (shimSegment _ 0 :: ·) hof
      · refine hlen ?_
        rw [List.length_append]
        exact hroom

theorem stubPatchApply_eq_ok {grant : Nat → Bool} {blob : Buffer} {img : PeImage} {spec : Spec}
    {r : StubPatched} (h : stubPatchApply grant blob img spec = .ok r) :
    StubPatchOf blob img spec r := by
  unfold stubPatchApply at h
  obtain ⟨u, hbelow, h⟩ := Res.bind_eq_ok.mp h
  obtain ⟨img', himg, h⟩ := Res.bind_eq_ok.mp h
  obtain ⟨u, -, h⟩ := Res.bind_eq_ok.mp h
  obtain ⟨target?, htarget, h⟩ := Res.bind_eq_ok.mp h
  obtain ⟨target, ht, h⟩ := Res.bind_eq_ok.mp h
  obtain ⟨start?, hstart, h⟩ := Res.bind_eq_ok.mp h
  obtain ⟨start, hs, h⟩ := Res.bind_eq_ok.mp h
  obtain ⟨shim, hshim, h⟩ := Res.bind_eq_ok.mp h
  obtain ⟨eh, heh, h⟩ := Res.bind_eq_ok.mp h
  obtain ⟨segs, hsegs, h⟩ := Res.bind_eq_ok.mp h
  cases h
  obtain rfl := Res.orReject_eq_ok.mp ht
  obtain rfl := Res.orReject_eq_ok.mp hs
  obtain ⟨p, hp, heh⟩ := Res.bind_eq_ok.mp heh
  obtain ⟨hp, -⟩ := readable_eq_ok.mp hp
  cases hp
  cases heh
  obtain ⟨new, hnew, hlaid, hof, hlen⟩ := appendShim_eq_ok hsegs
  obtain ⟨hframe, -⟩ := patchImports_frame himg
  refine ⟨?_, himg, ⟨target, htarget, ?_⟩, hstart, ⟨new, hnew, ?_, hlaid⟩, hlen⟩
  · exact UInt32.not_lt.mp (Res.rejectIf_eq_ok.mp hbelow)
  · rw [hframe] at hshim; exact hshim
  · rwa [shimSegments, shimLoads, elf32Phdrs, List.range_eq_range']

/-- The file sizes of all segments of the output file, headers and sections first. -/
def fileSizes (img : PeImage) (blob : Buffer) : List Nat :=
  img.sizeOfHeaders.toNat :: (img.sections.map (·.fsize.toNat) ++
    (shimLoads blob).map (·.pFilesz.toNat))

/-- What the segments take in the file, page by page, the last one left out. -/
def pagesBeforeLast (fileSizes : List Nat) : Nat :=
  (fileSizes.dropLast.map (roundUp · 0x1000)).sum

/-! ### Data in the file -/

section data
variable (img : PeImage) (spec : Spec)

def DataInFile : Prop :=
  ∀ seg ∈ spec.segments, 0 < seg.filesz →
    ∃ d, seg.data = some ⟨.raw, d⟩ ∧ d + seg.filesz.toNat ≤ img.raw.size

variable {img spec}

/-- The layout copies `SizeOfHeaders` bytes from the start of the file, which nothing has compared with
the file's size. -/
theorem dataInFile_iff {alloc : Alloc} {fuel : Nat} {raw : Buffer}
    (himg : peImageLoad alloc fuel raw = .ok img) (hspec : peLayoutToElfSpec img = .ok spec) :
    DataInFile img spec ↔ img.sizeOfHeaders.toNat ≤ raw.size := by
  have hof := peImageLoad_eq_ok himg
  have hsegs := (peLayoutToElfSpec_eq_ok hspec).segments
  have hunplace : DataInFile img spec ↔ ∀ seg ∈ imageSegments img, 0 < seg.filesz →
      ∃ d, seg.data = some ⟨.raw, d⟩ ∧ d + seg.filesz.toNat ≤ img.raw.size := by
    rw [← hsegs]
    simp only [List.forall_mem_map]
    rfl
  rw [hunplace, imageSegments, List.forall_mem_cons, List.forall_mem_map, ← hof.raw_eq]
  constructor
  · rintro ⟨hhdr, -⟩
    by_cases hpos : 0 < img.sizeOfHeaders
    · obtain ⟨d, hd, hle⟩ := hhdr hpos
      rw [headerSegment, if_pos hpos] at hd
      cases hd
      rwa [Nat.zero_add] at hle
    · have hzero : ¬ 0 < img.sizeOfHeaders.toNat := hpos
      omega
  · refine fun hle => ⟨fun hpos => ⟨0, if_pos hpos, ?_⟩, fun s hs hpos => ⟨s.fileOff.toNat, if_pos hpos, ?_⟩⟩
    · rw [Nat.zero_add]; exact hle
    · rw [hof.raw_eq]; exact hof.sections_in_file s hs

end data

theorem dataInFile_minimalNoimport : ∃ img spec,
    peImageLoad .generous 1 MkMiniPe.minimalNoimport = .ok img ∧ peLayoutToElfSpec img = .ok spec ∧
      DataInFile img spec := by
  have hrun : (peImageLoad .generous 1 MkMiniPe.minimalNoimport).okAnd fun img =>
      (peLayoutToElfSpec img).okAnd fun _ =>
        img.sizeOfHeaders.toNat ≤ MkMiniPe.minimalNoimport.size := by decide +kernel
  obtain ⟨img, spec, himg, hspec, hle⟩ := loads_of_okAnd hrun
  exact ⟨img, spec, himg, hspec, (dataInFile_iff himg hspec).mpr (of_decide_eq_true hle)⟩

def longHeadersFile : Buffer := MkMiniPe.minimalNoimport.patches [(148, 0x2000)]

theorem longHeadersFile_data_outside : ¬ ∀ alloc fuel raw img spec,
    peImageLoad alloc fuel raw = .ok img → peLayoutToElfSpec img = .ok spec → DataInFile img spec := by
  intro h
  have hrun : (peImageLoad .generous 1 longHeadersFile).okAnd fun img =>
      (peLayoutToElfSpec img).okAnd fun spec =>
        img.raw.size = 1024 ∧ ∃ seg ∈ spec.segments, seg.data = some ⟨.raw, 0⟩ ∧ seg.filesz = 0x2000 := by
    decide +kernel
  obtain ⟨img, spec, himg, hspec, hrun⟩ := loads_of_okAnd hrun
  obtain ⟨hsize, seg, hmem, hdata, hfilesz⟩ := of_decide_eq_true hrun
  obtain ⟨d, hd, hle⟩ := h _ _ _ _ _ himg hspec seg hmem (by rw [hfilesz]; decide)
  rw [hdata] at hd
  cases hd
  rw [hsize, hfilesz] at hle
  exact absurd hle (by decide)

/-! ### Below the shim -/

section below
variable (img : PeImage) (segs : List Segment)

/-- Every part of the PE image ends below the addresses of the shim, in exact integers. The parts are
the headers at RVA 0 and the sections, in the order of their segments. -/
def BelowShim : Prop :=
  ∀ p ∈ (0 :: img.sections.map (·.rva)).zip segs,
    img.imageBase.toNat + p.1.toNat + p.2.memsz.toNat ≤ shimMinBase.toNat

/-- The first RVA after all parts of the image, in exact integers. -/
def peExtent : Nat :=
  (img.sections.map fun s => s.rva.toNat + max s.vsize.toNat s.fsize.toNat).foldr max
    img.sizeOfHeaders.toNat

theorem peExtent_le_iff (n : Nat) : peExtent img ≤ n ↔ img.sizeOfHeaders.toNat ≤ n ∧
    ∀ s ∈ img.sections, s.rva.toNat + max s.vsize.toNat s.fsize.toNat ≤ n := by
  unfold peExtent
  induction img.sections with
  | nil => simp
  | cons s rest ih =>
    rw [List.map_cons, List.foldr_cons, Nat.max_le, ih, List.forall_mem_cons]
    exact and_left_comm

end below

theorem sectionSegment_memsz (img : PeImage) (s : PeSection) (off : UInt32) :
    (sectionSegment img s off).memsz.toNat = max s.vsize.toNat s.fsize.toNat := by
  simp only [sectionSegment]
  split
  · rename_i h
    have h' : s.fsize.toNat < s.vsize.toNat := h
    omega
  · rename_i h
    have h' : ¬ s.fsize.toNat < s.vsize.toNat := h
    omega

theorem zip_map_append {α β γ : Type} (f : α → β) (g : α → γ) (l : List α) (t : List γ) :
    (l.map f).zip (l.map g ++ t) = l.map fun a => (f a, g a) := by
  induction l with
  | nil => rfl
  | cons a l ih => simp only [List.map_cons, List.cons_append, List.zip_cons_cons, ih]

/-- A file that gets past the guard is below the shim iff all its parts are: the guard has only added
`ImageBase` and `SizeOfImage`, in 32 bits. -/
theorem belowShim_iff {blob : Buffer} {img : PeImage} {spec : Spec} {grant : Nat → Bool}
    {r : StubPatched} (hspec : peLayoutToElfSpec img = .ok spec)
    (hr : stubPatchApply grant blob img spec = .ok r) :
    BelowShim img r.spec.segments ↔ img.imageBase.toNat + peExtent img ≤ shimMinBase.toNat := by
  obtain ⟨segs, hsegs, -, -⟩ := (stubPatchApply_eq_ok hr).segments
  have hunplace : BelowShim img r.spec.segments ↔
      BelowShim img (imageSegments img ++ segs.map unplace) := by
    rw [← (peLayoutToElfSpec_eq_ok hspec).segments, ← List.map_append, ← hsegs]
    simp only [BelowShim, List.zip_map_right, List.forall_mem_map]
    rfl
  rw [hunplace, BelowShim, imageSegments, List.cons_append, List.zip_cons_cons, zip_map_append,
    List.forall_mem_cons, List.forall_mem_map]
  simp only [sectionSegment_memsz, headerSegment, UInt32.toNat_zero, Nat.add_zero]
  constructor
  · rintro ⟨hhdr, hsec⟩
    have hle : peExtent img ≤ shimMinBase.toNat - img.imageBase.toNat :=
      (peExtent_le_iff img _).mpr ⟨by omega, fun s hs => by have := hsec s hs; omega⟩
    omega
  · intro hle
    obtain ⟨hhdr, hsec⟩ := (peExtent_le_iff img (shimMinBase.toNat - img.imageBase.toNat)).mp (by omega)
    exact ⟨by omega, fun s hs => by have := hsec s hs; omega⟩

/-- The guard keeps the promise for an image that `SizeOfImage` covers and that does not wrap. -/
theorem belowShim_of_covered {blob : Buffer} {img : PeImage} {spec : Spec} {grant : Nat → Bool}
    {r : StubPatched} (hspec : peLayoutToElfSpec img = .ok spec)
    (hr : stubPatchApply grant blob img spec = .ok r)
    (hwrap : img.imageBase.toNat + img.sizeOfImage.toNat < 2 ^ 32)
    (hcover : peExtent img ≤ img.sizeOfImage.toNat) : BelowShim img r.spec.segments := by
  have hguard := UInt32.le_iff_toNat_le.mp (stubPatchApply_eq_ok hr).below_shim
  rw [toNat_add_of_lt hwrap] at hguard
  exact (belowShim_iff hspec hr).mpr (by omega)

theorem ordinalImport_converts : ∃ img spec r,
    peImageLoad .generous 9 MkMiniPe.ordinalImport = .ok img ∧ peLayoutToElfSpec img = .ok spec ∧
      stubPatchApply (fun _ => true) miniShim img spec = .ok r ∧
      (img.imageBase.toNat + img.sizeOfImage.toNat < 2 ^ 32 ∧ peExtent img ≤ img.sizeOfImage.toNat) ∧
      0x1000 + pagesBeforeLast (fileSizes img miniShim) < 2 ^ 32 ∧
      (elfWrite .working r.mem r.spec).opened = true := by
  have hrun : (peImageLoad .generous 9 MkMiniPe.ordinalImport).okAnd fun img =>
      (peLayoutToElfSpec img).okAnd fun spec =>
        (stubPatchApply (fun _ => true) miniShim img spec).okAnd fun r =>
          (img.imageBase.toNat + img.sizeOfImage.toNat < 2 ^ 32 ∧ peExtent img ≤ img.sizeOfImage.toNat) ∧
            0x1000 + pagesBeforeLast (fileSizes img miniShim) < 2 ^ 32 ∧
            (elfWrite .working r.mem r.spec).opened = true := by decide +kernel
  obtain ⟨img, spec, r, himg, hspec, hr, hrun⟩ := converts_of_okAnd hrun
  exact ⟨img, spec, r, himg, hspec, hr, of_decide_eq_true hrun⟩

theorem belowShim_ordinalImport : ∃ img spec r,
    peImageLoad .generous 9 MkMiniPe.ordinalImport = .ok img ∧ peLayoutToElfSpec img = .ok spec ∧
      stubPatchApply (fun _ => true) miniShim img spec = .ok r ∧ BelowShim img r.spec.segments := by
  obtain ⟨img, spec, r, himg, hspec, hr, ⟨hwrap, hcover⟩, -⟩ := ordinalImport_converts
  exact ⟨img, spec, r, himg, hspec, hr, belowShim_of_covered hspec hr hwrap hcover⟩

/-- A file with its section at the shim's first address, and a `SizeOfImage` that makes the guard's sum
wrap. -/
def wrappedImageFile : Buffer :=
  MkMiniPe.minimalNoimport.patches [(116, 0x0EFFF000), (144, 0xF2001000)]

theorem wrappedImageFile_reaches_shim : ¬ ∀ alloc fuel raw grant blob img spec r,
    peImageLoad alloc fuel raw = .ok img → peLayoutToElfSpec img = .ok spec →
      stubPatchApply grant blob img spec = .ok r → BelowShim img r.spec.segments := by
  intro h
  have hrun : (peImageLoad .generous 1 wrappedImageFile).okAnd fun img =>
      (peLayoutToElfSpec img).okAnd fun spec =>
        (stubPatchApply (fun _ => true) miniShim img spec).okAnd fun r =>
          ∃ p ∈ (0 :: img.sections.map (·.rva)).zip r.spec.segments,
            shimMinBase.toNat < img.imageBase.toNat + p.1.toNat + p.2.memsz.toNat := by
    decide +kernel
  obtain ⟨img, spec, r, himg, hspec, hr, hrun⟩ := converts_of_okAnd hrun
  obtain ⟨p, hp, hlt⟩ := of_decide_eq_true hrun
  exact absurd (h _ _ _ _ _ _ _ _ himg hspec hr p hp) (Nat.not_le.mpr hlt)

/-! ### Sorted by file offset -/

/-- The precondition of `elf_write` in exact integers: page-aligned file ranges, behind the program
headers, in order and disjoint. -/
structure SortedInFile (segs : List Segment) : Prop where
  aligned : ∀ s ∈ segs, 0x1000 ∣ s.fileOffset.toNat
  after_headers : ∀ s, segs.head? = some s → 52 + 32 * segs.length ≤ s.fileOffset.toNat
  ordered : segs.IsChain fun s t => s.fileOffset.toNat + s.filesz.toNat ≤ t.fileOffset.toNat

theorem nextOff_toNat {off : UInt32} (hoff : 0x1000 ∣ off.toNat) (filesz : UInt32) :
    (alignUp (off + filesz) pageSize).toNat =
      (off.toNat + roundUp filesz.toNat 0x1000) % 2 ^ 32 := by
  rw [alignUp_toNat, UInt32.toNat_add]
  unfold roundUp
  omega

theorem le_nextOff_iff {off : UInt32} (hoff : 0x1000 ∣ off.toNat) (filesz : UInt32) :
    off.toNat + filesz.toNat ≤ (alignUp (off + filesz) pageSize).toNat ↔
      off.toNat + roundUp filesz.toNat 0x1000 < 2 ^ 32 := by
  have hle := le_roundUp (n := filesz.toNat) (a := 0x1000) (by norm_num)
  have hlt := roundUp_lt (n := filesz.toNat) (a := 0x1000) (by norm_num)
  have ho := off.toNat_lt
  have hf := filesz.toNat_lt
  have hdvd := dvd_roundUp filesz.toNat 0x1000
  rw [nextOff_toNat hoff]
  omega

theorem LaidOut.aligned {off : UInt32} {segs : List Segment} (h : LaidOut off segs)
    (hoff : 0x1000 ∣ off.toNat) : ∀ s ∈ segs, 0x1000 ∣ s.fileOffset.toNat := by
  induction segs generalizing off with
  | nil => simp
  | cons s rest ih =>
    rw [List.forall_mem_cons]
    exact ⟨h.1 ▸ hoff, ih h.2 (alignUp_dvd _)⟩

theorem LaidOut.ordered_iff {off : UInt32} {segs : List Segment} (h : LaidOut off segs)
    (hoff : 0x1000 ∣ off.toNat) :
    segs.IsChain (fun s t => s.fileOffset.toNat + s.filesz.toNat ≤ t.fileOffset.toNat) ↔
      off.toNat + pagesBeforeLast (segs.map (·.filesz.toNat)) < 2 ^ 32 := by
  induction segs generalizing off with
  | nil => simpa [pagesBeforeLast] using off.toNat_lt
  | cons s rest ih =>
    cases rest with
    | nil => simpa [pagesBeforeLast] using off.toNat_lt
    | cons t rest =>
      obtain ⟨rfl, hrest⟩ := h
      have hcons : pagesBeforeLast ((s :: t :: rest).map (·.filesz.toNat)) =
          roundUp s.filesz.toNat 0x1000 + pagesBeforeLast ((t :: rest).map (·.filesz.toNat)) := by
        simp [pagesBeforeLast]
      rw [List.isChain_cons_cons, hrest.1, le_nextOff_iff hoff, ih hrest (alignUp_dvd _), hcons,
        nextOff_toNat hoff]
      constructor
      · rintro ⟨hlt, hsum⟩
        rw [Nat.mod_eq_of_lt hlt] at hsum
        omega
      · intro hsum
        have hlt : s.fileOffset.toNat + roundUp s.filesz.toNat 0x1000 < 2 ^ 32 := by omega
        refine ⟨hlt, ?_⟩
        rw [Nat.mod_eq_of_lt hlt]
        omega

theorem laidOut_all {blob : Buffer} {img : PeImage} {spec : Spec} {r : StubPatched}
    (hspec : LayoutOf img spec) (hr : StubPatchOf blob img spec r) :
    LaidOut pageSize r.spec.segments := by
  obtain ⟨segs, hsegs, -, hlaid⟩ := hr.segments
  have hne : spec.segments ≠ [] := by
    intro hnil
    have h := hspec.segments
    rw [hnil] at h
    cases h
  rw [hspec.laidOut.nextFileOffset hne] at hlaid
  rw [hsegs]
  exact hspec.laidOut.append hlaid

theorem unplace_all {blob : Buffer} {img : PeImage} {spec : Spec} {r : StubPatched}
    (hspec : LayoutOf img spec) (hr : StubPatchOf blob img spec r) :
    r.spec.segments.map unplace = imageSegments img ++ shimSegments blob := by
  obtain ⟨segs, hsegs, hshim, -⟩ := hr.segments
  rw [hsegs, List.map_append, hspec.segments, hshim]

/-- The output file is in order iff its pages before the last segment fit below `2^32`. -/
theorem sortedInFile_iff {blob : Buffer} {img : PeImage} {spec : Spec} {grant : Nat → Bool}
    {r : StubPatched} (hspec : peLayoutToElfSpec img = .ok spec)
    (hr : stubPatchApply grant blob img spec = .ok r) : SortedInFile r.spec.segments ↔
      0x1000 + pagesBeforeLast (fileSizes img blob) < 2 ^ 32 := by
  have hlay := peLayoutToElfSpec_eq_ok hspec
  have hstub := stubPatchApply_eq_ok hr
  have hlaid := laidOut_all hlay hstub
  have hpage : 0x1000 ∣ pageSize.toNat := Nat.dvd_refl _
  have hsizes : r.spec.segments.map (·.filesz.toNat) = fileSizes img blob := by
    have hunplace := congrArg (List.map fun s : Segment => s.filesz.toNat) (unplace_all hlay hstub)
    rw [List.map_map] at hunplace
    refine hunplace.trans ?_
    simp [imageSegments, shimSegments, fileSizes, headerSegment, sectionSegment, shimSegment,
      Function.comp_def]
  have hord := hlaid.ordered_iff hpage
  rw [hsizes] at hord
  refine ⟨fun h => hord.mp h.ordered, fun h => ⟨hlaid.aligned hpage, ?_, hord.mpr h⟩⟩
  intro s hs
  have hlen := hstub.length_le hlay.length_le
  cases hsegs : r.spec.segments with
  | nil => rw [hsegs] at hs; cases hs
  | cons t rest =>
    rw [hsegs] at hlaid hs hlen
    cases hs
    rw [hlaid.1]
    have hmax : elfMaxSegments = 64 := rfl
    have hval : pageSize.toNat = 0x1000 := rfl
    omega

theorem sortedInFile_ordinalImport : ∃ img spec r,
    peImageLoad .generous 9 MkMiniPe.ordinalImport = .ok img ∧ peLayoutToElfSpec img = .ok spec ∧
      stubPatchApply (fun _ => true) miniShim img spec = .ok r ∧ SortedInFile r.spec.segments := by
  obtain ⟨img, spec, r, himg, hspec, hr, -, hpages, -⟩ := ordinalImport_converts
  exact ⟨img, spec, r, himg, hspec, hr, (sortedInFile_iff hspec hr).mpr hpages⟩

def wrappedOffsetsFile : Buffer := MkMiniPe.minimalNoimport.patches [(148, 0xFFFFF001)]

theorem wrappedOffsetsFile_unsorted : ¬ ∀ alloc fuel raw grant blob img spec r,
    peImageLoad alloc fuel raw = .ok img → peLayoutToElfSpec img = .ok spec →
      stubPatchApply grant blob img spec = .ok r → SortedInFile r.spec.segments := by
  intro h
  have hrun : (peImageLoad .generous 1 wrappedOffsetsFile).okAnd fun img =>
      (peLayoutToElfSpec img).okAnd fun spec =>
        (stubPatchApply (fun _ => true) miniShim img spec).okAnd fun r =>
          ¬ r.spec.segments.IsChain fun s t =>
            s.fileOffset.toNat + s.filesz.toNat ≤ t.fileOffset.toNat := by decide +kernel
  obtain ⟨img, spec, r, himg, hspec, hr, hout⟩ := converts_of_okAnd hrun
  exact of_decide_eq_true hout (h _ _ _ _ _ _ _ _ himg hspec hr).ordered

end Winlift

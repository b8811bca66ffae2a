import Winlift.ImagePreserved
import Winlift.Main
import Winlift.SymbolSpec

/-!
# Which images are converted

`pe_layout_to_elf_spec` and `stub_patch_apply` each give up at the first thing they cannot do. On a blob
that the link has made (`ShimLinked`) none of these is the blob's fault, and neither function reads
outside it, so what is left is a condition on the image (`Convertible`), and it is exact (`convert_iff`).
-/

namespace Winlift
open CSem

/-- What the link of the shim gives besides `ShimBlobOk`: program headers and symbol tables inside the
blob, a `_start`, and a `shim_pe_entry_target` in the bytes of a segment. -/
structure ShimLinked (blob : Buffer) (secs : List (List Symbol)) : Prop where
  tables : SymbolTables blob secs
  phdrs_le : (elf32EhdrAt blob 0).ePhoff.toNat + (elf32EhdrAt blob 0).ePhnum.toNat * elf32PhdrSize ≤ blob.size
  start : (firstNamed (cBytes "_start") secs.flatten).isSome
  target : ∃ t, firstNamed (cBytes "shim_pe_entry_target") secs.flatten = some t ∧
    ∃ ph ∈ shimLoads blob, ph.pVaddr ≤ t ∧ t + 4 ≤ ph.pVaddr + ph.pFilesz

/-- The sum of the last line is the code's own, of 32 bits. -/
structure Convertible (alloc : Alloc) (blob : Buffer) (secs : List (List Symbol)) (img : PeImage) :
    Prop where
  has_sections : img.sections ≠ []
  segments_le : 1 + img.sections.length + (shimLoads blob).length ≤ elfMaxSegments
  base_aligned : 0x1000 ∣ img.imageBase.toNat
  rva_aligned : ∀ s ∈ img.sections, 0x1000 ∣ s.rva.toNat
  imports_bound : ∀ s ∈ importSlots img.imports, ∃ w, BindsFirst secs img s w
  copy_granted : alloc.shimCopy blob.size = true
  below_shim : img.imageBase + img.sizeOfImage ≤ shimMinBase

theorem mod_pageSize_iff (a : UInt32) : a % pageSize = 0 ↔ 0x1000 ∣ a.toNat := by
  rw [← UInt32.toNat_inj, UInt32.toNat_mod]
  exact Nat.dvd_iff_mod_eq_zero.symm

/-! ### The layout -/

section
variable {img : PeImage}

theorem exists_layoutSections {ss : List PeSection} (h : ∀ s ∈ ss, s.rva % pageSize = 0) (off : UInt32) :
    ∃ segs, layoutSections img ss off = .ok segs := by
  induction ss generalizing off with
  | nil => exact ⟨[], rfl⟩
  | cons s rest ih =>
    rw [List.forall_mem_cons] at h
    obtain ⟨segs, hsegs⟩ := ih h.2 (alignUp (off + (sectionSegment img s off).filesz) pageSize)
    refine ⟨sectionSegment img s off :: segs, ?_⟩
    rw [layoutSections, Res.rejectIf_of_not _ (not_not.mpr h.1), Res.ok_bind]
    dsimp only
    rw [hsegs]
    rfl

theorem LayoutOf.length_eq {spec : Spec} (h : LayoutOf img spec) :
    spec.segments.length = 1 + img.sections.length := by
  have hlen := congrArg List.length h.segments
  rwa [List.length_map, imageSegments, List.length_cons, List.length_map, Nat.add_comm] at hlen

theorem peLayoutToElfSpec_iff : (∃ spec, peLayoutToElfSpec img = .ok spec) ↔
    (img.sections ≠ [] ∧ 1 + img.sections.length ≤ elfMaxSegments) ∧ img.imageBase % pageSize = 0 ∧
      ∀ s ∈ img.sections, s.rva % pageSize = 0 := by
  constructor
  · rintro ⟨spec, h⟩
    have hlay := peLayoutToElfSpec_eq_ok h
    obtain ⟨u, hn, -⟩ := Res.bind_eq_ok.mp h
    rw [Res.rejectIf_eq_ok, not_or] at hn
    refine ⟨⟨fun hnil => hn.1 (by rw [hnil]; rfl), ?_⟩, hlay.base_aligned, hlay.rva_aligned⟩
    rw [← hlay.length_eq]
    exact hlay.length_le
  · rintro ⟨⟨hne, hlen⟩, hbase, hrva⟩
    obtain ⟨segs, hsegs⟩ := @exists_layoutSections img _ hrva
      (alignUp (pageSize + (headerSegment img pageSize).filesz) pageSize)
    have hcount : ¬ (img.sections.length = 0 ∨ elfMaxSegments < img.sections.length + 1) := by
      rw [List.length_eq_zero_iff, not_or]
      exact ⟨hne, by omega⟩
    refine ⟨⟨img.imageBase + img.entryPointRva, headerSegment img pageSize :: segs⟩, ?_⟩
    rw [peLayoutToElfSpec, Res.rejectIf_of_not _ hcount, Res.ok_bind,
      Res.rejectIf_of_not _ (not_not.mpr hbase), Res.ok_bind]
    dsimp only
    rw [hsegs]
    rfl

end

/-! ### The blob's program headers -/

section
variable {blob : Buffer} {phdrs n i : Nat}

/-- The program headers from header `i` on. -/
def phdrsFrom (blob : Buffer) (phdrs n i : Nat) : List Elf32Phdr :=
  (List.range' i n).map fun k => elf32PhdrAt blob (phdrs + k * elf32PhdrSize)

theorem phdrsFrom_succ : phdrsFrom blob phdrs (n + 1) i =
    elf32PhdrAt blob (phdrs + i * elf32PhdrSize) :: phdrsFrom blob phdrs n (i + 1) := by
  rw [phdrsFrom, List.range'_succ, List.map_cons]
  rfl

theorem shimLoads_eq (blob : Buffer) : shimLoads blob =
    (phdrsFrom blob (elf32EhdrAt blob 0).ePhoff.toNat (elf32EhdrAt blob 0).ePhnum.toNat 0).filter
      (·.pType = ptLoad) := by
  rw [shimLoads, elf32Phdrs, List.range_eq_range']
  rfl

/-- The first of the headers left is inside. -/
theorem phdr_readable (h : phdrs + (i + (n + 1)) * elf32PhdrSize ≤ blob.size) :
    (readable blob (some (phdrs + i * elf32PhdrSize)) elf32PhdrSize : Res String Nat) =
      .ok (phdrs + i * elf32PhdrSize) := by
  refine readable_of_le (Nat.le_trans ?_ h)
  rw [Nat.add_mul, Nat.succ_mul]
  omega

theorem exists_pokeFrom {shim : Buffer} {vaddr value : UInt32}
    (hsize : phdrs + (i + n) * elf32PhdrSize ≤ blob.size)
    (hroom : ∀ ph ∈ (phdrsFrom blob phdrs n i).filter (·.pType = ptLoad), ph.pVaddr ≤ vaddr →
      vaddr + 4 ≤ ph.pVaddr + ph.pFilesz → (ph.pOffset + (vaddr - ph.pVaddr)).toNat + 4 ≤ shim.size)
    (hin : ∃ ph ∈ (phdrsFrom blob phdrs n i).filter (·.pType = ptLoad),
      ph.pVaddr ≤ vaddr ∧ vaddr + 4 ≤ ph.pVaddr + ph.pFilesz) :
    ∃ shim', pokeFrom blob shim vaddr value phdrs n i = .ok shim' := by
  induction n generalizing i with
  | zero =>
    obtain ⟨ph, hph, -⟩ := hin
    cases hph
  | succ n ih =>
    rw [pokeFrom, phdr_readable hsize, Res.ok_bind]
    dsimp only
    rw [phdrsFrom_succ] at hroom hin
    generalize elf32PhdrAt blob (phdrs + i * elf32PhdrSize) = ph at *
    split
    · rename_i hhit
      have hph : ph ∈ (ph :: phdrsFrom blob phdrs n (i + 1)).filter (·.pType = ptLoad) :=
        List.mem_filter.mpr ⟨List.mem_cons_self, decide_eq_true hhit.1⟩
      exact ⟨_, store32_eq_ok.mpr ⟨hroom ph hph hhit.2.1 hhit.2.2, rfl⟩⟩
    · rename_i hmiss
      refine ih (by rwa [Nat.add_right_comm, Nat.add_assoc]) (fun ph' hph' => hroom ph' ?_) ?_
      · rw [List.mem_filter] at hph' ⊢
        exact ⟨List.mem_cons_of_mem ph hph'.1, hph'.2⟩
      · obtain ⟨ph', hph', hcover⟩ := hin
        rw [List.mem_filter] at hph'
        rcases List.mem_cons.mp hph'.1 with rfl | hrest
        · exact absurd ⟨of_decide_eq_true hph'.2, hcover⟩ hmiss
        · exact ⟨ph', List.mem_filter.mpr ⟨hrest, hph'.2⟩, hcover⟩

/-- The segments are appended as long as there is room for all of them. -/
theorem exists_appendShim {off : UInt32} {segs : List Segment}
    (hsize : phdrs + (i + n) * elf32PhdrSize ≤ blob.size)
    (hlen : segs.length + ((phdrsFrom blob phdrs n i).filter (·.pType = ptLoad)).length ≤ elfMaxSegments) :
    ∃ segs', appendShim blob phdrs n i off segs = .ok segs' := by
  induction n generalizing i off segs with
  | zero => exact ⟨segs, rfl⟩
  | succ n ih =>
    have hrest : phdrs + (i + 1 + n) * elf32PhdrSize ≤ blob.size := by
      rwa [Nat.add_right_comm, Nat.add_assoc]
    rw [appendShim, phdr_readable hsize, Res.ok_bind]
    dsimp only
    rw [phdrsFrom_succ] at hlen
    generalize elf32PhdrAt blob (phdrs + i * elf32PhdrSize) = ph at *
    by_cases hload : ph.pType = ptLoad
    · rw [List.filter_cons_of_pos (by rwa [decide_eq_true_eq]), List.length_cons] at hlen
      rw [if_neg (not_not.mpr hload), Res.rejectIf_of_not _ (by omega), Res.ok_bind]
      refine ih hrest ?_
      rw [List.length_append, List.length_singleton]
      omega
    · rw [List.filter_cons_of_neg (by rwa [decide_eq_true_eq])] at hlen
      rw [if_pos hload]
      exact ih hrest hlen

end

/-! ### The conversion -/

section
variable {blob : Buffer} {secs : List (List Symbol)} {img : PeImage}

theorem cBytes_start_no_nul : 0 ∉ cBytes "_start" := by decide

theorem cBytes_target_no_nul : 0 ∉ cBytes "shim_pe_entry_target" := by decide

/-- What memory holds of the shim's symbols, said by the symbol tables. -/
theorem ImagePreserved.symbols {img : PeImage} {raw : Buffer} {mem : Nat → UInt8}
    (hmem : ImagePreserved blob img raw mem) (h : SymbolTables blob secs) :
    (∀ dll ∈ img.imports, ∀ fn ∈ dll.funcs, ∃ e addr, shimLookupImport dll.dllName fn.name = some e ∧
      firstNamed e.shimSymbol secs.flatten = some addr ∧
        ∀ k < 4, mem (img.imageBase.toNat + (fn.iatRva.toNat + k)) = leByte addr k) ∧
    ∃ target, firstNamed (cBytes "shim_pe_entry_target") secs.flatten = some target ∧
      ∀ k < 4, mem (target.toNat + k) = leByte (img.imageBase + img.entryPointRva) k := by
  constructor
  · intro dll hdll fn hfn
    obtain ⟨e, addr, he, hfind, hbytes⟩ := hmem.slots dll hdll fn hfn
    rw [shimFindSymbol_eq h (shimSymbol_no_nul e (List.mem_of_find?_eq_some he))] at hfind
    exact ⟨e, addr, he, Res.ok.inj hfind, hbytes⟩
  · obtain ⟨target, hfind, hbytes, -⟩ := hmem.shim
    rw [shimFindSymbol_eq h cBytes_target_no_nul] at hfind
    exact ⟨target, Res.ok.inj hfind, hbytes⟩

theorem ShimLinked.ehdr (h : ShimLinked blob secs) : shimEhdr blob = .ok (elf32EhdrAt blob 0) := by
  rw [shimEhdr, readable_of_le (by rw [Nat.zero_add]; exact h.tables.1), Res.ok_bind]

theorem ShimLinked.exists_poke (h : ShimLinked blob secs) (hblob : ShimBlobOk blob) (value : UInt32) :
    ∃ t shim, shimFindSymbol blob (cBytes "shim_pe_entry_target") = .ok (some t) ∧
      shimPoke32 blob blob t value = .ok shim := by
  obtain ⟨t, ht, hin⟩ := h.target
  have hfind : shimFindSymbol blob (cBytes "shim_pe_entry_target") = .ok (some t) := by
    rw [shimFindSymbol_eq h.tables cBytes_target_no_nul, ht]
  have hvaddr := hblob.target_lt t hfind
  have hroom : ∀ ph ∈ shimLoads blob, ph.pVaddr ≤ t → t + 4 ≤ ph.pVaddr + ph.pFilesz →
      (ph.pOffset + (t - ph.pVaddr)).toNat + 4 ≤ blob.size := by
    intro ph hph hlo hhi
    have hregion : ph.region ∈ shimRegions blob := List.mem_map_of_mem hph
    have hbytes := hblob.in_blob _ hregion
    have hbound := (hblob.bounds _ hregion).2
    have hsize := hblob.size_lt
    have hfour : UInt32.toNat 4 = 4 := rfl
    simp only [Elf32Phdr.region, Region.addrs] at hbytes hbound
    rw [UInt32.le_iff_toNat_le] at hlo hhi
    rw [toNat_add_of_lt (by omega), toNat_add_of_lt (by omega), hfour] at hhi
    rw [toNat_add_of_lt (by rw [toNat_sub_of_le hlo]; omega), toNat_sub_of_le hlo]
    omega
  rw [shimLoads_eq] at hin hroom
  obtain ⟨shim, hshim⟩ := @exists_pokeFrom blob _ _ 0 blob t value (by rw [Nat.zero_add]; exact h.phdrs_le)
    hroom hin
  refine ⟨t, shim, hfind, ?_⟩
  rw [shimPoke32, h.ehdr, Res.ok_bind]
  exact hshim

theorem stubPatchApply_iff (h : ShimLinked blob secs) (hblob : ShimBlobOk blob) {grant : Nat → Bool}
    {spec : Spec} (hspec : spec.segments.length ≤ elfMaxSegments) :
    (∃ r, stubPatchApply grant blob img spec = .ok r) ↔
      img.imageBase + img.sizeOfImage ≤ shimMinBase ∧
      (∀ s ∈ importSlots img.imports, ∃ w, BindsFirst secs img s w) ∧ grant blob.size = true ∧
        spec.segments.length + (shimLoads blob).length ≤ elfMaxSegments := by
  constructor
  · rintro ⟨r, hr⟩
    have hstub := stubPatchApply_eq_ok hr
    obtain ⟨segs, hsegs, hshim, -⟩ := hstub.segments
    refine ⟨hstub.below_shim, (patchImports_iff h.tables img).mp ⟨_, hstub.patched⟩, ?_, ?_⟩
    · obtain ⟨u, -, hr⟩ := Res.bind_eq_ok.mp hr
      obtain ⟨img', -, hr⟩ := Res.bind_eq_ok.mp hr
      obtain ⟨u, hcopy, -⟩ := Res.bind_eq_ok.mp hr
      exact Bool.not_eq_false _ ▸ Res.rejectIf_eq_ok.mp hcopy
    · have hlen := congrArg List.length hshim
      rw [List.length_map, shimSegments, List.length_map] at hlen
      have hle := hstub.length_le hspec
      rwa [hsegs, List.length_append, hlen] at hle
  · rintro ⟨hbelow, hbound, hcopy, hlen⟩
    obtain ⟨img', himg'⟩ := (patchImports_iff h.tables img).mpr hbound
    obtain ⟨hframe, -⟩ := patchImports_frame himg'
    obtain ⟨t, shim, ht, hpoke⟩ := h.exists_poke hblob (img.imageBase + img.entryPointRva)
    obtain ⟨start, hstart⟩ := Option.isSome_iff_exists.mp h.start
    rw [shimLoads_eq] at hlen
    obtain ⟨segs, hsegs⟩ := @exists_appendShim blob _ _ 0 (nextFileOffset spec.segments) spec.segments
      (by rw [Nat.zero_add]; exact h.phdrs_le) hlen
    have hentry : img'.imageBase + img'.entryPointRva = img.imageBase + img.entryPointRva := by rw [hframe]
    refine ⟨⟨img', shim, ⟨start, segs⟩⟩, ?_⟩
    rw [stubPatchApply, Res.rejectIf_of_not _ (UInt32.not_lt.mpr hbelow), Res.ok_bind, himg', Res.ok_bind,
      Res.rejectIf_of_not _ (by rw [hcopy]; exact Bool.noConfusion), Res.ok_bind, ht, Res.ok_bind,
      Res.orReject_eq_ok.mpr rfl, Res.ok_bind, shimFindSymbol_eq h.tables cBytes_start_no_nul, Res.ok_bind,
      Res.orReject_eq_ok.mpr hstart, Res.ok_bind, hentry, hpoke, Res.ok_bind, h.ehdr, Res.ok_bind, hsegs]
    rfl

theorem convertible_of_ok (h : ShimLinked blob secs) (hblob : ShimBlobOk blob) {alloc : Alloc}
    {img : PeImage} {r : StubPatched} (hr : convert alloc blob img = .ok r) :
    Convertible alloc blob secs img := by
  obtain ⟨spec, hspec, hr⟩ := Res.bind_eq_ok.mp hr
  have hlay := peLayoutToElfSpec_eq_ok hspec
  obtain ⟨⟨hne, -⟩, hbase, hrva⟩ := peLayoutToElfSpec_iff.mp ⟨spec, hspec⟩
  obtain ⟨hbelow, hbound, hcopy, hlen⟩ := (stubPatchApply_iff h hblob hlay.length_le).mp ⟨r, hr⟩
  rw [hlay.length_eq] at hlen
  exact ⟨hne, hlen, (mod_pageSize_iff _).mp hbase, fun s hs => (mod_pageSize_iff _).mp (hrva s hs), hbound,
    hcopy, hbelow⟩

theorem Convertible.exists_convert (h : ShimLinked blob secs) (hblob : ShimBlobOk blob) {alloc : Alloc}
    {img : PeImage} (hc : Convertible alloc blob secs img) : ∃ r, convert alloc blob img = .ok r := by
  have hlen := hc.segments_le
  obtain ⟨spec, hspec⟩ := peLayoutToElfSpec_iff.mpr ⟨⟨hc.has_sections, by omega⟩,
    (mod_pageSize_iff _).mpr hc.base_aligned, fun s hs => (mod_pageSize_iff _).mpr (hc.rva_aligned s hs)⟩
  have hlay := peLayoutToElfSpec_eq_ok hspec
  rw [← hlay.length_eq] at hlen
  obtain ⟨r, hr⟩ := (stubPatchApply_iff h hblob hlay.length_le).mpr
    ⟨hc.below_shim, hc.imports_bound, hc.copy_granted, hlen⟩
  exact ⟨r, by rw [convert, hspec, Res.ok_bind, hr]⟩

/-- An image is converted iff it is `Convertible`. -/
theorem convert_iff (h : ShimLinked blob secs) (hblob : ShimBlobOk blob) (alloc : Alloc) (img : PeImage) :
    (∃ r, convert alloc blob img = .ok r) ↔ Convertible alloc blob secs img := by
  constructor
  · rintro ⟨r, hr⟩
    exact convertible_of_ok h hblob hr
  · exact fun hc => hc.exists_convert h hblob

end

theorem miniShim_linked : ShimLinked miniShim miniSymbols where
  tables := miniSymbols_tables
  phdrs_le := by decide +kernel
  start := by decide +kernel
  target := ⟨0x0F000004, by decide +kernel⟩

theorem convert_iff_ordinalImport : ∃ img, peImageLoad .generous 9 MkMiniPe.ordinalImport = .ok img ∧
    Convertible { Alloc.generous with shimCopy := fun _ => true } miniShim miniSymbols img := by
  obtain ⟨img, spec, r, himg, hspec, hr, -⟩ := ordinalImport_converts
  refine ⟨img, himg, (convert_iff miniShim_linked miniShim_ok _ img).mp ⟨r, ?_⟩⟩
  rw [convert, hspec, Res.ok_bind, hr]

end Winlift

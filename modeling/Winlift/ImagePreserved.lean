import Winlift.ImageMap
import Winlift.WriterSpec

/-!
# The memory image survives the conversion

A loader that follows the program headers of the output file (`ElfLoads`) fills memory the way the PE
file says (`ImagePreserved`). The segments written point into the patched file and the patched blob, so
memory holds what these two hold (`loadedFrom_of_elfLoads`); what the patches are in memory is
`patched_of_loaded`.
-/

namespace Winlift
open CSem

/-! ### What the ELF loader does -/

/-- `mem` is what the ELF rule makes of `file`: every `PT_LOAD` segment lies in the file and has been
loaded. -/
def ElfLoads (file : Buffer) (mem : Nat → UInt8) : Prop :=
  ∃ entry phdrs, elf32Decode file = some (entry, phdrs) ∧ ∀ ph ∈ phdrs, ph.pType = ptLoad →
    (ph.pFilesz ≠ 0 → ph.pOffset.toNat + ph.pFilesz.toNat ≤ file.size) ∧
      ph.region.Loaded file.byte mem

structure LoadedFrom {β : Type} (blocks : Mem β) (mem : Nat → UInt8) (s : ElfSegment β) : Prop where
  data : ∀ k < s.filesz.toNat, ∃ p, s.data = some p ∧
    mem (s.vaddr.toNat + k) = (blocks p.block).byte (p.off + k)
  zeros : ∀ k, s.filesz.toNat ≤ k → k < s.memsz.toNat → mem (s.vaddr.toNat + k) = 0

theorem loadedFrom_of_elfLoads {β : Type} {blocks : Mem β} {spec : ElfImageSpec β} {file : List UInt8}
    {mem : Nat → UInt8} (henc : Encodes blocks spec file) (hmem : ElfLoads (.ofList file) mem) :
    ∀ s ∈ spec.segments, LoadedFrom blocks mem s := by
  intro s hs
  obtain ⟨entry, phdrs, hdecode, hloads⟩ := hmem
  rw [henc.decode] at hdecode
  cases hdecode
  obtain ⟨-, hloaded⟩ := hloads s.phdr (List.mem_map_of_mem hs) rfl
  refine ⟨fun k hk => ?_, hloaded.zeros⟩
  have hne : s.filesz ≠ 0 := by
    rintro hzero
    rw [hzero] at hk
    exact absurd hk (Nat.not_lt_zero k)
  obtain ⟨p, hp, -, hslice⟩ := henc.data s hs hne
  refine ⟨p, hp, (hloaded.data k hk).trans ?_⟩
  have hbyte := List.getElem_of_eq hslice (i := k) (by simpa using hk)
  simp only [Ptr.bytes, Buffer.getElem_slice] at hbyte
  exact hbyte

theorem LoadedFrom.loaded {β : Type} {blocks : Mem β} {mem : Nat → UInt8} {s : ElfSegment β}
    (h : LoadedFrom blocks mem s) {p : Ptr β} (hp : s.data = if 0 < s.filesz then some p else none) :
    Region.Loaded (blocks p.block).byte mem ⟨s.vaddr.toNat, p.off, s.filesz.toNat, s.memsz.toNat⟩ := by
  refine ⟨fun k hk => ?_, h.zeros⟩
  obtain ⟨p', hp', hmem⟩ := h.data k hk
  have hpos : 0 < s.filesz := Nat.lt_of_le_of_lt (Nat.zero_le k) hk
  rw [hp, if_pos hpos] at hp'
  cases hp'
  exact hmem

section
variable {alloc : Alloc} {fuel : Nat} {raw blob : Buffer} {img : PeImage} {spec : Spec}
  {r : StubPatched}

/-- What holds of all segments, wherever they are placed, holds of the output's. -/
theorem forall_segments (hlay : LayoutOf img spec) (hstub : StubPatchOf blob img spec r)
    {P : Segment → Prop} (hP : ∀ s, P s ↔ P (unplace s)) : (∀ s ∈ r.spec.segments, P s) ↔
      P (headerSegment img 0) ∧ (∀ s ∈ img.sections, P (sectionSegment img s 0)) ∧
        ∀ ph ∈ shimLoads blob, P (shimSegment ph 0) := by
  have hall : (∀ s ∈ r.spec.segments, P s) ↔ ∀ s ∈ r.spec.segments.map unplace, P s := by
    rw [List.forall_mem_map]
    exact forall₂_congr fun s _ => hP s
  rw [hall, unplace_all hlay hstub, List.forall_mem_append, imageSegments, List.forall_mem_cons,
    List.forall_mem_map, shimSegments, List.forall_mem_map, and_assoc]

theorem carriesData_all (hof : ImageOf raw img) (hlay : LayoutOf img spec)
    (hstub : StubPatchOf blob img spec r) (hwf : WellFormed img blob) (hblob : ShimBlobOk blob)
    (hshim : r.shim.size = blob.size) : ∀ s ∈ r.spec.segments, CarriesData r.mem s := by
  have hraw : r.img.raw.size = img.raw.size := (patchImports_frame hstub.patched).2
  refine (forall_segments hlay hstub fun s => Iff.rfl).mpr ⟨?_, ?_, ?_⟩
  · intro hne
    refine ⟨_, if_pos (UInt32.pos_iff_ne_zero.mpr hne), ?_⟩
    have hle := hwf.headers_in_file
    simpa [Ptr.Holds, StubPatched.mem, headerSegment, hraw] using hle
  · intro s hs hne
    refine ⟨_, if_pos (UInt32.pos_iff_ne_zero.mpr hne), ?_⟩
    have hle := hof.sections_in_file s hs
    simpa [Ptr.Holds, StubPatched.mem, sectionSegment, hraw, hof.raw_eq] using hle
  · intro ph hph hne
    refine ⟨_, if_pos (UInt32.pos_iff_ne_zero.mpr hne), ?_⟩
    have hle := hblob.in_blob _ (List.mem_map_of_mem hph)
    simpa [Ptr.Holds, StubPatched.mem, shimSegment, hshim, Elf32Phdr.region] using hle

theorem wellPlaced_of_sorted (h : SortedInFile r.spec.segments) (hne : r.spec.segments ≠ [])
    (hcount : r.spec.segments.length ≤ elfMaxSegments)
    (hdata : ∀ s ∈ r.spec.segments, CarriesData r.mem s) : WellPlaced r.mem r.spec := by
  have htrans : IsTrans Segment fun s t => s.fileOffset.toNat + s.filesz.toNat ≤ t.fileOffset.toNat :=
    ⟨fun s t u hst htu => by omega⟩
  have hpair := List.isChain_iff_pairwise.mp h.ordered
  refine ⟨fun h0 => hne (List.length_eq_zero_iff.mp h0), hcount, ?_, ?_, ?_, hdata⟩
  · exact (hpair.filter _).imp fun hst => UInt32.le_iff_toNat_le.mpr (by omega)
  · exact (hpair.filter _).imp .inl
  · intro s hs _
    obtain ⟨t, rest, hsegs⟩ := List.exists_cons_of_ne_nil hne
    have hfirst := h.after_headers t (by rw [hsegs]; rfl)
    rw [hsegs, List.pairwise_cons] at hpair
    rw [hsegs] at hs
    rcases List.mem_cons.mp hs with rfl | hs
    · exact hfirst
    · exact Nat.le_trans hfirst (Nat.le_trans (Nat.le_add_right ..) (hpair.1 s hs))

theorem WellFormed.section_vaddr (hwf : WellFormed img blob) {s : PeSection} (hs : s ∈ img.sections) :
    (img.imageBase + s.rva).toNat = img.imageBase.toNat + s.rva.toNat := by
  have hmem : s.region.shift img.imageBase.toNat ∈ imageRegions img :=
    List.mem_map_of_mem (List.mem_cons_of_mem _ (List.mem_map_of_mem hs))
  have hlo := (hwf.no_wrap _ hmem).1
  simp only [pages, Extent.roundOut, Region.addrs, Region.shift, PeSection.region] at hlo
  exact toNat_add_of_lt (by omega)

theorem segments_addrs (hlay : LayoutOf img spec) (hstub : StubPatchOf blob img spec r)
    (hwf : WellFormed img blob) : r.spec.segments.map (fun s => s.phdr.region.addrs) =
      (programRegions img blob).map Region.addrs := by
  have hunplace : r.spec.segments.map (fun s => s.phdr.region.addrs) =
      (r.spec.segments.map unplace).map fun s => s.phdr.region.addrs := by
    rw [List.map_map]
    rfl
  have hsec : ∀ s ∈ img.sections, (sectionSegment img s 0).phdr.region.addrs =
      (s.region.shift img.imageBase.toNat).addrs := by
    intro s hs
    have hmemsz := sectionSegment_memsz img s 0
    simp only [ElfSegment.phdr, Elf32Phdr.region, Region.addrs, hmemsz]
    simp only [sectionSegment, hwf.section_vaddr hs, PeSection.region, Region.shift, Nat.max_assoc,
      Nat.max_self]
  rw [hunplace, unplace_all hlay hstub, programRegions, List.map_append, List.map_append, imageSegments,
    imageRegions, peRegions, List.map_cons, List.map_cons, List.map_cons, List.map_map, List.map_map,
    List.map_map, shimSegments, shimRegions, List.map_map, List.map_map]
  congr 2
  exact List.map_congr_left hsec

/-! ### The image -/

def InSlot (img : PeImage) (rva : Nat) : Prop :=
  ∃ dll ∈ img.imports, ∃ fn ∈ dll.funcs, rva ∈ word fn.iatRva.toNat

/-- Memory holds the PE image at `ImageBase`, its imports bound, and the shim with its target set. -/
structure ImagePreserved (blob : Buffer) (img : PeImage) (raw : Buffer) (mem : Nat → UInt8) :
    Prop where
  /-- An import's slot holds the address of the shim's symbol for it. -/
  slots : ∀ dll ∈ img.imports, ∀ fn ∈ dll.funcs, ∃ e addr,
    shimLookupImport dll.dllName fn.name = some e ∧
      shimFindSymbol blob e.shimSymbol = .ok (some addr) ∧
        ∀ k < 4, mem (img.imageBase.toNat + (fn.iatRva.toNat + k)) = leByte addr k
  /-- Elsewhere what the file backs holds the file's bytes … -/
  data : ∀ g ∈ peRegions img, ∀ k < g.filesz, ¬ InSlot img (g.addr + k) →
    mem (img.imageBase.toNat + (g.addr + k)) = raw.byte (g.off + k)
  /-- … and the rest of the headers and sections is zero. -/
  zeros : ∀ g ∈ peRegions img, ∀ k, g.filesz ≤ k → k < g.memsz →
    mem (img.imageBase.toNat + (g.addr + k)) = 0
  /-- The shim's segments hold the blob's bytes but for the target, the PE entry point. -/
  shim : ∃ target, shimFindSymbol blob (cBytes "shim_pe_entry_target") = .ok (some target) ∧
    (∀ k < 4, mem (target.toNat + k) = leByte (img.imageBase + img.entryPointRva) k) ∧
      ∀ ph ∈ shimLoads blob,
        (∀ k < ph.pFilesz.toNat, ph.pVaddr.toNat + k ∉ word target.toNat →
          mem (ph.pVaddr.toNat + k) = blob.byte (ph.pOffset.toNat + k)) ∧
        ∀ k, ph.pFilesz.toNat ≤ k → k < ph.pMemsz.toNat → mem (ph.pVaddr.toNat + k) = 0

theorem shim_stores (hstub : StubPatchOf blob img spec r) (hblob : ShimBlobOk blob) :
    ∃ target o, shimFindSymbol blob (cBytes "shim_pe_entry_target") = .ok (some target) ∧
      BacksWord (shimRegions blob) target.toNat o ∧
        r.shim = blob.patches [(o, img.imageBase + img.entryPointRva)] := by
  obtain ⟨target, hfind, hpoke⟩ := hstub.target
  obtain ⟨o, hback, hshim⟩ := shimPoke32_stores hblob (hblob.target_lt target hfind) hpoke
  exact ⟨target, o, hfind, hback, hshim⟩

theorem pipeline_wellPlaced (hof : ImageOf raw img) (hspec : peLayoutToElfSpec img = .ok spec)
    {grant : Nat → Bool} (hr : stubPatchApply grant blob img spec = .ok r)
    (hwf : WellFormed img blob) (hblob : ShimBlobOk blob) : WellPlaced r.mem r.spec := by
  have hlay := peLayoutToElfSpec_eq_ok hspec
  have hstub := stubPatchApply_eq_ok hr
  obtain ⟨target, o, -, ⟨g, hg, -⟩, hshim⟩ := shim_stores hstub hblob
  have hbase : 0x1000 ≤ img.imageBase.toNat := by
    have hmod := congrArg UInt32.toNat hlay.base_aligned
    have hpage : UInt32.toNat pageSize = 0x1000 := rfl
    have hne : img.imageBase.toNat ≠ 0 := fun h => hof.imageBase_ne_zero (UInt32.toNat_inj.mp h)
    rw [UInt32.toNat_mod, hpage, UInt32.toNat_zero] at hmod
    omega
  have hloads : shimLoads blob ≠ [] := by
    intro hnil
    rw [shimRegions, hnil] at hg
    cases hg
  have hne : r.spec.segments ≠ [] := by
    intro hnil
    have hall := unplace_all hlay hstub
    rw [hnil] at hall
    cases hall
  have hfits := hwf.file_fits hblob hbase hloads
  have hsize : r.shim.size = blob.size := by rw [hshim, Buffer.size_patches]
  exact wellPlaced_of_sorted ((sortedInFile_iff hspec hr).mpr hfits) hne (hstub.length_le hlay.length_le)
    (carriesData_all hof hlay hstub hwf hblob hsize)

theorem image_loaded (hlay : LayoutOf img spec) (hstub : StubPatchOf blob img spec r)
    (hwf : WellFormed img blob) {mem : Nat → UInt8}
    (hmem : ∀ s ∈ r.spec.segments, LoadedFrom r.mem mem s) :
    ∀ g ∈ peRegions img, g.Loaded r.img.raw.byte fun x => mem (img.imageBase.toNat + x) := by
  obtain ⟨hhdr, hsecs, -⟩ := (forall_segments hlay hstub fun s => ⟨fun h => ⟨h.data, h.zeros⟩,
    fun h => ⟨h.data, h.zeros⟩⟩).mp hmem
  rw [peRegions, List.forall_mem_cons, List.forall_mem_map]
  refine ⟨Region.Loaded.unshift (hhdr.loaded (p := ⟨.raw, 0⟩) rfl), fun s hs => ?_⟩
  have hsec := (hsecs s hs).loaded (p := ⟨.raw, s.fileOff.toNat⟩) rfl
  rw [sectionSegment_memsz] at hsec
  have hvaddr := hwf.section_vaddr hs
  simp only [sectionSegment, hvaddr] at hsec
  refine Region.Loaded.unshift ⟨hsec.data, fun k hk hk' => hsec.zeros k hk ?_⟩
  exact Nat.lt_of_lt_of_le hk' (Nat.le_max_left ..)

theorem shim_loaded (hlay : LayoutOf img spec) (hstub : StubPatchOf blob img spec r)
    {mem : Nat → UInt8} (hmem : ∀ s ∈ r.spec.segments, LoadedFrom r.mem mem s) :
    ∀ g ∈ shimRegions blob, g.Loaded r.shim.byte mem := by
  obtain ⟨-, -, hloads⟩ := (forall_segments hlay hstub fun s => ⟨fun h => ⟨h.data, h.zeros⟩,
    fun h => ⟨h.data, h.zeros⟩⟩).mp hmem
  rw [shimRegions, List.forall_mem_map]
  exact fun ph hph => (hloads ph hph).loaded (p := ⟨.shim, ph.pOffset.toNat⟩) rfl

theorem exists_elfLoads (hlay : LayoutOf img spec) (hstub : StubPatchOf blob img spec r)
    (hwf : WellFormed img blob) (hblob : ShimBlobOk blob) {file : List UInt8}
    (henc : Encodes r.mem r.spec file) : ∃ mem, ElfLoads (.ofList file) mem := by
  have hapart : ((r.spec.segments.map fun s => s.phdr.region).map Region.addrs).Pairwise
      Extent.Apart := by
    rw [List.map_map]
    refine (segments_addrs hlay hstub hwf) ▸ ?_
    have hall := hwf.all_apart hblob
    rw [List.pairwise_map] at hall ⊢
    exact hall.imp (Extent.Apart.of_roundOut (by norm_num))
  obtain ⟨mem, hmem⟩ := Region.exists_loaded (Buffer.ofList file).byte hapart
  refine ⟨mem, _, _, henc.decode, ?_⟩
  rw [List.forall_mem_map]
  rw [List.forall_mem_map] at hmem
  intro s hs _
  refine ⟨fun hne => ?_, hmem s hs⟩
  obtain ⟨p, -, hle, -⟩ := henc.data s hs hne
  exact hle

/-- The words that bind the imports are apart, and all in their slots. -/
theorem Binds.apart {ws : List Store} (h : Binds blob img (importSlots img.imports) ws)
    (hwf : WellFormed img blob) : (ws.map fun w => word w.addr).Pairwise Extent.Apart := by
  have hmap : (ws.map fun w => word w.addr) = (ws.map (·.addr)).map word := by
    rw [List.map_map]
    rfl
  rw [hmap, h.addrs, List.map_map]
  exact hwf.slots_apart

theorem Binds.inSlot {ws : List Store} (h : Binds blob img (importSlots img.imports) ws) {w : Store}
    (hw : w ∈ ws) {rva : Nat} (hrva : rva ∈ word w.addr) : InSlot img rva := by
  have hmem : w.addr ∈ (importSlots img.imports).map fun s => s.2.iatRva.toNat :=
    h.addrs ▸ List.mem_map_of_mem hw
  obtain ⟨⟨dllName, fn⟩, hslot, haddr⟩ := List.mem_map.mp hmem
  obtain ⟨dll, hdll, -, hfn⟩ := mem_importSlots.mp hslot
  exact ⟨dll, hdll, fn, hfn, by rw [haddr]; exact hrva⟩

theorem imagePreserved_of_loaded (hof : ImageOf raw img) (hstub : StubPatchOf blob img spec r)
    (hwf : WellFormed img blob) (hblob : ShimBlobOk blob) {mem : Nat → UInt8}
    (himage : ∀ g ∈ peRegions img, g.Loaded r.img.raw.byte fun x => mem (img.imageBase.toNat + x))
    (hshim : ∀ g ∈ shimRegions blob, g.Loaded r.shim.byte mem) : ImagePreserved blob img raw mem := by
  obtain ⟨ws, hbinds, hraw⟩ := patchImports_stores hstub.patched
  obtain ⟨target, o, hfind, hback, hpatch⟩ := shim_stores hstub hblob
  rw [hraw] at himage
  have hpe := patched_of_loaded hwf.files_apart hbinds.backed (hbinds.apart hwf) himage
  rw [hof.raw_eq] at hpe
  have hbacks : ∀ w ∈ [(⟨target.toNat, o, img.imageBase + img.entryPointRva⟩ : Store)],
      BacksWord (shimRegions blob) w.addr w.off := List.forall_mem_singleton.mpr hback
  rw [hpatch] at hshim
  have hsh := patched_of_loaded hblob.files_apart hbacks (List.pairwise_singleton _ _) hshim
  refine ⟨?_, ?_, hpe.zeros, target, hfind, hsh.words _ (List.mem_singleton_self _), ?_⟩
  · intro dll hdll fn hfn
    obtain ⟨w, hw, haddr, hres⟩ := hbinds.bound _ (mem_importSlots.mpr ⟨dll, hdll, rfl, hfn⟩)
    obtain ⟨e, he, hsym⟩ := resolveImport_eq_ok hres
    refine ⟨e, w.value, he, hsym, fun k hk => ?_⟩
    rw [← hpe.words w hw k hk, haddr]
  · intro g hg k hk hout
    exact hpe.others g hg k hk fun w hw hin => hout (hbinds.inSlot hw hin)
  · intro ph hph
    have hregion : ph.region ∈ shimRegions blob := List.mem_map_of_mem hph
    refine ⟨fun k hk hout => hsh.others _ hregion k hk ?_, hsh.zeros _ hregion⟩
    exact List.forall_mem_singleton.mpr hout

/-- Whatever the loader makes of the file written is the image. -/
theorem conversion_preserves_image {grant : Nat → Bool} {io : Stdio} {file : List UInt8}
    (himg : peImageLoad alloc fuel raw = .ok img) (hspec : peLayoutToElfSpec img = .ok spec)
    (hr : stubPatchApply grant blob img spec = .ok r) (hwf : WellFormed img blob)
    (hblob : ShimBlobOk blob) (hfile : (elfWrite io r.mem r.spec).result = .ok file) :
    (∃ start phdrs, shimFindSymbol blob (cBytes "_start") = .ok (some start) ∧
      elf32Decode (.ofList file) = some (start, phdrs)) ∧
    (∃ mem, ElfLoads (.ofList file) mem) ∧
    ∀ mem, ElfLoads (.ofList file) mem → ImagePreserved blob img raw mem := by
  have hof := peImageLoad_eq_ok himg
  have hlay := peLayoutToElfSpec_eq_ok hspec
  have hstub := stubPatchApply_eq_ok hr
  obtain ⟨file', hwrite, henc⟩ := elfWrite_encodes Stdio.working_ok
    (pipeline_wellPlaced hof hspec hr hwf hblob)
  rw [elfWrite_working hfile] at hwrite
  cases hwrite
  refine ⟨⟨_, _, hstub.entry, henc.decode⟩, exists_elfLoads hlay hstub hwf hblob henc, ?_⟩
  intro mem hmem
  have hsegs := loadedFrom_of_elfLoads henc hmem
  exact imagePreserved_of_loaded hof hstub hwf hblob (image_loaded hlay hstub hwf hsegs)
    (shim_loaded hlay hstub hsegs)

end

theorem miniShim_ok : ShimBlobOk miniShim where
  size_lt := by decide +kernel
  in_blob := by decide +kernel
  nonempty := by decide +kernel
  bounds := by decide +kernel
  pages_apart := by decide +kernel
  files_apart := by decide +kernel
  target_lt target h := by
    have hfind : (shimFindSymbol miniShim (cBytes "shim_pe_entry_target")).okAnd
        (· = some 0x0F000004) := by decide +kernel
    obtain ⟨t, ht, heq⟩ := Res.okAnd_iff.mp hfind
    rw [h] at ht
    cases ht
    cases of_decide_eq_true heq
    decide

theorem conversion_preserves_image_ordinalImport : ∃ img spec r file,
    peImageLoad .generous 9 MkMiniPe.ordinalImport = .ok img ∧ peLayoutToElfSpec img = .ok spec ∧
      stubPatchApply (fun _ => true) miniShim img spec = .ok r ∧
      (elfWrite .working r.mem r.spec).result = .ok file ∧ (∃ mem, ElfLoads (.ofList file) mem) ∧
      ∀ mem, ElfLoads (.ofList file) mem →
        ImagePreserved miniShim img MkMiniPe.ordinalImport mem := by
  have hrun : (peImageLoad .generous 9 MkMiniPe.ordinalImport).okAnd fun img =>
      (peLayoutToElfSpec img).okAnd fun spec =>
        (stubPatchApply (fun _ => true) miniShim img spec).okAnd fun _ =>
          img.sizeOfHeaders.toNat ≤ img.raw.size ∧
            ((imageRegions img).map pages).Pairwise Extent.Apart ∧
            (∀ g ∈ imageRegions img, (pages g).lo < 2 ^ 32 ∧ (pages g).hi ≤ 2 ^ 32) ∧
            (∀ g ∈ imageRegions img, ∀ g' ∈ shimRegions miniShim, (pages g).Apart g'.addrs) ∧
            ((peRegions img).map Region.file).Pairwise Extent.Apart ∧
            ((importSlots img.imports).map fun s => word s.2.iatRva.toNat).Pairwise Extent.Apart := by
    decide +kernel
  obtain ⟨img, spec, r, himg, hspec, hr, hrun⟩ := converts_of_okAnd hrun
  obtain ⟨hhdrs, hpages, hwrap, hoff, hfiles, hslots⟩ := of_decide_eq_true hrun
  have hwf : WellFormed img miniShim := ⟨hhdrs, hpages, hwrap, hoff, hfiles, hslots⟩
  obtain ⟨file, hfile, -⟩ := elfWrite_encodes Stdio.working_ok
    (pipeline_wellPlaced (peImageLoad_eq_ok himg) hspec hr hwf miniShim_ok)
  have hresult : (elfWrite .working r.mem r.spec).result = .ok file := by rw [hfile]
  obtain ⟨-, hloads, hpres⟩ :=
    conversion_preserves_image himg hspec hr hwf miniShim_ok hresult
  exact ⟨img, spec, r, file, himg, hspec, hr, hresult, hloads, hpres⟩

end Winlift

import Winlift.CSem.Region
import Winlift.FileLayout

/-!
# The image as regions

What the PE loader makes of the section table: the headers and each section are a `Region` of the file.
The RVA map resolves ranges that one region backs (`peRvaToPtr_backs`), so binding the imports stores
words through these regions (`patchImports_stores`), and telling the shim its target stores one through
the blob's segments (`shimPoke32_stores`).
-/

namespace Winlift
open CSem

/-! ### The regions of a PE file -/

def headerRegion (img : PeImage) : Region :=
  ⟨0, 0, img.sizeOfHeaders.toNat, img.sizeOfHeaders.toNat⟩

def PeSection.region (s : PeSection) : Region :=
  ⟨s.rva.toNat, s.fileOff.toNat, s.fsize.toNat, s.vsize.toNat⟩

/-- The headers and the sections, by their RVAs. -/
def peRegions (img : PeImage) : List Region := headerRegion img :: img.sections.map PeSection.region

theorem sectionsRvaToPtr_backs {rawSize : Nat} {rva minLen : UInt32} {p : Nat} {ss : List PeSection}
    (h : sectionsRvaToPtr rawSize rva minLen ss = some p) :
    ∃ s ∈ ss, ∀ k < minLen.toNat, s.region.Backs (rva.toNat + k) (p + k) := by
  induction ss with
  | nil => cases h
  | cons s rest ih =>
    simp only [sectionsRvaToPtr] at h
    split_ifs at h with hin htail hlen hsize
    · cases h
      have hle := UInt32.le_iff_toNat_le.mp hin.1
      rw [toNat_sub_of_le hle] at hlen
      refine ⟨s, List.mem_cons_self, fun k hk => ⟨rva.toNat - s.rva.toNat + k, ?_, ?_, ?_⟩⟩ <;>
        simp only [PeSection.region, toNat_sub_of_le hle] <;> omega
    · obtain ⟨s', hs', hb⟩ := ih h
      exact ⟨s', List.mem_cons_of_mem _ hs', hb⟩

theorem peRvaToPtr_backs {img : PeImage} {rva minLen : UInt32} {p : Nat}
    (h : peRvaToPtr img rva minLen = some p) :
    ∃ g ∈ peRegions img, ∀ k < minLen.toNat, g.Backs (rva.toNat + k) (p + k) := by
  unfold peRvaToPtr at h
  split_ifs at h with hhdr hlen hsize
  · cases h
    refine ⟨headerRegion img, List.mem_cons_self, fun k hk => ⟨rva.toNat + k, ?_, ?_, ?_⟩⟩ <;>
      simp only [headerRegion] <;> omega
  · obtain ⟨s, hs, hb⟩ := sectionsRvaToPtr_backs h
    exact ⟨s.region, List.mem_cons_of_mem _ (List.mem_map_of_mem hs), hb⟩

/-! ### Binding the imports -/

/-- The functions imported, each with the name of its DLL. -/
def importSlots (dlls : List PeImportDll) : List (List UInt8 × PeImportFunc) :=
  dlls.flatMap fun dll => dll.funcs.map fun fn => (dll.dllName, fn)

theorem mem_importSlots {dlls : List PeImportDll} {dllName : List UInt8} {fn : PeImportFunc} :
    (dllName, fn) ∈ importSlots dlls ↔ ∃ dll ∈ dlls, dll.dllName = dllName ∧ fn ∈ dll.funcs := by
  simp only [importSlots, List.mem_flatMap, List.mem_map, Prod.mk.injEq]
  constructor
  · rintro ⟨dll, hdll, fn', hfn, hname, rfl⟩
    exact ⟨dll, hdll, hname, hfn⟩
  · rintro ⟨dll, hdll, hname, hfn⟩
    exact ⟨dll, hdll, fn, hfn, hname, rfl⟩

/-- The words `ws` bind the functions in `slots`. -/
structure Binds (blob : Buffer) (img : PeImage) (slots : List (List UInt8 × PeImportFunc))
    (ws : List Store) : Prop where
  addrs : ws.map (·.addr) = slots.map fun s => s.2.iatRva.toNat
  backed : ∀ w ∈ ws, BacksWord (peRegions img) w.addr w.off
  bound : ∀ s ∈ slots, ∃ w ∈ ws, w.addr = s.2.iatRva.toNat ∧
    resolveImport blob s.1 s.2.name = .ok w.value

theorem Binds.append {blob : Buffer} {img : PeImage} {slots slots' : List (List UInt8 × PeImportFunc)}
    {ws ws' : List Store} (h : Binds blob img slots ws) (h' : Binds blob img slots' ws') :
    Binds blob img (slots ++ slots') (ws ++ ws') where
  addrs := by rw [List.map_append, List.map_append, h.addrs, h'.addrs]
  backed := List.forall_mem_append.mpr ⟨h.backed, h'.backed⟩
  bound s hs := by
    simp only [List.mem_append, or_and_right, exists_or]
    exact (List.mem_append.mp hs).imp (h.bound s) (h'.bound s)

def atOffsets (ws : List Store) : List (Nat × UInt32) := ws.map fun w => (w.off, w.value)

theorem resolveImport_eq_ok {blob : Buffer} {dllName funcName : List UInt8}
    {addr : UInt32}
    (h : resolveImport blob dllName funcName = .ok addr) : ∃ e,
    shimLookupImport dllName funcName = some e ∧ shimFindSymbol blob e.shimSymbol = .ok (some addr) := by
  obtain ⟨e, he, h⟩ := Res.bind_eq_ok.mp h
  obtain ⟨addr?, hfind, h⟩ := Res.bind_eq_ok.mp h
  obtain rfl := Res.orReject_eq_ok.mp h
  exact ⟨e, Res.orReject_eq_ok.mp he, hfind⟩

/-- Binding the import `s` stores the word `w`. -/
structure BindsSlot (blob : Buffer) (img : PeImage) (s : List UInt8 × PeImportFunc) (w : Nat × UInt32) :
    Prop where
  addr : resolveImport blob s.1 s.2.name = .ok w.2
  slot : peRvaToPtr img s.2.iatRva 4 = some w.1

theorem peRvaToPtr_congr {img img' : PeImage} (he : img' = { img with raw := img'.raw })
    (hsize : img'.raw.size = img.raw.size) : peRvaToPtr img' = peRvaToPtr img := by
  funext rva n
  rw [he]
  simp only [peRvaToPtr, hsize]

theorem BindsSlot.congr {blob : Buffer} {img img' : PeImage} (he : img' = { img with raw := img'.raw })
    (hsize : img'.raw.size = img.raw.size) {s : List UInt8 × PeImportFunc} {w : Nat × UInt32}
    (h : BindsSlot blob img' s w) : BindsSlot blob img s w :=
  ⟨h.addr, peRvaToPtr_congr he hsize ▸ h.slot⟩

theorem patchFuncs_eq_ok {blob : Buffer} {dllName : List UInt8} {funcs : List PeImportFunc}
    {img img' : PeImage} (h : patchFuncs blob dllName funcs img = .ok img') : ∃ ws,
    List.Forall₂ (BindsSlot blob img) (funcs.map fun fn => (dllName, fn)) ws ∧
      img'.raw = img.raw.patches ws := by
  induction funcs generalizing img with
  | nil => cases h; exact ⟨[], .nil, rfl⟩
  | cons fn rest ih =>
    obtain ⟨addr, haddr, h⟩ := Res.bind_eq_ok.mp h
    obtain ⟨slot, hslot, h⟩ := Res.bind_eq_ok.mp h
    obtain ⟨raw, hraw, h⟩ := Res.bind_eq_ok.mp h
    obtain ⟨-, rfl⟩ := store32_eq_ok.mp hraw
    obtain ⟨ws, hws, heq⟩ := ih h
    have hws : List.Forall₂ (BindsSlot blob img) (rest.map fun fn => (dllName, fn)) ws :=
      hws.imp fun _ _ hs => ⟨hs.addr, hs.slot⟩
    exact ⟨(slot, addr) :: ws, .cons ⟨haddr, Res.orReject_eq_ok.mp hslot⟩ hws, heq⟩

/-- Binding the imports stores one word for each, in order. -/
theorem patchImports_eq_ok {blob : Buffer} {dlls : List PeImportDll} {img img' : PeImage}
    (h : patchImports blob dlls img = .ok img') : ∃ ws,
    List.Forall₂ (BindsSlot blob img) (importSlots dlls) ws ∧ img'.raw = img.raw.patches ws := by
  induction dlls generalizing img with
  | nil => cases h; exact ⟨[], .nil, rfl⟩
  | cons dll rest ih =>
    obtain ⟨img₁, h₁, h⟩ := Res.bind_eq_ok.mp h
    obtain ⟨ws₁, hws₁, heq₁⟩ := patchFuncs_eq_ok h₁
    obtain ⟨ws, hws, heq⟩ := ih h
    obtain ⟨he, hsize⟩ := patchFuncs_frame h₁
    refine ⟨ws₁ ++ ws, List.rel_append hws₁ (hws.imp fun _ _ => .congr he hsize), ?_⟩
    rw [heq, heq₁, Buffer.patches_append]

/-- The words go through the regions. -/
theorem patchImports_stores {blob : Buffer} {dlls : List PeImportDll} {img img' : PeImage}
    (h : patchImports blob dlls img = .ok img') : ∃ ws,
    Binds blob img (importSlots dlls) ws ∧ img'.raw = img.raw.patches (atOffsets ws) := by
  obtain ⟨ws, hws, heq⟩ := patchImports_eq_ok h
  have hbinds : ∃ ss, Binds blob img (importSlots dlls) ss ∧ atOffsets ss = ws := by
    clear heq
    generalize importSlots dlls = slots at hws
    induction hws with
    | nil => exact ⟨[], ⟨rfl, by simp, by simp⟩, rfl⟩
    | @cons s w _ _ hs _ ih =>
      obtain ⟨ss, hss, rfl⟩ := ih
      have hfirst : Binds blob img [s] [⟨s.2.iatRva.toNat, w.1, w.2⟩] := by
        refine ⟨rfl, ?_, ?_⟩
        · exact List.forall_mem_singleton.mpr (peRvaToPtr_backs hs.slot)
        · exact List.forall_mem_singleton.mpr ⟨_, List.mem_singleton_self _, rfl, hs.addr⟩
      exact ⟨_, hfirst.append hss, rfl⟩
  obtain ⟨ss, hss, rfl⟩ := hbinds
  exact ⟨ss, hss, heq⟩

/-! ### The segments of the shim -/

def Elf32Phdr.region (ph : Elf32Phdr) : Region :=
  ⟨ph.pVaddr.toNat, ph.pOffset.toNat, ph.pFilesz.toNat, ph.pMemsz.toNat⟩

def shimRegions (blob : Buffer) : List Region := (shimLoads blob).map Elf32Phdr.region

def pages (g : Region) : Extent := g.addrs.roundOut 0x1000

/-- What the link of the shim gives: segments that lie in the blob, each on pages of its own and not on
the first one, and nothing at the very end of the address space. -/
structure ShimBlobOk (blob : Buffer) : Prop where
  size_lt : blob.size < 2 ^ 32
  in_blob : ∀ g ∈ shimRegions blob, g.off + g.filesz ≤ blob.size
  nonempty : ∀ g ∈ shimRegions blob, g.addrs.lo < g.addrs.hi
  bounds : ∀ g ∈ shimRegions blob, 0x1000 ≤ g.addrs.lo ∧ g.addrs.hi < 2 ^ 32
  pages_apart : ((shimRegions blob).map pages).Pairwise Extent.Apart
  files_apart : ((shimRegions blob).map Region.file).Pairwise Extent.Apart
  target_lt : ∀ target, shimFindSymbol blob (cBytes "shim_pe_entry_target") = .ok (some target) →
    target.toNat + 4 < 2 ^ 32

theorem pokeFrom_eq_ok {blob shim shim' : Buffer} {vaddr value : UInt32} {phdrs n i : Nat}
    (h : pokeFrom blob shim vaddr value phdrs n i = .ok shim') :
    ∃ ph ∈ (List.range' i n).map fun k => elf32PhdrAt blob (phdrs + k * elf32PhdrSize),
      (ph.pType = ptLoad ∧ ph.pVaddr ≤ vaddr ∧ vaddr + 4 ≤ ph.pVaddr + ph.pFilesz) ∧
        shim' = shim.patch32 (ph.pOffset + (vaddr - ph.pVaddr)).toNat value := by
  induction n generalizing i with
  | zero => cases h
  | succ n ih =>
    obtain ⟨p, hp, h⟩ := Res.bind_eq_ok.mp h
    obtain ⟨hp, -⟩ := readable_eq_ok.mp hp
    cases hp
    rw [List.range'_succ, List.map_cons]
    dsimp only at h
    split_ifs at h with hin
    · exact ⟨_, List.mem_cons_self, hin, (store32_eq_ok.mp h).2⟩
    · obtain ⟨ph, hph, heq⟩ := ih h
      exact ⟨ph, List.mem_cons_of_mem _ hph, heq⟩

theorem shimPoke32_eq_ok {blob shim shim' : Buffer} {vaddr value : UInt32}
    (h : shimPoke32 blob shim vaddr value = .ok shim') : ∃ ph ∈ shimLoads blob,
    (ph.pVaddr ≤ vaddr ∧ vaddr + 4 ≤ ph.pVaddr + ph.pFilesz) ∧
      shim' = shim.patch32 (ph.pOffset + (vaddr - ph.pVaddr)).toNat value := by
  obtain ⟨eh, heh, h⟩ := Res.bind_eq_ok.mp h
  obtain ⟨p, hp, heh⟩ := Res.bind_eq_ok.mp heh
  obtain ⟨hp, -⟩ := readable_eq_ok.mp hp
  cases hp
  cases heh
  obtain ⟨ph, hph, ⟨htype, hin⟩, heq⟩ := pokeFrom_eq_ok h
  refine ⟨ph, ?_, hin, heq⟩
  rw [shimLoads, List.mem_filter, elf32Phdrs, List.range_eq_range']
  exact ⟨hph, decide_eq_true htype⟩

theorem shimPoke32_stores {blob shim : Buffer} (hblob : ShimBlobOk blob) {vaddr value : UInt32}
    (hvaddr : vaddr.toNat + 4 < 2 ^ 32) (h : shimPoke32 blob blob vaddr value = .ok shim) :
    ∃ o, BacksWord (shimRegions blob) vaddr.toNat o ∧ shim = blob.patches [(o, value)] := by
  obtain ⟨ph, hload, ⟨hlo, hhi⟩, rfl⟩ := shimPoke32_eq_ok h
  have hregion : ph.region ∈ shimRegions blob := List.mem_map_of_mem hload
  have hin := hblob.in_blob _ hregion
  have hbound := (hblob.bounds _ hregion).2
  have hsize := hblob.size_lt
  simp only [Elf32Phdr.region, Region.addrs] at hin hbound
  have hfour : UInt32.toNat 4 = 4 := rfl
  rw [UInt32.le_iff_toNat_le] at hlo hhi
  rw [toNat_add_of_lt (by omega), toNat_add_of_lt (by omega), hfour] at hhi
  have hoff : (ph.pOffset + (vaddr - ph.pVaddr)).toNat =
      ph.pOffset.toNat + (vaddr.toNat - ph.pVaddr.toNat) := by
    rw [toNat_add_of_lt (by rw [toNat_sub_of_le hlo]; omega), toNat_sub_of_le hlo]
  rw [hoff]
  refine ⟨_, ⟨ph.region, hregion, fun k hk => ⟨vaddr.toNat - ph.pVaddr.toNat + k, ?_, ?_, ?_⟩⟩, rfl⟩ <;>
    simp only [Elf32Phdr.region] <;> omega

/-! ### A well-formed image -/

def imageRegions (img : PeImage) : List Region :=
  (peRegions img).map (Region.shift img.imageBase.toNat)

/-- The headers and sections are apart, in memory page by page, in the file byte by byte, and off the
shim; so are the slots of the imports. -/
structure WellFormed (img : PeImage) (blob : Buffer) : Prop where
  headers_in_file : img.sizeOfHeaders.toNat ≤ img.raw.size
  pages_apart : ((imageRegions img).map pages).Pairwise Extent.Apart
  no_wrap : ∀ g ∈ imageRegions img, (pages g).lo < 2 ^ 32 ∧ (pages g).hi ≤ 2 ^ 32
  off_shim : ∀ g ∈ imageRegions img, ∀ g' ∈ shimRegions blob, (pages g).Apart g'.addrs
  files_apart : ((peRegions img).map Region.file).Pairwise Extent.Apart
  slots_apart : ((importSlots img.imports).map fun s => word s.2.iatRva.toNat).Pairwise Extent.Apart

section
variable {blob : Buffer} {img : PeImage}

def programRegions (img : PeImage) (blob : Buffer) : List Region := imageRegions img ++ shimRegions blob

theorem WellFormed.all_apart (h : WellFormed img blob) (hblob : ShimBlobOk blob) :
    ((programRegions img blob).map pages).Pairwise Extent.Apart := by
  rw [programRegions, List.map_append, List.pairwise_append]
  refine ⟨h.pages_apart, hblob.pages_apart, ?_⟩
  simp only [List.forall_mem_map]
  intro g hg g' hg'
  exact (h.off_shim g hg g' hg').roundOut_right (by norm_num) (hblob.nonempty g' hg')

theorem programRegions_filesz : (programRegions img blob).map (·.filesz) = fileSizes img blob := by
  simp [programRegions, imageRegions, peRegions, shimRegions, fileSizes, headerRegion, Region.shift,
    PeSection.region, Elf32Phdr.region, Function.comp_def]

theorem programRegions_bounds (h : WellFormed img blob) (hblob : ShimBlobOk blob)
    (hbase : 0x1000 ≤ img.imageBase.toNat) :
    ∀ g ∈ programRegions img blob, 0x1000 ≤ (pages g).lo ∧ (pages g).hi ≤ 2 ^ 32 := by
  intro g hg
  rcases List.mem_append.mp hg with hg | hg
  · refine ⟨?_, (h.no_wrap g hg).2⟩
    obtain ⟨g', -, rfl⟩ := List.mem_map.mp hg
    simp only [pages, Extent.roundOut, Region.addrs, Region.shift]
    omega
  · obtain ⟨hlo, hhi⟩ := hblob.bounds g hg
    have hround : roundUp g.addrs.hi 0x1000 ≤ roundUp (2 ^ 32) 0x1000 := roundUp_mono (Nat.le_of_lt hhi)
    simp only [pages, Extent.roundOut]
    exact ⟨by omega, hround⟩

/-- The pages of the regions hold their files, and one page more when the last region is not empty. -/
theorem pagesBeforeLast_le {l : List Region} {g : Region} (hg : g.addrs.lo < g.addrs.hi) :
    pagesBeforeLast ((l ++ [g]).map (·.filesz)) + 0x1000 ≤
      (((l ++ [g]).map pages).map Extent.length).sum := by
  have hle : ∀ g : Region, roundUp g.filesz 0x1000 ≤ (pages g).length := by
    intro g
    refine Nat.le_trans (roundUp_mono ?_) (Extent.roundUp_length_le (by norm_num))
    simp only [Extent.length, Region.addrs]
    omega
  have hlast : 0x1000 ≤ (pages g).length := by
    have hround := Extent.roundUp_length_le (a := 0x1000) (i := g.addrs) (by norm_num)
    have hpos : roundUp 1 0x1000 ≤ roundUp g.addrs.length 0x1000 :=
      roundUp_mono (Nat.sub_pos_of_lt hg)
    exact Nat.le_trans hpos hround
  have hsum : (l.map fun g => roundUp g.filesz 0x1000).sum ≤ (l.map fun g => (pages g).length).sum :=
    List.sum_le_sum fun g _ => hle g
  simp only [pagesBeforeLast, List.map_append, List.map_cons, List.map_nil, List.dropLast_concat,
    List.map_map, List.sum_append, List.sum_singleton, Function.comp_def]
  omega

theorem WellFormed.file_fits (h : WellFormed img blob) (hblob : ShimBlobOk blob)
    (hbase : 0x1000 ≤ img.imageBase.toNat) (hne : shimLoads blob ≠ []) :
    0x1000 + pagesBeforeLast (fileSizes img blob) < 2 ^ 32 := by
  have hsum := Extent.sum_length_le (h.all_apart hblob)
    (List.forall_mem_map.mpr (programRegions_bounds h hblob hbase))
  rcases List.eq_nil_or_concat (shimRegions blob) with hnil | ⟨init, last, hconcat⟩
  · exact absurd (List.map_eq_nil_iff.mp hnil) hne
  rw [List.concat_eq_append] at hconcat
  have hlast : last ∈ shimRegions blob := by
    rw [hconcat]
    exact List.mem_concat_self
  rw [programRegions, hconcat, ← List.append_assoc] at hsum
  have hle := pagesBeforeLast_le (l := imageRegions img ++ init) (hblob.nonempty last hlast)
  rw [← programRegions_filesz, programRegions, hconcat, ← List.append_assoc]
  omega

end

end Winlift

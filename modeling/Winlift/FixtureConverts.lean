import Winlift.Convertible
import Winlift.FixtureRoundTrip

/-!
# The fixtures converted

Every file of the fixture builder is an image of headers and one section (`IsFixture`), whatever is
imported. That is enough for its regions to be apart (`IsFixture.wellFormed`), and with imports that the
shim has, for the conversion to accept it (`IsFixture.convertible`).
-/

namespace Winlift.MkMiniPe
open CSem

/-- Headers, and one section of `textVsize` bytes, of which the file has the next multiple of `FILE_ALIGN`; the
image ends below the shim. -/
structure IsFixture (b : Buffer) (textVsize subsystem : Nat) (img : PeImage) : Prop where
  image : ∃ imports cap, img = { fixtureImage b textVsize (roundUp textVsize fileAlign) sectAlign subsystem with
    imports := imports, importsCap := cap }
  size : b.size = 0x200 + roundUp textVsize fileAlign
  pos : 0 < textVsize
  below : imageBase + roundUp (sectAlign + textVsize) sectAlign ≤ 0x0F000000

/-- What a blob that a fixture of `textVsize` bytes can be converted with has besides its symbols: segments that
are off the fixture's pages, and no more than the output has room for. -/
structure ShimFits (blob : Buffer) (textVsize : Nat) : Prop where
  apart : ∀ g ∈ shimRegions blob,
    Extent.Apart ⟨imageBase, imageBase + roundUp (sectAlign + textVsize) sectAlign⟩ g.addrs
  few : (shimLoads blob).length ≤ 62

section
variable {b blob : Buffer} {textVsize subsystem : Nat} {img : PeImage}

/-- The pages of the section end where the image does. -/
theorem roundUp_text (v : Nat) : roundUp (imageBase + sectAlign + roundUp v fileAlign) sectAlign =
    imageBase + roundUp (sectAlign + v) sectAlign := by
  simp only [roundUp, imageBase, sectAlign, fileAlign]
  omega

namespace IsFixture

theorem fsize_lt (h : IsFixture b textVsize subsystem img) : roundUp textVsize fileAlign < 0x0F000000 := by
  have hbelow := h.below
  rw [← roundUp_text] at hbelow
  have hle : imageBase + sectAlign + roundUp textVsize fileAlign ≤ _ := le_roundUp (a := sectAlign) (by decide)
  simp only [imageBase, sectAlign] at hle hbelow
  omega

theorem vsize_le (_ : IsFixture b textVsize subsystem img) : textVsize ≤ roundUp textVsize fileAlign :=
  le_roundUp (by decide)

theorem imageBase_eq (h : IsFixture b textVsize subsystem img) : img.imageBase = 0x00400000 := by
  obtain ⟨imports, cap, rfl⟩ := h.image
  rfl

/-- The regions: the headers, and the section behind them. -/
theorem peRegions_eq (h : IsFixture b textVsize subsystem img) : peRegions img =
    [⟨0, 0, 0x200, 0x200⟩, ⟨0x1000, 0x200, roundUp textVsize fileAlign, textVsize⟩] := by
  have hf := h.fsize_lt
  have hv := h.vsize_le
  obtain ⟨imports, cap, rfl⟩ := h.image
  have hfsize : (UInt32.ofNat (roundUp textVsize fileAlign)).toNat = roundUp textVsize fileAlign :=
    UInt32.toNat_ofNat_of_lt' (show _ < 2 ^ 32 by omega)
  have hvsize : (UInt32.ofNat textVsize).toNat = textVsize := UInt32.toNat_ofNat_of_lt' (show _ < 2 ^ 32 by omega)
  show [⟨0, 0, 0x200, 0x200⟩, (⟨0x1000, 0x200, (UInt32.ofNat (roundUp textVsize fileAlign)).toNat,
    (UInt32.ofNat textVsize).toNat⟩ : Region)] = _
  rw [hfsize, hvsize]

theorem wellFormed (h : IsFixture b textVsize subsystem img) (hshim : ShimFits blob textVsize)
    (hslots : ((importSlots img.imports).map fun s => word s.2.iatRva.toNat).Pairwise Extent.Apart) :
    WellFormed img blob := by
  have hbelow := h.below
  have hv := h.vsize_le
  have hregions := h.peRegions_eq
  have hbase : img.imageBase.toNat = imageBase := by
    rw [h.imageBase_eq]
    rfl
  have hend : roundUp (imageBase + (0x1000 + max textVsize (roundUp textVsize fileAlign))) 0x1000 =
      imageBase + roundUp (sectAlign + textVsize) sectAlign := by
    rw [Nat.max_eq_right hv, ← roundUp_text, ← Nat.add_assoc]
    rfl
  have hpages : (imageRegions img).map pages =
      [⟨imageBase, imageBase + 0x1000⟩,
        ⟨imageBase + 0x1000, imageBase + roundUp (sectAlign + textVsize) sectAlign⟩] := by
    rw [imageRegions, hregions, hbase]
    simp only [List.map_cons, List.map_nil, Region.shift, pages, Region.addrs, Extent.roundOut, ← Nat.add_assoc]
      at hend ⊢
    rw [hend]
    rfl
  have hmem : ∀ g ∈ imageRegions img, pages g = ⟨imageBase, imageBase + 0x1000⟩ ∨
      pages g = ⟨imageBase + 0x1000, imageBase + roundUp (sectAlign + textVsize) sectAlign⟩ := by
    intro g hg
    have hpage := List.mem_map_of_mem (f := pages) hg
    rw [hpages] at hpage
    simpa using hpage
  have hfirst : 0x1000 ≤ roundUp (sectAlign + textVsize) sectAlign :=
    Nat.le_trans (Nat.le_add_right ..) (le_roundUp (a := sectAlign) (by decide))
  have hbase' : imageBase = 0x00400000 := rfl
  refine ⟨?_, ?_, ?_, ?_, ?_, hslots⟩
  · obtain ⟨imports, cap, rfl⟩ := h.image
    show 0x200 ≤ b.size
    rw [h.size]
    exact Nat.le_add_right ..
  · rw [hpages, List.pairwise_pair, Extent.Apart]
    exact Nat.le_trans (Nat.min_le_left ..) (Nat.le_max_right ..)
  · intro g hg
    rcases hmem g hg with hp | hp
    · rw [hp]
      exact ⟨by decide, by decide⟩
    · rw [hp]
      exact ⟨show imageBase + 0x1000 < 2 ^ 32 by decide, Nat.le_trans hbelow (by decide)⟩
  · intro g hg g' hg'
    rcases hmem g hg with hp | hp
    · rw [hp]
      exact (hshim.apart g' hg').mono (Nat.le_refl _) (Nat.add_le_add_left hfirst _)
    · rw [hp]
      exact (hshim.apart g' hg').mono (Nat.le_add_right ..) (Nat.le_refl _)
  · rw [hregions, List.map_cons, List.map_singleton, List.pairwise_pair, Extent.Apart]
    exact Nat.le_trans (Nat.min_le_left ..) (Nat.le_max_right ..)

theorem convertible (h : IsFixture b textVsize subsystem img) {alloc : Alloc} {secs : List (List Symbol)}
    (hshim : ShimFits blob textVsize) (hcopy : alloc.shimCopy blob.size = true)
    (himports : ∀ s ∈ importSlots img.imports, ∃ w, BindsFirst secs img s w) :
    Convertible alloc blob secs img := by
  have hbelow := h.below
  have hfew := hshim.few
  obtain ⟨imports, cap, rfl⟩ := h.image
  have hlt : roundUp (sectAlign + textVsize) sectAlign < 2 ^ 32 := by omega
  refine ⟨fun hnil => List.cons_ne_nil _ _ hnil, ?_, ⟨0x400, rfl⟩, ?_, himports, hcopy, ?_⟩
  · show 1 + 1 + _ ≤ 64
    omega
  · intro s hs
    obtain rfl := List.mem_singleton.mp hs
    exact ⟨1, rfl⟩
  · show 0x00400000 + UInt32.ofNat (roundUp (sectAlign + textVsize) sectAlign) ≤ 0x0F000000
    have hsize := UInt32.toNat_ofNat_of_lt' (show _ < UInt32.size from hlt)
    have hbase : UInt32.toNat 0x00400000 = imageBase := rfl
    rw [UInt32.le_iff_toNat_le, toNat_add_of_lt (by rw [hsize, hbase]; omega), hsize, hbase]
    exact hbelow

/-- Every step succeeds: the conversion, the writing of the file, and its loading. -/
theorem converts (h : IsFixture b textVsize subsystem img) {alloc : Alloc} {fuel : Nat} {raw : Buffer}
    {secs : List (List Symbol)} {io : Stdio} (ha : alloc.Succeeds) (hio : io.WritesOk)
    (hlinked : ShimLinked blob secs) (hblob : ShimBlobOk blob) (hshim : ShimFits blob textVsize)
    (himg : peImageLoad alloc fuel raw = .ok img)
    (himports : ∀ s ∈ importSlots img.imports, ∃ w, BindsFirst secs img s w)
    (hslots : ((importSlots img.imports).map fun s => word s.2.iatRva.toNat).Pairwise Extent.Apart) :
    ∃ spec r file, peLayoutToElfSpec img = .ok spec ∧ stubPatchApply alloc.shimCopy blob img spec = .ok r ∧
      WellFormed img blob ∧ (elfWrite io r.mem r.spec).result = .ok file ∧ ∃ mem, ElfLoads (.ofList file) mem := by
  have hsize := hblob.size_lt
  have hcopy := ha.shimCopy blob.size (by rw [ptrdiffMax]; omega)
  obtain ⟨r, hr⟩ := (h.convertible hshim hcopy himports).exists_convert hlinked hblob
  obtain ⟨spec, hspec, hr⟩ := Res.bind_eq_ok.mp hr
  have hwf := h.wellFormed hshim hslots
  obtain ⟨file, hfile, henc⟩ :=
    elfWrite_encodes hio (pipeline_wellPlaced (peImageLoad_eq_ok himg) hspec hr hwf hblob)
  exact ⟨spec, r, file, hspec, hr, hwf, congrArg ElfWriteRun.result hfile,
    exists_elfLoads (peLayoutToElfSpec_eq_ok hspec) (stubPatchApply_eq_ok hr) hwf hblob henc⟩

end IsFixture

end

/-! ### Without imports -/

section
variable {alloc : Alloc} {exitCode subsystem : Nat} {bytes : List UInt8}

theorem build_eq_some (h : build exitCode subsystem = some bytes) : ∃ code hdr,
    exitCodeBytes exitCode = some code ∧ peHeader 12 0x200 sectAlign subsystem 0 0 = some hdr ∧
      bytes = hdr ++ (code ++ zeros 0x1F4) := by
  obtain ⟨code, hcode, h⟩ := Option.bind_eq_some_iff.mp h
  dsimp only at h
  rw [exitCodeBytes_length hcode] at h
  obtain ⟨hdr, hhdr, h⟩ := Option.bind_eq_some_iff.mp h
  rw [List.append_assoc, Option.some.injEq] at h
  exact ⟨code, hdr, hcode, hhdr, h.symm⟩

theorem build_loads (ha : alloc.Succeeds) (hsub : subsystem = 2 ∨ subsystem = 3)
    (h : build exitCode subsystem = some bytes) (fuel : Nat) : ∃ img,
      peImageLoad alloc fuel (.ofList bytes) = .ok img ∧ IsFixture (.ofList bytes) 12 subsystem img ∧
        img.imports = [] := by
  obtain ⟨code, hdr, hcode, hhdr, rfl⟩ := build_eq_some h
  obtain ⟨hlen, -, -, hheaders⟩ := peHeader_eq_some hhdr
  have hcodeLen := exitCodeBytes_length hcode
  have hsize : (Buffer.ofList (hdr ++ (code ++ zeros 0x1F4))).size = 0x200 + 0x200 := by
    rw [Buffer.size_ofList, List.length_append, List.length_append, hlen, hcodeLen, zeros, List.length_replicate]
  have hhdrs : (Buffer.ofList (hdr ++ (code ++ zeros 0x1F4))).Has 0 hdr := Buffer.has_ofList [] hdr _
  have hread := peReadHeaders_fixture (hheaders _ hhdrs) hsize (by decide) (by decide)
    (by decide) hsub (ha.sections 32 (by decide))
  refine ⟨_, ?_, ⟨⟨[], 0, rfl⟩, hsize, by decide, by decide⟩, rfl⟩
  rw [peImageLoad, loadImports, hread, Res.ok_bind]
  rfl

end

/-! ### With imports -/

section
variable {alloc : Alloc} {fuel exitCode subsystem : Nat} {b : Buffer} {dlls : List Dll} {call : Bool} {img : PeImage}

/-- What `fixture_roundTrip` recovers, and that nothing else is read. -/
theorem Built.loads (hb : Built b dlls call subsystem) (ha : alloc.Succeeds) (hfuel : 2 ^ 30 ≤ fuel)
    (hdlls : ∀ d ∈ dlls, d.Encodable) (hsub : subsystem = 2 ∨ subsystem = 3)
    (hbelow : imageBase + roundUp (sectAlign + dataEnd call dlls) sectAlign ≤ 0x0F000000) : ∃ img,
      peImageLoad alloc fuel b = .ok img ∧ IsFixture b (dataEnd call dlls) subsystem img ∧
        Pointwise (fun i d dll => DllRecovered (sectAlign + thunkOff call dlls i) d dll) dlls img.imports := by
  have hpos : 0 < dataEnd call dlls := by
    simp only [dataEnd, thunksOff, namesOff, codeLen]
    omega
  have hend := hb.end_lt
  have hheaders := peReadHeaders_fixture hb.headers hb.size hpos (by omega) hb.fsize_lt hsub
    (ha.sections 32 (by decide))
  have hdir : Built.dirRva call ≠ 0 := by
    cases call <;> decide
  obtain ⟨img, himg⟩ := exists_peParseImportsDir rfl rfl hdir ha hfuel (hb.importsAccepted hdlls)
  obtain ⟨-, ds, hds, hat⟩ := peParseImportsDir_spec rfl rfl hdir himg
  obtain rfl := hds.unique hb.desc_table
  refine ⟨{ img with hasTls := false }, ?_, ⟨?_, hb.size, hpos, hbelow⟩, ?_, fun i hi hi' => ?_⟩
  · rw [peImageLoad, loadImports, hheaders, Res.ok_bind]
    dsimp only
    rw [show UInt32.ofNat (sectAlign + codeLen call) = Built.dirRva call from rfl, himg]
    rfl
  · rw [peParseImportsDir, if_neg hdir, Res.bind_eq_ok] at himg
    obtain ⟨s, -, heq⟩ := himg
    cases heq
    exact ⟨_, _, rfl⟩
  · simpa using hat.length_eq
  · have hdll := hat.get i (by simpa using hi) hi'
    rw [List.getElem_map, List.getElem_range] at hdll
    exact hb.dllRecovered hi (hdlls _ (List.getElem_mem hi)) hdll

/-- The shim has a symbol for every import. -/
def Resolvable (secs : List (List Symbol)) (dlls : List Dll) : Prop :=
  ∀ d ∈ dlls, ∀ n ∈ d.ordinals, ∃ e addr, shimLookupImport d.name (ordinalName (UInt16.ofNat n)) = some e ∧
    firstNamed e.shimSymbol secs.flatten = some addr

/-- The slot of ordinal `k` of DLL `i`. -/
def slotOff (call : Bool) (dlls : List Dll) (i k : Nat) : Nat := thunkOff call dlls i + 4 * k

theorem slotOff_add_le {i j k : Nat} (hij : i < j) (hj : j < dlls.length) (hk : k ≤ dlls[i].ordinals.length) :
    slotOff call dlls i k + 4 ≤ thunkOff call dlls j := by
  have hlen : i < ((thunkSizes dlls).take j).length := by
    rw [List.length_take, thunkSizes, List.length_map]
    omega
  have hle := sum_take_add_le hlen
  rw [List.take_take, Nat.min_eq_left (Nat.le_of_lt hij), List.getElem_take] at hle
  simp only [thunkSizes, List.getElem_map] at hle
  simp only [slotOff, thunkOff, thunkSizes]
  omega

/-- A recovered import, by its place in what was asked for. -/
theorem exists_ordinal (h : Pointwise (fun i d dll => DllRecovered (sectAlign + thunkOff call dlls i) d dll) dlls
    img.imports) {s : List UInt8 × PeImportFunc} (hs : s ∈ importSlots img.imports) :
    ∃ i, ∃ hi : i < dlls.length, ∃ k, ∃ hk : k < dlls[i].ordinals.length, s.1 = dlls[i].name ∧
      s.2.name = ordinalName (UInt16.ofNat dlls[i].ordinals[k]) ∧
      s.2.iatRva.toNat = sectAlign + slotOff call dlls i k := by
  obtain ⟨dllName, fn⟩ := s
  obtain ⟨dll, hdll, rfl, hfn⟩ := mem_importSlots.mp hs
  obtain ⟨i, hi', rfl⟩ := List.getElem_of_mem hdll
  have hi : i < dlls.length := h.length_eq ▸ hi'
  obtain ⟨hname, hfuncs⟩ := h.get i hi hi'
  obtain ⟨k, hk', rfl⟩ := List.getElem_of_mem hfn
  have hk : k < dlls[i].ordinals.length := hfuncs.length_eq ▸ hk'
  obtain ⟨-, hord, hfname, hrva⟩ := hfuncs.get k hk hk'
  refine ⟨i, hi, k, hk, hname, ?_, by rw [hrva, slotOff, Nat.add_assoc]⟩
  rw [hfname, ← hord, UInt16.ofNat_toNat]

theorem slots_apart (h : Pointwise (fun i d dll => DllRecovered (sectAlign + thunkOff call dlls i) d dll) dlls
    img.imports) : ((importSlots img.imports).map fun s => word s.2.iatRva.toNat).Pairwise Extent.Apart := by
  have hfunc : ∀ i (hi : i < dlls.length) (hi' : i < img.imports.length) fn, fn ∈ img.imports[i].funcs →
      ∃ k < dlls[i].ordinals.length, fn.iatRva.toNat = sectAlign + slotOff call dlls i k := by
    intro i hi hi' fn hfn
    obtain ⟨k, hk', rfl⟩ := List.getElem_of_mem hfn
    obtain ⟨-, hfuncs⟩ := h.get i hi hi'
    obtain ⟨-, -, -, hrva⟩ := hfuncs.get k (hfuncs.length_eq ▸ hk') hk'
    exact ⟨k, hfuncs.length_eq ▸ hk', by rw [hrva, slotOff, Nat.add_assoc]⟩
  rw [importSlots, List.map_flatMap, List.pairwise_flatMap]
  constructor
  · intro dll hdll
    obtain ⟨i, hi', rfl⟩ := List.getElem_of_mem hdll
    obtain ⟨-, hfuncs⟩ := h.get i (h.length_eq ▸ hi') hi'
    rw [List.map_map, List.pairwise_map, List.pairwise_iff_getElem]
    intro j k hj hk hjk
    obtain ⟨-, -, -, hrva⟩ := hfuncs.get j (hfuncs.length_eq ▸ hj) hj
    obtain ⟨-, -, -, hrva'⟩ := hfuncs.get k (hfuncs.length_eq ▸ hk) hk
    simp only [Function.comp_apply, Extent.Apart, word, hrva, hrva']
    omega
  · rw [List.pairwise_iff_getElem]
    intro i j hi hj hij x hx y hy
    simp only [List.map_map, List.mem_map, Function.comp_apply] at hx hy
    obtain ⟨fn, hfn, rfl⟩ := hx
    obtain ⟨fn', hfn', rfl⟩ := hy
    have hj' : j < dlls.length := h.length_eq ▸ hj
    obtain ⟨k, hk, hrva⟩ := hfunc i (Nat.lt_trans hij hj') hi fn hfn
    obtain ⟨k', -, hrva'⟩ := hfunc j hj' hj fn' hfn'
    have hle := @slotOff_add_le dlls call _ _ _ hij hj' (Nat.le_of_lt hk)
    simp only [Extent.Apart, word, hrva, hrva', slotOff] at hle ⊢
    omega

theorem Built.bindsFirst (hb : Built b dlls call subsystem) {secs : List (List Symbol)}
    (hres : Resolvable secs dlls) (hfix : IsFixture b (dataEnd call dlls) subsystem img)
    (h : Pointwise (fun i d dll => DllRecovered (sectAlign + thunkOff call dlls i) d dll) dlls img.imports) :
    ∀ s ∈ importSlots img.imports, ∃ w, BindsFirst secs img s w := by
  intro s hs
  obtain ⟨i, hi, k, hk, hdll, hname, hrva⟩ := exists_ordinal h hs
  obtain ⟨e, addr, hlookup, haddr⟩ := hres _ (List.getElem_mem hi) _ (List.getElem_mem hk)
  refine ⟨(0x200 + slotOff call dlls i k, addr), ⟨e, by rw [hdll, hname, hlookup], haddr⟩, ?_⟩
  have hle := Built.thunkOff_le call hi
  have hslot := hb.rva hrva (n := 4) (by decide) (by
    show slotOff call dlls i k + 4 ≤ _
    rw [slotOff]
    omega)
  obtain ⟨imports, cap, rfl⟩ := hfix.image
  exact hslot

end

end Winlift.MkMiniPe

namespace Winlift
open CSem

/-! ### A shim linked as the build links it

The headers have a segment of their own, the page before `SHIM_MIN_BASE`; behind them come the code and the
data, with the word that is patched. -/

/-- `_start`, and two functions that only return. -/
def linkedCode : List UInt8 :=
  [0x31, 0xED] ++ [0x8B, 0x04, 0x24] ++ [0x8D, 0x5C, 0x24, 0x04] ++ [0x8D, 0x4C, 0x83, 0x04] ++
  [0x51] ++ [0x53] ++ [0x50] ++ [0xE8, 0x0A, 0x00, 0x00, 0x00] ++ [0x83, 0xC4, 0x0C] ++
  [0xA1, 0x00, 0x10, 0x00, 0x0F] ++ [0xFF, 0xE0] ++ [0xC3] ++ [0xC3]

def linkedLoad (offset vaddr size flags : UInt32) : Elf32Phdr :=
  { miniShimLoad with
    pOffset := offset, pVaddr := vaddr, pPaddr := vaddr, pFilesz := size, pMemsz := size, pFlags := flags }

def linkedShim : Buffer := .ofList <|
  ({ miniShimHeader with eShoff := 336, ePhnum := 3 } : Elf32Ehdr).bytes ++
  (linkedLoad 0 0x0EFFF000 148 pfR).bytes ++ (linkedLoad 148 0x0F000000 33 (pfR ||| pfX)).bytes ++
  (linkedLoad 181 0x0F001000 4 (pfR ||| pfW)).bytes ++
  linkedCode ++ wordBytes [0] ++
  -- symbols
  wordBytes [0, 0, 0, 0] ++ wordBytes [1, 0x0F000000, 0, 0] ++ wordBytes [8, 0x0F001000, 0, 0] ++
  wordBytes [29, 0x0F00001F, 0, 0] ++ wordBytes [47, 0x0F000020, 0, 0] ++
  -- their names
  0 :: cBytes "_start" ++ 0 :: cBytes "shim_pe_entry_target" ++ 0 :: cBytes "shim_startup_init" ++
  0 :: cBytes "shim_InitCommonControls" ++ 0 ::
  -- section headers
  wordBytes [0, 0, 0, 0, 0, 0, 0, 0, 0, 0] ++ wordBytes [0, shtSymtab, 0, 0, 185, 80, 2, 0, 0, 16] ++
  wordBytes [0, 3, 0, 0, 265, 71, 0, 0, 0, 0]

def linkedSymbols : List (List Symbol) :=
  [[], [⟨[], 0⟩, ⟨cBytes "_start", 0x0F000000⟩, ⟨cBytes "shim_pe_entry_target", 0x0F001000⟩,
    ⟨cBytes "shim_startup_init", 0x0F00001F⟩, ⟨cBytes "shim_InitCommonControls", 0x0F000020⟩], []]

theorem linkedShim_linked : ShimLinked linkedShim linkedSymbols where
  tables := by decide +kernel
  phdrs_le := by decide +kernel
  start := by decide +kernel
  target := ⟨0x0F001000, by decide +kernel⟩

theorem linkedShim_finds {name : String} {v : UInt32} (hname : 0 ∉ cBytes name)
    (h : firstNamed (cBytes name) linkedSymbols.flatten = some v) :
    shimFindSymbol linkedShim (cBytes name) = .ok (some v) := by
  rw [shimFindSymbol_eq linkedShim_linked.tables hname, h]

theorem linkedShim_target : shimFindSymbol linkedShim (cBytes "shim_pe_entry_target") = .ok (some 0x0F001000) :=
  linkedShim_finds cBytes_target_no_nul (by decide)

theorem linkedShim_ok : ShimBlobOk linkedShim where
  size_lt := by decide +kernel
  in_blob := by decide +kernel
  nonempty := by decide +kernel
  bounds := by decide +kernel
  pages_apart := by decide +kernel
  files_apart := by decide +kernel
  target_lt target h := by
    rw [linkedShim_target] at h
    cases h
    decide

end Winlift

namespace Winlift.MkMiniPe
open CSem

/-! ### A fixture converted with it -/

/-- Its first page is behind the fixture's last one. -/
theorem linkedShim_fits {textVsize : Nat}
    (hbelow : imageBase + roundUp (sectAlign + textVsize) sectAlign ≤ 0x0EFFF000) : ShimFits linkedShim textVsize where
  apart g hg := by
    have habove : ∀ g ∈ shimRegions linkedShim, 0x0EFFF000 ≤ g.addr := by decide +kernel
    have hlo := habove g hg
    rw [Extent.Apart]
    dsimp only [Region.addrs]
    omega
  few := by decide +kernel

theorem comctl32_encodable : ∀ d ∈ [Dll.mk (cBytes "COMCTL32.dll") [17]], d.Encodable := by
  intro d hd
  obtain rfl := List.mem_singleton.mp hd
  exact ⟨by decide, by decide, by decide⟩

theorem comctl32_entry : ∃ e, shimLookupImport (cBytes "COMCTL32.dll") (ordinalName 17) = some e ∧
    firstNamed e.shimSymbol linkedSymbols.flatten = some 0x0F000020 := by
  have hfind : (shimLookupImport (cBytes "COMCTL32.dll") (ordinalName 17)).any fun e =>
      firstNamed e.shimSymbol linkedSymbols.flatten = some 0x0F000020 := by decide +kernel
  obtain ⟨e, he, haddr⟩ := (Option.any_eq_true _ _).mp hfind
  exact ⟨e, he, of_decide_eq_true haddr⟩

theorem comctl32_resolvable : Resolvable linkedSymbols [⟨cBytes "COMCTL32.dll", [17]⟩] := by
  intro d hd n hn
  obtain rfl := List.mem_singleton.mp hd
  obtain rfl := List.mem_singleton.mp hn
  obtain ⟨e, he, haddr⟩ := comctl32_entry
  exact ⟨e, _, he, haddr⟩

/-- The fixture that calls its import, converted. -/
theorem ordinalImport_converted : ∃ img spec r file,
    peImageLoad .generous (2 ^ 30) ordinalImport = .ok img ∧ peLayoutToElfSpec img = .ok spec ∧
      stubPatchApply Alloc.generous.shimCopy linkedShim img spec = .ok r ∧ WellFormed img linkedShim ∧
      (elfWrite .working r.mem r.spec).result = .ok file ∧ ∃ mem, ElfLoads (.ofList file) mem := by
  have hsome : (buildWithImports 55 [⟨cBytes "COMCTL32.dll", [17]⟩] true 3).isSome = true := by decide
  obtain ⟨bytes, hbytes⟩ := Option.isSome_iff_exists.mp hsome
  have hfile : ordinalImport = .ofList bytes := by
    rw [ordinalImport, hbytes]
    rfl
  have hb := built_of_build hbytes
  obtain ⟨img, himg, hfix, himports⟩ := hb.loads Alloc.generous_succeeds (Nat.le_refl _) comctl32_encodable
    (.inr rfl) (by decide)
  obtain ⟨spec, r, file, hspec, hr, hwf, hwrite, hmem⟩ := hfix.converts Alloc.generous_succeeds Stdio.working_ok
    linkedShim_linked linkedShim_ok (linkedShim_fits (by decide)) himg
    (hb.bindsFirst comctl32_resolvable hfix himports) (slots_apart himports)
  exact ⟨img, spec, r, file, hfile ▸ himg, hspec, hr, hwf, hwrite, hmem⟩

end Winlift.MkMiniPe

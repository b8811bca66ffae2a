import Winlift.ImportSpec
import Winlift.SymbolSpec

/-!
# Which imports are bound, and to what

`stub_patch_apply` stores one word for each import and one in its copy of the shim; everything else
stays as it was (`imports_patched`). The table entry an import is bound to is that of its complete strings
(`lookup_complete`), and an ordinal is bound by the name made up for it, which a function can also have
(`ordinalsApart_iff`).
-/

namespace Winlift
open CSem

/-! ### What is stored -/

/-- The word `w`, an offset and a value, is what the import `s` stands for. -/
structure SlotBound (blob : Buffer) (img : PeImage) (s : List UInt8 × PeImportFunc) (w : Nat × UInt32) :
    Prop where
  symbol : ∃ e ∈ gShimImports, shimLookupImport s.1 s.2.name = some e ∧
    shimFindSymbol blob e.shimSymbol = .ok (some w.2)
  backed : peRvaToPtr img s.2.iatRva 4 = some w.1

/-- What `stub_patch_apply` has done when it returns: every byte of the file is that of the last import
whose slot covers it, and the old one when there is none; the shim's copy differs in one word. -/
structure ImportsPatched (blob : Buffer) (img : PeImage) (spec : Spec) (r : StubPatched) : Prop where
  slots : ∃ ws, List.Forall₂ (SlotBound blob img) (importSlots img.imports) ws ∧ ∀ i,
    r.img.raw.byte i = ((Buffer.lastAt ws i).map fun w => leByte w.2 (i - w.1)).getD (img.raw.byte i)
  size_eq : r.img.raw.size = img.raw.size
  others : r.img = { img with raw := r.img.raw }
  segments : ∃ segs, r.spec.segments = spec.segments ++ segs ∧ segs.map unplace = shimSegments blob
  shim : ∃ target o, shimFindSymbol blob (cBytes "shim_pe_entry_target") = .ok (some target) ∧
    r.shim = blob.patch32 o (img.imageBase + img.entryPointRva) ∧
      (ShimBlobOk blob → BacksWord (shimRegions blob) target.toNat o)

section
variable {blob : Buffer} {img : PeImage} {spec : Spec} {r : StubPatched}

theorem shimLookupImport_mem {dllName funcName : List UInt8} {e : ShimImportEntry}
    (h : shimLookupImport dllName funcName = some e) : e ∈ gShimImports :=
  List.mem_of_find?_eq_some h

theorem BindsSlot.bound {s : List UInt8 × PeImportFunc} {w : Nat × UInt32} (h : BindsSlot blob img s w) :
    SlotBound blob img s w := by
  obtain ⟨e, he, hsym⟩ := resolveImport_eq_ok h.addr
  exact ⟨⟨e, shimLookupImport_mem he, he, hsym⟩, h.slot⟩

/-- On a blob with symbol tables the address is that of the first symbol of the name. -/
theorem slotBound_iff {secs : List (List Symbol)} (h : SymbolTables blob secs) {s : List UInt8 × PeImportFunc}
    {w : Nat × UInt32} : SlotBound blob img s w ↔ BindsFirst secs img s w := by
  constructor
  · rintro ⟨⟨e, he, hlookup, hfind⟩, hslot⟩
    rw [shimFindSymbol_eq h (shimSymbol_no_nul e he)] at hfind
    exact ⟨⟨e, hlookup, Res.ok.inj hfind⟩, hslot⟩
  · rintro ⟨⟨e, hlookup, hsym⟩, hslot⟩
    have he := shimLookupImport_mem hlookup
    exact ⟨⟨e, he, hlookup, by rw [shimFindSymbol_eq h (shimSymbol_no_nul e he), hsym]⟩, hslot⟩

theorem imports_patched {grant : Nat → Bool} (hr : stubPatchApply grant blob img spec = .ok r) :
    ImportsPatched blob img spec r := by
  have hstub := stubPatchApply_eq_ok hr
  obtain ⟨ws, hws, hraw⟩ := patchImports_eq_ok hstub.patched
  obtain ⟨hothers, hsize⟩ := patchImports_frame hstub.patched
  obtain ⟨segs, hsegs, hshim, -⟩ := hstub.segments
  obtain ⟨target, htarget, hpoke⟩ := hstub.target
  refine ⟨⟨ws, hws.imp fun _ _ h => h.bound, fun i => ?_⟩, hsize, hothers, ⟨segs, hsegs, hshim⟩, target, ?_⟩
  · rw [hraw, Buffer.byte_patches]
  · by_cases hblob : ShimBlobOk blob
    · obtain ⟨o, hback, heq⟩ := shimPoke32_stores hblob (hblob.target_lt target htarget) hpoke
      exact ⟨o, htarget, heq, fun _ => hback⟩
    · obtain ⟨ph, -, -, heq⟩ := shimPoke32_eq_ok hpoke
      exact ⟨_, htarget, heq, fun h => absurd h hblob⟩

end

theorem imports_patched_ordinalImport : ∃ img spec r,
    peImageLoad .generous 9 MkMiniPe.ordinalImport = .ok img ∧ peLayoutToElfSpec img = .ok spec ∧
      stubPatchApply (fun _ => true) miniShim img spec = .ok r ∧ ImportsPatched miniShim img spec r := by
  obtain ⟨img, spec, r, himg, hspec, hr, -⟩ := ordinalImport_converts
  exact ⟨img, spec, r, himg, hspec, hr, imports_patched hr⟩

/-! ### The table -/

def ShimImportEntry.key (e : ShimImportEntry) : List UInt8 × List UInt8 := (e.dllName.map tolower, e.funcName)

/-- `e` stands for the function: the name of the DLL is equal up to the case of ASCII letters, that of the
function byte for byte. -/
def ShimImportEntry.Matches (e : ShimImportEntry) (dllName funcName : List UInt8) : Prop :=
  e.key = (dllName.map tolower, funcName)

instance instDecidableMatches (e : ShimImportEntry) (dllName funcName : List UInt8) :
    Decidable (e.Matches dllName funcName) :=
  inferInstanceAs (Decidable (_ = _))

theorem ciStreq_iff (as bs : List UInt8) : ciStreq as bs = true ↔ as.map tolower = bs.map tolower := by
  induction as generalizing bs with
  | nil => cases bs <;> simp [ciStreq]
  | cons a as ih =>
    cases bs with
    | nil => simp [ciStreq]
    | cons b bs =>
      rw [ciStreq, List.map_cons, List.map_cons, List.cons.injEq]
      by_cases h : tolower a = tolower b
      · rw [if_neg (not_not_intro h), ih, and_iff_right h]
      · rw [if_pos h]
        exact ⟨nofun, fun heq => absurd heq.1 h⟩

/-- No two entries stand for the same function. -/
theorem gShimImports_keys_nodup : (gShimImports.map ShimImportEntry.key).Nodup := by decide +kernel

theorem gShimImports_short : ∀ e ∈ gShimImports, e.dllName.length < 63 ∧ e.funcName.length < 127 := by
  decide +kernel

theorem matches_iff (e : ShimImportEntry) (dllName funcName : List UInt8) :
    (ciStreq e.dllName dllName && e.funcName == funcName) = true ↔ e.Matches dllName funcName := by
  rw [Bool.and_eq_true, ciStreq_iff, beq_iff_eq, ShimImportEntry.Matches, ShimImportEntry.key, Prod.mk.injEq]

theorem shimLookupImport_matches {dllName funcName : List UInt8} {e : ShimImportEntry}
    (h : shimLookupImport dllName funcName = some e) : e.Matches dllName funcName := by
  unfold shimLookupImport at h
  have hfound := List.find?_some h
  exact (matches_iff ..).mp hfound

theorem eq_of_matches {dllName funcName : List UInt8} {e e' : ShimImportEntry} (he : e ∈ gShimImports)
    (he' : e' ∈ gShimImports) (h : e.Matches dllName funcName) (h' : e'.Matches dllName funcName) : e = e' :=
  List.inj_on_of_nodup_map gShimImports_keys_nodup he he' (h.trans h'.symm)

theorem shimLookupImport_eq_some {dllName funcName : List UInt8} {e : ShimImportEntry} :
    shimLookupImport dllName funcName = some e ↔ e ∈ gShimImports ∧ e.Matches dllName funcName := by
  constructor
  · intro h
    exact ⟨shimLookupImport_mem h, shimLookupImport_matches h⟩
  · rintro ⟨hmem, hmatch⟩
    have hsome : (shimLookupImport dllName funcName).isSome = true :=
      List.find?_isSome.mpr ⟨e, hmem, (matches_iff ..).mpr hmatch⟩
    obtain ⟨e', he'⟩ := Option.isSome_iff_exists.mp hsome
    rw [he', eq_of_matches (shimLookupImport_mem he') hmem (shimLookupImport_matches he') hmatch]

/-- Counted by their places in the table. -/
theorem matches_length_le (dllName funcName : List UInt8) :
    (gShimImports.filter (·.Matches dllName funcName)).length ≤ 1 := by
  have hnodup := (gShimImports_keys_nodup.of_map _).filter fun e => decide (e.Matches dllName funcName)
  have hmem : ∀ e ∈ gShimImports.filter (·.Matches dllName funcName),
      e ∈ gShimImports ∧ e.Matches dllName funcName := by
    simp only [List.mem_filter, decide_eq_true_eq]
    exact fun e he => he
  generalize gShimImports.filter (·.Matches dllName funcName) = l at hnodup hmem
  rcases l with _ | ⟨e, _ | ⟨e', l⟩⟩
  · exact Nat.zero_le _
  · exact Nat.le_refl _
  · obtain ⟨he, hm⟩ := hmem e (by simp)
    obtain ⟨he', hm'⟩ := hmem e' (by simp)
    rw [eq_of_matches he he' hm hm'] at hnodup
    exact absurd List.mem_cons_self (List.nodup_cons.mp hnodup).1

/-! ### The strings looked up -/

/-- Every import by name is bound to the entry of its strings in the file, whatever their length; for any
pair of strings there is at most one. -/
structure LookupsComplete (img : PeImage) (dirRva : UInt32) : Prop where
  unique : ∀ dllName funcName, (gShimImports.filter (·.Matches dllName funcName)).length ≤ 1
  complete : ∀ i (hi : i < img.imports.length) j (hj : j < img.imports[i].funcs.length),
    img.imports[i].funcs[j].byOrdinal = false → ∃ desc thunk, descriptorAt img dirRva i = some desc ∧
      thunkAt img desc.thunkRva j = some thunk ∧ ¬ isOrdinalThunk thunk ∧
      ∀ e, shimLookupImport img.imports[i].dllName img.imports[i].funcs[j].name = some e ↔
        e ∈ gShimImports ∧ ∃ dllName funcName, Table (byteAt img desc.name) (· = 0) dllName ∧
          Table (byteAt img (thunk + 2)) (· = 0) funcName ∧ e.Matches dllName funcName

section
variable {alloc : Alloc} {fuel : Nat} {raw : Buffer} {img img₀ : PeImage} {dirs : PeDirs}

/-- The imports of a loaded image are those of its import directory, if it has one. -/
theorem peImageLoad_imports (hhdr : peReadHeaders alloc.sections raw = .ok (img₀, dirs))
    (h : peImageLoad alloc fuel raw = .ok img) :
    if dirs.imports.virtualAddress = 0 then img.imports = []
    else ImportsAt img dirs.imports.virtualAddress img.imports := by
  obtain ⟨img₀', img₁, img₂, dirs', hhdr', himp, hrel, htls⟩ := peImageLoad_parts h
  cases hhdr.symm.trans hhdr'
  obtain ⟨hnew, hcap, -⟩ := peReadHeaders_new hhdr
  rw [(wp_peParseTlsDir (F := fun _ => True) fuel _ _).of_ok htls, peParseRelocsDir_eq hrel]
  split_ifs with hdir
  · rw [peParseImportsDir, if_pos hdir] at himp
    cases himp
    exact hnew
  · have himports := (peParseImportsDir_spec hnew hcap hdir himp).2
    obtain ⟨s, -, rfl⟩ := (peParseImportsDir_eq_ok hnew hcap hdir).mp himp
    refine himports.congr ?_ ?_
    · rfl
    · rfl

/-- Strings that the parser's buffers cut off have no entry, and neither have the cut ones. -/
theorem lookup_eq_some_iff {dllRva nameRva : UInt32} {dllName funcName : List UInt8}
    (hdll : CStringAt img dllRva 63 dllName) (hfunc : CStringAt img nameRva 127 funcName)
    (e : ShimImportEntry) : shimLookupImport dllName funcName = some e ↔ e ∈ gShimImports ∧
      ∃ dllName' funcName', Table (byteAt img dllRva) (· = 0) dllName' ∧
        Table (byteAt img nameRva) (· = 0) funcName' ∧ e.Matches dllName' funcName' := by
  rw [shimLookupImport_eq_some]
  refine and_congr_right fun hmem => ?_
  have hlen : ∀ d f, e.Matches d f → d.length < 63 ∧ f.length < 127 := by
    intro d f hmatch
    obtain ⟨hd, rfl⟩ := Prod.mk.inj hmatch
    have hd := congrArg List.length hd
    rw [List.length_map, List.length_map] at hd
    exact ⟨hd ▸ (gShimImports_short e hmem).1, (gShimImports_short e hmem).2⟩
  constructor
  · intro hmatch
    obtain ⟨hd, hf⟩ := hlen _ _ hmatch
    exact ⟨dllName, funcName, hdll.table hd, hfunc.table hf, hmatch⟩
  · rintro ⟨d, f, hd, hf, hmatch⟩
    obtain ⟨hdlt, hflt⟩ := hlen _ _ hmatch
    rwa [hdll.eq_of_table hd (Nat.le_of_lt hdlt), hfunc.eq_of_table hf (Nat.le_of_lt hflt)]

section
variable (hhdr : peReadHeaders alloc.sections raw = .ok (img₀, dirs))
  (hload : peImageLoad alloc fuel raw = .ok img)
include hhdr hload

/-- The descriptor and the thunk a recorded import has been read from. -/
theorem exists_thunk {i j : Nat} (hi : i < img.imports.length) (hj : j < img.imports[i].funcs.length) :
    ∃ desc thunk iatRva, descriptorAt img dirs.imports.virtualAddress i = some desc ∧
      thunkAt img desc.thunkRva j = some thunk ∧ CStringAt img desc.name 63 img.imports[i].dllName ∧
        FuncAt img thunk iatRva img.imports[i].funcs[j] := by
  have himports := peImageLoad_imports hhdr hload
  split_ifs at himports with hdir
  · rw [himports] at hi
    cases hi
  · obtain ⟨descs, hdescs, hdlls⟩ := himports
    have hid : i < descs.length := hdlls.length_eq ▸ hi
    obtain ⟨hname, ts, hts, hfuncs⟩ := hdlls.get i hid hi
    have hjt : j < ts.length := hfuncs.length_eq ▸ hj
    exact ⟨_, _, _, (hdescs.entries i hid).1, (hts.entries j hjt).1, hname, hfuncs.get j hjt hj⟩

theorem lookup_complete : LookupsComplete img dirs.imports.virtualAddress := by
  refine ⟨matches_length_le, fun i hi j hj hby => ?_⟩
  obtain ⟨desc, thunk, iatRva, hdesc, hthunk, hname, hfn⟩ := exists_thunk hhdr hload hi hj
  have hnot : ¬ isOrdinalThunk thunk := by
    rw [← hfn.byOrdinal_iff, hby]
    exact Bool.false_ne_true
  exact ⟨desc, thunk, hdesc, hthunk, hnot, lookup_eq_some_iff hname (hfn.ofName hnot).2⟩

end

end

/-- The fixture with its import by ordinal made one by name, of a function called `#17`. -/
def namedOrdinalFile : Buffer :=
  MkMiniPe.ordinalImport.patches [(320, 0x100), (0x247, 0x1050), (0x252, 0x00373123)]

theorem namedOrdinalFile_loads : ∃ img p, peReadHeaders Alloc.generous.sections namedOrdinalFile = .ok p ∧
    peImageLoad .generous 5 namedOrdinalFile = .ok img ∧ ∃ dll ∈ img.imports, ∃ fn ∈ dll.funcs,
      fn.byOrdinal = false ∧ ∃ e, shimLookupImport dll.dllName fn.name = some e ∧ e.funcName = ordinalName 17 := by
  have hrun : (peReadHeaders Alloc.generous.sections namedOrdinalFile).okAnd fun _ =>
      (peImageLoad .generous 5 namedOrdinalFile).okAnd fun img => img.imports.any fun dll =>
        dll.funcs.any fun fn => fn.byOrdinal = false ∧
          (shimLookupImport dll.dllName fn.name).any fun e => e.funcName = ordinalName 17 := by decide +kernel
  obtain ⟨p, hp, hrun⟩ := Res.okAnd_iff.mp hrun
  obtain ⟨img, himg, hrun⟩ := Res.okAnd_iff.mp hrun
  obtain ⟨dll, hdll, hrun⟩ := List.any_eq_true.mp hrun
  obtain ⟨fn, hfn, hrun⟩ := List.any_eq_true.mp hrun
  obtain ⟨hby, hlookup⟩ := of_decide_eq_true hrun
  obtain ⟨e, he, hname⟩ := (Option.any_eq_true _ _).mp hlookup
  exact ⟨img, p, hp, himg, dll, hdll, fn, hfn, hby, e, he, of_decide_eq_true hname⟩

theorem lookup_complete_namedOrdinal : ∃ img img₀ dirs,
    peReadHeaders Alloc.generous.sections namedOrdinalFile = .ok (img₀, dirs) ∧
    peImageLoad .generous 5 namedOrdinalFile = .ok img ∧
    LookupsComplete img dirs.imports.virtualAddress := by
  obtain ⟨img, ⟨img₀, dirs⟩, hhdr, hload, -⟩ := namedOrdinalFile_loads
  exact ⟨img, img₀, dirs, hhdr, hload, lookup_complete hhdr hload⟩

/-! ### Ordinals and names -/

theorem char_of_digit {c : Char} (h : c.isDigit = true) : Char.ofNat (UInt8.ofNat c.toNat).toNat = c := by
  have hle : c.toNat ≤ 57 := by
    rw [Char.isDigit, Bool.and_eq_true, decide_eq_true_eq, decide_eq_true_eq] at h
    exact UInt32.le_iff_toNat_le.mp h.2
  rw [UInt8.toNat_ofNat_of_lt' (show c.toNat < 2 ^ 8 by omega), Char.ofNat_toNat]

theorem ordinalName_injective : Function.Injective ordinalName := by
  intro n n' h
  have hdec : ∀ n : Nat, (cBytes (toString n)).map (fun b => Char.ofNat b.toNat) = Nat.toDigits 10 n := by
    intro n
    have hlist : (toString n).toList = Nat.toDigits 10 n := Nat.toList_repr
    rw [cBytes, hlist, List.map_map]
    conv_rhs => rw [← List.map_id (Nat.toDigits 10 n)]
    exact List.map_congr_left fun c hc => char_of_digit (Nat.isDigit_of_mem_toDigits (by decide) (by decide) hc)
  have hdigits : Nat.toDigits 10 n.toNat = Nat.toDigits 10 n'.toNat := by
    rw [← hdec, ← hdec, List.append_cancel_left h]
  have hval := congrArg (Nat.ofDigitChars 10 · 0) hdigits
  rw [Nat.ofDigitChars_toDigits (by decide) (Nat.le_refl _),
    Nat.ofDigitChars_toDigits (by decide) (Nat.le_refl _)] at hval
  exact UInt16.toNat_inj.mp hval

theorem ordinalName_length (n : UInt16) : (ordinalName n).length ≤ 6 := by
  have hlt : n.toNat < 10 ^ 5 := Nat.lt_trans n.toNat_lt (by decide)
  have hdigits : (Nat.toDigits 10 n.toNat).length ≤ 5 :=
    (Nat.length_toDigits_le_iff (by decide) (by decide)).mpr hlt
  have hlist : (toString n.toNat).toList = Nat.toDigits 10 n.toNat := Nat.toList_repr
  have hhash : (cBytes "#").length = 1 := rfl
  rw [ordinalName, List.length_append, hhash, cBytes, List.length_map, hlist]
  omega

/-- Imports by ordinal and by name are told apart by what is recorded of them. -/
structure OrdinalsApart (img : PeImage) : Prop where
  named : ∀ dll ∈ img.imports, ∀ fn ∈ dll.funcs, fn.byOrdinal = false → ∀ n, fn.name ≠ ordinalName n
  ordinals : ∀ dll ∈ img.imports, ∀ fn ∈ dll.funcs, ∀ fn' ∈ dll.funcs, fn.byOrdinal = true →
    fn'.byOrdinal = true → (fn.name = fn'.name ↔ fn.ordinal = fn'.ordinal)
  bound : ∀ dll ∈ img.imports, ∀ fn ∈ dll.funcs, fn.byOrdinal = false →
    ∀ e, shimLookupImport dll.dllName fn.name = some e → ∀ n, e.funcName ≠ ordinalName n

/-- No function imported by name has a name of the form `#<ordinal>` in the file. -/
def NoOrdinalNames (img : PeImage) (dirRva : UInt32) : Prop :=
  ∀ descs, Table (descriptorAt img dirRva) PeImportDescriptor.isTerminator descs → ∀ desc ∈ descs,
    ∀ ts, Table (thunkAt img desc.thunkRva) (· = 0) ts → ∀ t ∈ ts, ¬ isOrdinalThunk t →
      ∀ n, ¬ Table (byteAt img (t + 2)) (· = 0) (ordinalName n)

section
variable {alloc : Alloc} {fuel : Nat} {raw : Buffer} {img img₀ : PeImage} {dirs : PeDirs}

theorem name_eq_ordinalName_iff {nameRva : UInt32} {name : List UInt8} (h : CStringAt img nameRva 127 name)
    (n : UInt16) : name = ordinalName n ↔ Table (byteAt img nameRva) (· = 0) (ordinalName n) := by
  have hlen := ordinalName_length n
  constructor
  · rintro rfl
    exact h.table (by omega)
  · intro hn
    exact h.eq_of_table hn (by omega)

/-- Nothing but the name tells them apart: `by_ordinal` is recorded and not looked at. -/
theorem ordinalsApart_iff (hhdr : peReadHeaders alloc.sections raw = .ok (img₀, dirs))
    (hload : peImageLoad alloc fuel raw = .ok img) : OrdinalsApart img ↔
      (dirs.imports.virtualAddress ≠ 0 → NoOrdinalNames img dirs.imports.virtualAddress) := by
  have himports := peImageLoad_imports hhdr hload
  constructor
  · intro hapart hdir descs hdescs desc hdesc ts hts t ht hnot n hname
    rw [if_neg hdir] at himports
    obtain ⟨descs', hdescs', hdlls⟩ := himports
    obtain rfl := hdescs.unique hdescs'
    obtain ⟨-, dll, hdll, -, ts', hts', hfuncs⟩ := hdlls.exists_right hdesc
    obtain rfl := hts.unique hts'
    obtain ⟨_, fn, hfn, hat⟩ := hfuncs.exists_right ht
    have hby : fn.byOrdinal = false := by
      rw [← Bool.not_eq_true, hat.byOrdinal_iff]
      exact hnot
    exact hapart.named dll hdll fn hfn hby n ((name_eq_ordinalName_iff (hat.ofName hnot).2 n).mpr hname)
  · intro hcond
    split_ifs at himports with hdir
    · constructor <;> simp [himports]
    · obtain ⟨descs, hdescs, hdlls⟩ := himports
      have hnamed : ∀ dll ∈ img.imports, ∀ fn ∈ dll.funcs, fn.byOrdinal = false →
          ∀ n, fn.name ≠ ordinalName n := by
        intro dll hdll fn hfn hby n hname
        obtain ⟨-, desc, hdesc, -, ts, hts, hfuncs⟩ := hdlls.exists_left hdll
        obtain ⟨_, t, ht, hat⟩ := hfuncs.exists_left hfn
        have hnot : ¬ isOrdinalThunk t := by
          rw [← hat.byOrdinal_iff, hby]
          exact Bool.false_ne_true
        exact hcond hdir descs hdescs desc hdesc ts hts t ht hnot n
          ((name_eq_ordinalName_iff (hat.ofName hnot).2 n).mp hname)
      have hord : ∀ dll ∈ img.imports, ∀ fn ∈ dll.funcs, fn.byOrdinal = true →
          fn.name = ordinalName fn.ordinal := by
        intro dll hdll fn hfn hby
        obtain ⟨-, desc, -, -, ts, -, hfuncs⟩ := hdlls.exists_left hdll
        obtain ⟨_, t, -, hat⟩ := hfuncs.exists_left hfn
        exact (hat.ofOrdinal (hat.byOrdinal_iff.mp hby)).2
      refine ⟨hnamed, fun dll hdll fn hfn fn' hfn' hby hby' => ?_, fun dll hdll fn hfn hby e he n hname => ?_⟩
      · rw [hord dll hdll fn hfn hby, hord dll hdll fn' hfn' hby', ordinalName_injective.eq_iff]
      · have hfunc : e.funcName = fn.name := (Prod.mk.inj (shimLookupImport_matches he)).2
        exact hnamed dll hdll fn hfn hby n (hfunc ▸ hname)

end

/-- The same fixture with an import of a function called `Foo`. -/
def namedImportFile : Buffer :=
  MkMiniPe.ordinalImport.patches [(320, 0x100), (0x247, 0x1050), (0x252, 0x006F6F46)]

theorem ordinalsApart_namedImport : ∃ img img₀ dirs,
    peReadHeaders Alloc.generous.sections namedImportFile = .ok (img₀, dirs) ∧
    peImageLoad .generous 5 namedImportFile = .ok img ∧
    importSlots img.imports = [(cBytes "COMCTL32.dll", ⟨cBytes "Foo", 0, false, 0x1047⟩)] ∧ OrdinalsApart img := by
  have hrun : (peReadHeaders Alloc.generous.sections namedImportFile).okAnd fun p =>
      (peImageLoad .generous 5 namedImportFile).okAnd fun img =>
        p.2.imports.virtualAddress = 0x1012 ∧
        importSlots img.imports = [(cBytes "COMCTL32.dll", ⟨cBytes "Foo", 0, false, 0x1047⟩)] ∧
        (descriptorAt img 0x1012 0 = some ⟨0, 0, 0, 0x103A, 0x1047⟩ ∧
          descriptorAt img 0x1012 1 = some ⟨0, 0, 0, 0, 0⟩) ∧
        (thunkAt img 0x1047 0 = some 0x1050 ∧ thunkAt img 0x1047 1 = some 0) ∧
        byteAt img 0x1052 0 = some 0x46 := by decide +kernel
  obtain ⟨⟨img₀, dirs⟩, hhdr, hrun⟩ := Res.okAnd_iff.mp hrun
  obtain ⟨img, hload, hrun⟩ := Res.okAnd_iff.mp hrun
  obtain ⟨hdir, hslots, ⟨hdesc, hlast⟩, ⟨hthunk, hend⟩, hbyte⟩ := of_decide_eq_true hrun
  have hdescs : Table (descriptorAt img 0x1012) PeImportDescriptor.isTerminator [⟨0, 0, 0, 0x103A, 0x1047⟩] :=
    ⟨.cons hdesc (by decide) .nil, _, hlast, by decide⟩
  have hthunks : Table (thunkAt img 0x1047) (· = 0) [0x1050] := ⟨.cons hthunk (by decide) .nil, _, hend, rfl⟩
  refine ⟨img, img₀, dirs, hhdr, hload, hslots, (ordinalsApart_iff hhdr hload).mpr fun _ => ?_⟩
  rw [hdir]
  intro descs hdescs' desc hdesc ts hts t ht _ n hname
  obtain rfl := hdescs'.unique hdescs
  obtain rfl := List.mem_singleton.mp hdesc
  obtain rfl := hts.unique hthunks
  obtain rfl := List.mem_singleton.mp ht
  -- the name does not begin with `#`
  obtain ⟨hfirst, -⟩ := hname.entries 0 (Nat.zero_lt_succ _)
  cases hbyte.symm.trans hfirst

theorem namedOrdinalFile_confused : ¬ ∀ alloc fuel raw img, peImageLoad alloc fuel raw = .ok img →
    OrdinalsApart img := by
  intro h
  obtain ⟨img, -, -, hload, dll, hdll, fn, hfn, hby, e, he, hname⟩ := namedOrdinalFile_loads
  exact (h _ _ _ _ hload).bound dll hdll fn hfn hby e he 17 hname

end Winlift

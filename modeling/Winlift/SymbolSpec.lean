import Winlift.ImageMap

/-!
# Symbols of the shim blob

`shim_find_symbol` walks the section headers, and in each `SHT_SYMTAB` section the symbols. `SectionsAt`
says what is there for it to find, one list of symbols for each section header; on such a blob the
walk never leaves the blob and ends at the first symbol of the name, in the order of the sections and
of the symbols in them (`shimFindSymbol_eq`). An import is bound to that symbol
(`imports_bound_iff`).
-/

namespace Winlift
open CSem

structure Symbol where
  name : List UInt8
  value : UInt32
deriving DecidableEq, Repr

section
variable (blob : Buffer)

/-- The C string `s` is at offset `o`. -/
def BlobString (o : Nat) (s : List UInt8) : Prop :=
  o + (s.length + 1) ≤ blob.size ∧ blob.slice o (s.length + 1) = s ++ [0] ∧ 0 ∉ s

/-- The symbols from symbol `j` on of the table at `syms`, their names in the string table at `strs`. -/
def SymbolsAt (syms strs : Nat) : Nat → List Symbol → Prop
  | _, [] => True
  | j, s :: rest =>
    (syms + j * elf32SymSize + elf32SymSize ≤ blob.size ∧
      BlobString blob (strs + (elf32SymAt blob (syms + j * elf32SymSize)).stName.toNat) s.name ∧
      (elf32SymAt blob (syms + j * elf32SymSize)).stValue = s.value) ∧
    SymbolsAt syms strs (j + 1) rest

/-- The symbols of the section whose header is at `shdr`; other sections than symbol tables have none. -/
def SectionAt (shdrs shdr : Nat) (ss : List Symbol) : Prop :=
  let sh := elf32ShdrAt blob shdr
  let link := shdrs + sh.shLink.toNat * elf32ShdrSize
  shdr + elf32ShdrSize ≤ blob.size ∧
    if sh.shType ≠ shtSymtab then ss = []
    else link + elf32ShdrSize ≤ blob.size ∧ ss.length = sh.shSize.toNat / elf32SymSize ∧
      SymbolsAt blob sh.shOffset.toNat (elf32ShdrAt blob link).shOffset.toNat 0 ss

def SectionsAt (shdrs : Nat) : Nat → List (List Symbol) → Prop
  | _, [] => True
  | i, ss :: rest => SectionAt blob shdrs (shdrs + i * elf32ShdrSize) ss ∧ SectionsAt shdrs (i + 1) rest

instance (o : Nat) (s : List UInt8) : Decidable (BlobString blob o s) :=
  inferInstanceAs (Decidable (_ ∧ _))

instance instDecidableSymbolsAt (syms strs : Nat) : ∀ j ss, Decidable (SymbolsAt blob syms strs j ss)
  | _, [] => isTrue trivial
  | j, _ :: rest =>
    have := instDecidableSymbolsAt syms strs (j + 1) rest
    inferInstanceAs (Decidable (_ ∧ _))

instance (shdrs shdr : Nat) (ss : List Symbol) : Decidable (SectionAt blob shdrs shdr ss) := by
  unfold SectionAt
  infer_instance

instance instDecidableSectionsAt (shdrs : Nat) : ∀ i secs, Decidable (SectionsAt blob shdrs i secs)
  | _, [] => isTrue trivial
  | i, _ :: rest =>
    have := instDecidableSectionsAt shdrs (i + 1) rest
    inferInstanceAs (Decidable (_ ∧ _))

/-- The symbol tables of a blob whose headers, symbols and names are all inside, one list for each
section. -/
def SymbolTables (secs : List (List Symbol)) : Prop :=
  elf32EhdrSize ≤ blob.size ∧ secs.length = (elf32EhdrAt blob 0).eShnum.toNat ∧
    SectionsAt blob (elf32EhdrAt blob 0).eShoff.toNat 0 secs

instance (secs : List (List Symbol)) : Decidable (SymbolTables blob secs) :=
  inferInstanceAs (Decidable (_ ∧ _))

end

/-- The first symbol of the name. -/
def firstNamed (name : List UInt8) (ss : List Symbol) : Option UInt32 :=
  (ss.find? (·.name = name)).map (·.value)

theorem firstNamed_append (name : List UInt8) (ss ts : List Symbol) :
    firstNamed name (ss ++ ts) = (firstNamed name ss).or (firstNamed name ts) := by
  rw [firstNamed, List.find?_append, Option.map_or]
  rfl

section
variable {blob : Buffer} {name : List UInt8}

theorem BlobString.has {o : Nat} {s : List UInt8} (h : BlobString blob o s) : blob.Has o (s ++ [0]) := by
  obtain ⟨-, hslice, -⟩ := h
  intro k hk
  have hlen : k < (blob.slice o (s.length + 1)).length := by
    rw [Buffer.length_slice]
    rwa [List.length_append] at hk
  have hget := Buffer.getElem_slice blob hlen
  rw [← hget]
  exact List.getElem_of_eq hslice hlen

/-- The rest of a string is a string. -/
theorem BlobString.tail {o : Nat} {c : UInt8} {s : List UInt8} (h : BlobString blob o (c :: s)) :
    blob.byte o = c ∧ BlobString blob (o + 1) s := by
  have hhas := h.has
  obtain ⟨hsize, -, hnul⟩ := h
  rw [List.cons_append, ← List.singleton_append, Buffer.has_append] at hhas
  rw [List.length_cons] at hsize
  refine ⟨hhas.1 0 (by simp), by omega, ?_, fun hmem => hnul (List.mem_cons_of_mem c hmem)⟩
  have hslice := hhas.2.slice
  rwa [List.length_append] at hslice

theorem BlobString.nil {o : Nat} (h : BlobString blob o []) : blob.byte o = 0 := h.has 0 (by simp)

theorem strcmpAt_eq {o : Nat} {s : List UInt8} (h : BlobString blob o s) (hname : 0 ∉ name) :
    strcmpAt blob o name = .ok (decide (s = name)) := by
  induction name generalizing o s with
  | nil =>
    have hsize : o + 1 ≤ blob.size := by have := h.1; omega
    rw [strcmpAt, readable_of_le hsize, Res.ok_bind]
    cases s with
    | nil => rw [h.nil]; rfl
    | cons c s =>
      have hc : c ≠ 0 := fun h0 => h.2.2 (h0 ▸ List.mem_cons_self)
      rw [h.tail.1]
      simp [hc]
  | cons d name ih =>
    have hsize : o + 1 ≤ blob.size := by have := h.1; omega
    rw [List.mem_cons, not_or] at hname
    rw [strcmpAt, readable_of_le hsize, Res.ok_bind]
    cases s with
    | nil => rw [h.nil, if_neg hname.1]; rfl
    | cons c s =>
      obtain ⟨hbyte, htail⟩ := h.tail
      rw [hbyte]
      by_cases hcd : c = d
      · rw [if_pos hcd, ih htail hname.2]
        simp [hcd]
      · rw [if_neg hcd]
        simp [hcd]

theorem findInSymtab_eq {syms strs j : Nat} {ss : List Symbol} (h : SymbolsAt blob syms strs j ss)
    (hname : 0 ∉ name) : findInSymtab blob name syms strs ss.length j = .ok (firstNamed name ss) := by
  induction ss generalizing j with
  | nil => rfl
  | cons s rest ih =>
    obtain ⟨⟨hsize, hstr, hvalue⟩, hrest⟩ := h
    rw [List.length_cons, findInSymtab, readable_of_le hsize, Res.ok_bind]
    dsimp only
    rw [strcmpAt_eq hstr hname, Res.ok_bind, ih hrest, hvalue]
    by_cases hs : s.name = name
    · simp [hs, firstNamed]
    · simp [hs, firstNamed]

theorem findInSections_eq {shdrs i : Nat} {secs : List (List Symbol)} (h : SectionsAt blob shdrs i secs)
    (hname : 0 ∉ name) :
    findInSections blob name shdrs secs.length i = .ok (firstNamed name secs.flatten) := by
  induction secs generalizing i with
  | nil => rfl
  | cons ss rest ih =>
    obtain ⟨⟨hsize, hsec⟩, hrest⟩ := h
    rw [List.length_cons, findInSections, readable_of_le hsize, Res.ok_bind, List.flatten_cons,
      firstNamed_append]
    dsimp only at hsec ⊢
    split at hsec
    · rw [if_pos ‹_›, ih hrest, hsec]
      rfl
    · obtain ⟨hlink, hlen, hsyms⟩ := hsec
      rw [if_neg ‹_›, readable_of_le hlink, Res.ok_bind, ← hlen, findInSymtab_eq hsyms hname, Res.ok_bind]
      cases firstNamed name ss with
      | none => exact ih hrest
      | some value => rfl

/-- The walk comes to the end of every table, or to the first symbol of the name. -/
theorem shimFindSymbol_eq {secs : List (List Symbol)} (h : SymbolTables blob secs) (hname : 0 ∉ name) :
    shimFindSymbol blob name = .ok (firstNamed name secs.flatten) := by
  obtain ⟨hsize, hlen, hsecs⟩ := h
  rw [shimFindSymbol, shimEhdr, readable_of_le (by rwa [Nat.zero_add]), Res.ok_bind, Res.ok_bind, ← hlen]
  exact findInSections_eq hsecs hname

/-! ### Imports -/

/-- No name in the table of imports has a NUL. -/
theorem shimSymbol_no_nul : ∀ e ∈ gShimImports, 0 ∉ e.shimSymbol := by decide +kernel

/-- The import `s` is bound by the word `w`: its entry in the table names a symbol, `w.2` is the value of the
first symbol of that name, and `w.1` is the place of its slot in the file. -/
def BindsFirst (secs : List (List Symbol)) (img : PeImage) (s : List UInt8 × PeImportFunc)
    (w : Nat × UInt32) : Prop :=
  (∃ e, shimLookupImport s.1 s.2.name = some e ∧ firstNamed e.shimSymbol secs.flatten = some w.2) ∧
    peRvaToPtr img s.2.iatRva 4 = some w.1

theorem resolveImport_iff {secs : List (List Symbol)} (h : SymbolTables blob secs)
    {dllName funcName : List UInt8} {addr : UInt32} : resolveImport blob dllName funcName = .ok addr ↔
      ∃ e, shimLookupImport dllName funcName = some e ∧ firstNamed e.shimSymbol secs.flatten = some addr := by
  have hfind : ∀ e, shimLookupImport dllName funcName = some e →
      shimFindSymbol blob e.shimSymbol = .ok (firstNamed e.shimSymbol secs.flatten) := fun e he =>
    shimFindSymbol_eq h (shimSymbol_no_nul e (List.mem_of_find?_eq_some he))
  constructor
  · intro hres
    obtain ⟨e, he, hsym⟩ := resolveImport_eq_ok hres
    rw [hfind e he] at hsym
    exact ⟨e, he, Res.ok.inj hsym⟩
  · rintro ⟨e, he, hsym⟩
    rw [resolveImport, he, Res.orReject, Res.ok_bind, hfind e he, hsym]
    rfl

theorem bindsSlot_iff {secs : List (List Symbol)} (h : SymbolTables blob secs) {img : PeImage}
    {s : List UInt8 × PeImportFunc} {w : Nat × UInt32} : BindsSlot blob img s w ↔ BindsFirst secs img s w :=
  ⟨fun hb => ⟨(resolveImport_iff h).mp hb.addr, hb.slot⟩, fun hb => ⟨(resolveImport_iff h).mpr hb.1, hb.2⟩⟩

theorem exists_patchFuncs {dllName : List UInt8} {funcs : List PeImportFunc} {img : PeImage}
    (hall : ∀ fn ∈ funcs, ∃ w, BindsSlot blob img (dllName, fn) w) :
    ∃ img', patchFuncs blob dllName funcs img = .ok img' := by
  induction funcs generalizing img with
  | nil => exact ⟨img, rfl⟩
  | cons fn rest ih =>
    rw [List.forall_mem_cons] at hall
    obtain ⟨⟨w, hw⟩, hrest⟩ := hall
    have hroom : w.1 + 4 ≤ img.raw.size := peRvaToPtr_le hw.slot
    have hstore : (store32 img.raw w.1 w.2 : Res String Buffer) = .ok (img.raw.patch32 w.1 w.2) :=
      store32_eq_ok.mpr ⟨hroom, rfl⟩
    -- the patched image has the same slots
    have hcongr := @peRvaToPtr_congr img { img with raw := img.raw.patch32 w.1 w.2 } rfl rfl
    obtain ⟨img', himg'⟩ := @ih { img with raw := img.raw.patch32 w.1 w.2 } fun fn' hfn' => by
      obtain ⟨w', hw'⟩ := hrest fn' hfn'
      exact ⟨w', hw'.addr, by rw [hcongr]; exact hw'.slot⟩
    refine ⟨img', ?_⟩
    rw [patchFuncs, hw.addr, Res.ok_bind, hw.slot, Res.orReject, Res.ok_bind, hstore, Res.ok_bind]
    exact himg'

theorem exists_patchImports {dlls : List PeImportDll} {img : PeImage}
    (hall : ∀ s ∈ importSlots dlls, ∃ w, BindsSlot blob img s w) :
    ∃ img', patchImports blob dlls img = .ok img' := by
  induction dlls generalizing img with
  | nil => exact ⟨img, rfl⟩
  | cons dll rest ih =>
    have hdll : ∀ fn ∈ dll.funcs, ∃ w, BindsSlot blob img (dll.dllName, fn) w := fun fn hfn =>
      hall _ (mem_importSlots.mpr ⟨dll, List.mem_cons_self, rfl, hfn⟩)
    obtain ⟨img₁, h₁⟩ := exists_patchFuncs hdll
    obtain ⟨he, hsize⟩ := patchFuncs_frame h₁
    have hcongr := peRvaToPtr_congr he hsize
    obtain ⟨img', himg'⟩ := @ih img₁ fun s hs => by
      obtain ⟨w, hw⟩ := hall s (List.mem_append_right _ hs)
      exact ⟨w, hw.addr, by rw [hcongr]; exact hw.slot⟩
    exact ⟨img', by rw [patchImports, h₁, Res.ok_bind, himg']⟩

theorem patchImports_bound {secs : List (List Symbol)} (h : SymbolTables blob secs) {img img' : PeImage}
    (himg' : patchImports blob img.imports img = .ok img') : ∃ ws,
      List.Forall₂ (BindsFirst secs img) (importSlots img.imports) ws ∧
        img' = { img with raw := img.raw.patches ws } := by
  obtain ⟨ws, hws, hraw⟩ := patchImports_eq_ok himg'
  obtain ⟨he, -⟩ := patchImports_frame himg'
  exact ⟨ws, hws.imp fun _ _ => (bindsSlot_iff h).mp, by rw [he, hraw]⟩

theorem patchImports_iff {secs : List (List Symbol)} (h : SymbolTables blob secs) (img : PeImage) :
    (∃ img', patchImports blob img.imports img = .ok img') ↔
      ∀ s ∈ importSlots img.imports, ∃ w, BindsFirst secs img s w := by
  constructor
  · rintro ⟨img', himg'⟩ s hs
    obtain ⟨ws, hws, -⟩ := patchImports_bound h himg'
    obtain ⟨k, hk, rfl⟩ := List.getElem_of_mem hs
    exact ⟨_, hws.get hk (hws.length_eq ▸ hk)⟩
  · intro hall
    refine exists_patchImports fun s hs => ?_
    obtain ⟨w, hw⟩ := hall s hs
    exact ⟨w, (bindsSlot_iff h).mpr hw⟩

/-- The slots of two imports do not overlap in the file. -/
def SlotsApart (img : PeImage) (s s' : List UInt8 × PeImportFunc) : Prop :=
  ∀ o o', peRvaToPtr img s.2.iatRva 4 = some o → peRvaToPtr img s'.2.iatRva 4 = some o' → o + 4 ≤ o' ∨ o' + 4 ≤ o

/-- `img'` is `img` with its imports bound. -/
structure BoundImage (secs : List (List Symbol)) (img img' : PeImage) : Prop where
  /-- Every byte is that of the last import whose slot covers it, and the old one where there is none. -/
  bytes : ∃ ws, List.Forall₂ (BindsFirst secs img) (importSlots img.imports) ws ∧ ∀ i,
    img'.raw.byte i = ((Buffer.lastAt ws i).map fun w => leByte w.2 (i - w.1)).getD (img.raw.byte i)
  /-- A slot that no later import's overlaps holds the value of its symbol. -/
  words : ∀ pre s post w, importSlots img.imports = pre ++ s :: post → (∀ s' ∈ post, SlotsApart img s s') →
    BindsFirst secs img s w → img'.raw.le32 w.1 = w.2
  size_eq : img'.raw.size = img.raw.size
  others : img' = { img with raw := img'.raw }

theorem BindsFirst.unique {secs : List (List Symbol)} {img : PeImage} {s : List UInt8 × PeImportFunc}
    {w w' : Nat × UInt32} (h : BindsFirst secs img s w) (h' : BindsFirst secs img s w') : w = w' := by
  obtain ⟨⟨e, he, hsym⟩, hslot⟩ := h
  obtain ⟨⟨e', he', hsym'⟩, hslot'⟩ := h'
  cases he.symm.trans he'
  exact Prod.ext (Option.some.inj (hslot.symm.trans hslot')) (Option.some.inj (hsym.symm.trans hsym'))

theorem boundImage_of_patches {secs : List (List Symbol)} {img : PeImage} {ws : List (Nat × UInt32)}
    (hws : List.Forall₂ (BindsFirst secs img) (importSlots img.imports) ws) :
    BoundImage secs img { img with raw := img.raw.patches ws } := by
  refine ⟨⟨ws, hws, Buffer.byte_patches _ _⟩, fun pre s post w hslots hapart hw => ?_, Buffer.size_patches _ _, rfl⟩
  rw [hslots] at hws
  -- the words before that of `s`, its own, and those after it
  have hpre := List.forall₂_take pre.length hws
  have hpost := List.forall₂_drop pre.length hws
  rw [List.take_left] at hpre
  rw [List.drop_left] at hpost
  rcases hrest : ws.drop pre.length with _ | ⟨w', rest⟩
  · rw [hrest] at hpost
    cases hpost
  rw [hrest] at hpost
  cases hpost with
  | cons hw' hrest' =>
    obtain rfl := hw.unique hw'
    rw [← List.take_append_drop pre.length ws, hrest]
    refine Buffer.le32_patches _ fun w' hmem => ?_
    obtain ⟨k, hk, rfl⟩ := List.getElem_of_mem hmem
    have hs' := hrest'.get (hrest'.length_eq ▸ hk) hk
    exact hapart _ (List.getElem_mem _) _ _ hw.2 hs'.2

/-- The imports of an image can be bound iff every one of them is in the table, with a symbol in the blob
and a slot in the file, and then its slot has the value of the first symbol. -/
theorem imports_bound_iff {secs : List (List Symbol)} (h : SymbolTables blob secs) (img : PeImage) :
    ((∃ img', patchImports blob img.imports img = .ok img') ↔
      ∀ s ∈ importSlots img.imports, ∃ w, BindsFirst secs img s w) ∧
    ∀ img', patchImports blob img.imports img = .ok img' → BoundImage secs img img' := by
  refine ⟨patchImports_iff h img, fun img' himg' => ?_⟩
  obtain ⟨ws, hws, rfl⟩ := patchImports_bound h himg'
  exact boundImage_of_patches hws

end

def miniSymbols : List (List Symbol) :=
  [[], [⟨[], 0⟩, ⟨cBytes "_start", 0x0F000000⟩, ⟨cBytes "shim_pe_entry_target", 0x0F000004⟩,
    ⟨cBytes "shim_InitCommonControls", 0x0F000010⟩], []]

theorem miniSymbols_tables : SymbolTables miniShim miniSymbols := by decide +kernel

theorem imports_bound_ordinalImport : ∃ img img',
    peImageLoad .generous 9 MkMiniPe.ordinalImport = .ok img ∧
      importSlots img.imports = [(cBytes "COMCTL32.dll", ⟨cBytes "#17", 17, true, 0x1047⟩)] ∧
      patchImports miniShim img.imports img = .ok img' ∧ BoundImage miniSymbols img img' ∧
      img.raw.le32 0x247 ≠ 0x0F000010 ∧ img'.raw.le32 0x247 = 0x0F000010 := by
  have hrun : (peImageLoad .generous 9 MkMiniPe.ordinalImport).okAnd fun img =>
      importSlots img.imports = [(cBytes "COMCTL32.dll", ⟨cBytes "#17", 17, true, 0x1047⟩)] ∧
        peRvaToPtr img 0x1047 4 = some 0x247 ∧ img.raw.le32 0x247 ≠ 0x0F000010 := by decide +kernel
  have hsymbol : (shimLookupImport (cBytes "COMCTL32.dll") (cBytes "#17")).any fun e =>
      firstNamed e.shimSymbol miniSymbols.flatten = some 0x0F000010 := by decide +kernel
  obtain ⟨img, himg, hrun⟩ := Res.okAnd_iff.mp hrun
  obtain ⟨hslots, hslot, hold⟩ := of_decide_eq_true hrun
  obtain ⟨e, he, hsym⟩ := (Option.any_eq_true ..).mp hsymbol
  have hbinds : BindsFirst miniSymbols img (cBytes "COMCTL32.dll", ⟨cBytes "#17", 17, true, 0x1047⟩)
      (0x247, 0x0F000010) := ⟨⟨e, he, of_decide_eq_true hsym⟩, hslot⟩
  obtain ⟨hiff, hbound⟩ := imports_bound_iff miniSymbols_tables img
  obtain ⟨img', himg'⟩ := hiff.mpr (by
    rw [hslots, List.forall_mem_singleton]
    exact ⟨_, hbinds⟩)
  have hbound := hbound img' himg'
  exact ⟨img, img', himg, hslots, himg', hbound, hold, hbound.words [] _ [] _ hslots (by simp) hbinds⟩

end Winlift

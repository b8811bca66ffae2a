import Winlift.CSem.Sim
import Winlift.Main
import Winlift.MkMiniPe

/-!
# Executables with bytes appended

Installers, archives and signatures are often appended to an executable. Nothing the tool does depends
on the end of the file except that what it reads is before it: a file that starts with the bytes of an
executable the tool converts is loaded to the same image, and converted to the same output
(`Converts.appended`). The same goes for a run that is granted more memory or more iterations. The proof is one
simulation, function by function, between the run on the short file and the run on the long one.
-/

namespace Winlift
open CSem Res

/-- `img'` is `img`, but its file goes on. -/
inductive PeImage.Extends (img : PeImage) : PeImage → Prop
  | mk {raw : Buffer} : img.raw.Extends raw → img.Extends { img with raw := raw }

/-- Every request that `a` grants is granted by `a'`. -/
structure Alloc.Le (a a' : Alloc) : Prop where
  file : ∀ n, a.file n = true → a'.file n = true
  sections : ∀ n, a.sections n = true → a'.sections n = true
  imports : ∀ n, a.imports n = true → a'.imports n = true
  funcs : ∀ i n, a.funcs i n = true → a'.funcs i n = true
  relocs : ∀ n, a.relocs n = true → a'.relocs n = true
  rawCopy : ∀ n, a.rawCopy n = true → a'.rawCopy n = true
  shimCopy : ∀ n, a.shimCopy n = true → a'.shimCopy n = true

@[refl] theorem Alloc.Le.refl (a : Alloc) : a.Le a where
  file _ := id
  sections _ := id
  imports _ := id
  funcs _ _ := id
  relocs _ := id
  rawCopy _ := id
  shimCopy _ := id

theorem PeImage.Extends.raw {img img' : PeImage} (h : img.Extends img') : img.raw.Extends img'.raw := by
  rcases h with ⟨hraw⟩
  exact hraw

theorem refused_of_le {g g' : Nat → Bool} (h : ∀ n, g n = true → g' n = true) {n : Nat}
    (hn : g' n = false) : g n = false := by
  rw [← Bool.not_eq_true] at hn ⊢
  exact mt (h n) hn

theorem sectionsRvaToPtr_extends {size size' : Nat} (h : size ≤ size') {rva minLen : UInt32} {p : Nat}
    {ss : List PeSection} (hp : sectionsRvaToPtr size rva minLen ss = some p) :
    sectionsRvaToPtr size' rva minLen ss = some p := by
  induction ss with
  | nil => exact hp
  | cons s ss ih =>
    simp only [sectionsRvaToPtr] at hp ⊢
    split_ifs at hp with hin htail hend hfile
    · rw [if_pos hin, if_neg htail, if_neg hend, if_neg (by omega)]
      exact hp
    · rw [if_neg hin]
      exact ih hp

theorem peRvaToPtr_extends {img img' : PeImage} (h : img.Extends img') {rva minLen : UInt32} {p : Nat}
    (hp : peRvaToPtr img rva minLen = some p) : peRvaToPtr img' rva minLen = some p := by
  rcases h with ⟨hraw⟩
  have hsize := hraw.size_le
  unfold peRvaToPtr at hp ⊢
  split_ifs at hp with hhdr hend hfile
  · dsimp only
    rw [if_pos hhdr, if_neg hend, if_neg (by omega)]
    exact hp
  · dsimp only
    rw [if_neg hhdr]
    exact sectionsRvaToPtr_extends hsize hp

/-! ### Headers -/

section headers
variable {raw raw' : Buffer} (hraw : raw.Extends raw') {p : Nat}
include hraw

theorem peDosHeaderAt_extends (hp : p + peDosHeaderSize ≤ raw.size) :
    peDosHeaderAt raw' p = peDosHeaderAt raw p := by
  unfold peDosHeaderSize at hp
  unfold peDosHeaderAt
  rw [hraw.le16 (by omega), hraw.le32 (by omega)]

theorem peCoffHeaderAt_extends (hp : p + peCoffHeaderSize ≤ raw.size) :
    peCoffHeaderAt raw' p = peCoffHeaderAt raw p := by
  unfold peCoffHeaderSize at hp
  unfold peCoffHeaderAt
  simp (disch := omega) only [hraw.le16]

/-- The header has 16 data directories. -/
theorem peOptionalHeader32At_extends (hp : p + peOptionalHeader32Size ≤ raw.size) :
    ∃ dirs, peOptionalHeader32At raw' p = { peOptionalHeader32At raw p with dataDirectory := dirs } ∧
      ∀ k < peNumDirectories, dirs k = (peOptionalHeader32At raw p).dataDirectory k := by
  unfold peOptionalHeader32Size at hp
  refine ⟨(peOptionalHeader32At raw' p).dataDirectory, ?_, fun k hk => ?_⟩
  · unfold peOptionalHeader32At
    simp (disch := omega) only [hraw.le16, hraw.le32]
  · unfold peNumDirectories at hk
    unfold peOptionalHeader32At
    simp (disch := omega) only [hraw.le32]

theorem peSectionHeaderAt_extends (hp : p + peSectionHeaderSize ≤ raw.size) :
    peSectionHeaderAt raw' p = peSectionHeaderAt raw p := by
  unfold peSectionHeaderSize at hp
  unfold peSectionHeaderAt
  rw [hraw.slice (by omega)]
  simp (disch := omega) only [hraw.le32]

theorem peImportDescriptorAt_extends (hp : p + peImportDescriptorSize ≤ raw.size) :
    peImportDescriptorAt raw' p = peImportDescriptorAt raw p := by
  unfold peImportDescriptorSize at hp
  unfold peImportDescriptorAt
  simp (disch := omega) only [hraw.le32]

theorem peBaseRelocationBlockAt_extends (hp : p + peBaseRelocationBlockSize ≤ raw.size) :
    peBaseRelocationBlockAt raw' p = peBaseRelocationBlockAt raw p := by
  unfold peBaseRelocationBlockSize at hp
  unfold peBaseRelocationBlockAt
  simp (disch := omega) only [hraw.le32]

theorem parseSectionsFrom_extends {secPtr n i : Nat} :
    Sim Eq (parseSectionsFrom raw secPtr n i) (parseSectionsFrom raw' secPtr n i) := by
  induction n generalizing i with
  | zero => exact .ok rfl
  | succ n ih =>
    have hsize := hraw.size_le
    rw [parseSectionsFrom, parseSectionsFrom]
    refine hraw.readable fun p _ hp => ?_
    rw [peSectionHeaderAt_extends hraw hp]
    exact .rejectIf (by omega) fun _ => .bind_eq ih fun _ => .ok rfl

end headers

theorem checkOptionalHeader_congr {opt : PeOptionalHeader32} {dirs : Nat → PeDataDirectory}
    (h : ∀ k < peNumDirectories, dirs k = opt.dataDirectory k) :
    checkOptionalHeader { opt with dataDirectory := dirs } = checkOptionalHeader opt := by
  have hcom := h peDirComDescriptor (by decide)
  have hdelay := h peDirDelayImport (by decide)
  simp only [checkOptionalHeader, hcom, hdelay]

theorem dir_congr {opt : PeOptionalHeader32} {dirs : Nat → PeDataDirectory}
    (h : ∀ k < peNumDirectories, dirs k = opt.dataDirectory k) {k : Nat} (hk : k < peNumDirectories) :
    { opt with dataDirectory := dirs }.dir k = opt.dir k := by
  unfold PeOptionalHeader32.dir
  dsimp only
  rw [h k hk]

section load
variable {raw raw' : Buffer} (hraw : raw.Extends raw')
include hraw

theorem peReadHeaders_extends {grant grant' : Nat → Bool} (hgrant : ∀ n, grant n = true → grant' n = true) :
    Sim (fun p p' => p.1.Extends p'.1 ∧ p'.2 = p.2) (peReadHeaders grant raw) (peReadHeaders grant' raw') := by
  have hsize := hraw.size_le
  unfold peReadHeaders
  refine .rejectIf (by omega) fun _ => hraw.readable fun p _ hp => ?_
  rw [peDosHeaderAt_extends hraw hp]
  generalize peDosHeaderAt raw p = dos
  refine .rejectIf id fun _ => .rejectIf (by omega) fun _ => hraw.readableAt fun h₀ hp => ?_
  rw [hraw.le32 (by omega)]
  refine .rejectIf id fun _ => .rejectIf (by omega) fun _ => hraw.readable fun p _ hp => ?_
  rw [peCoffHeaderAt_extends hraw hp]
  generalize peCoffHeaderAt raw p = coff
  refine .rejectIf id fun _ => .rejectIf id fun _ => .rejectIf id fun _ => .rejectIf (by omega) fun _ =>
    hraw.readable fun p _ hp => ?_
  obtain ⟨dirs, heq, hdirs⟩ := peOptionalHeader32At_extends hraw hp
  rw [heq]
  generalize peOptionalHeader32At raw p = opt at hdirs ⊢
  dsimp only
  rw [checkOptionalHeader_congr hdirs]
  refine .bind_same fun _ _ => .rejectIf id fun _ => .rejectIf (by omega) fun _ => ?_
  unfold parseSections
  simp only [bind_assoc]
  refine .rejectIf id fun _ => .rejectIf (mt (And.imp_right (refused_of_le hgrant))) fun _ =>
    .bind_eq (parseSectionsFrom_extends hraw) fun sections => .ok ⟨.mk hraw, ?_⟩
  rw [dir_congr hdirs (by decide), dir_congr hdirs (by decide), dir_congr hdirs (by decide)]

end load

/-! ### Directories -/

theorem ensureCapacity_le {grant grant' : Nat → Bool} (hgrant : ∀ n, grant n = true → grant' n = true)
    {cap newCap : Int} {count elemSize : Nat} (h : ensureCapacity grant cap count elemSize = some newCap) :
    ensureCapacity grant' cap count elemSize = some newCap := by
  unfold ensureCapacity at h ⊢
  split at h
  · rwa [if_pos ‹_›]
  · rw [if_neg ‹_›]
    generalize (if cap = 0 then 8 else int32 (cap * 2)) = next at h ⊢
    dsimp only at h ⊢
    split at h
    · rwa [if_pos (hgrant _ ‹_›)]
    · cases h

theorem storeRelocs_eq_ok {img img₁ : PeImage} {count : Int} {run : FillRun}
    (h : storeRelocs count img run = .ok img₁) : run.result = .ok () ∧
      (run.stores.length : Int) ≤ count ∧ img₁ = { img with relocs := run.stores.map (·.rva) } := by
  unfold storeRelocs at h
  split at h
  · cases h
  · cases h
  · split at h <;> cases h
  · split at h
    · cases h
      exact ⟨‹_›, ‹_›, rfl⟩
    · cases h

section directories
variable {img img' : PeImage} (h : img.Extends img')
include h

theorem readCStringFrom_extends {rva : UInt32} {n i : Nat} {l : List UInt8}
    (hl : readCStringFrom img rva n i = .ok (some l)) : readCStringFrom img' rva n i = .ok (some l) := by
  induction n generalizing i l with
  | zero => exact hl
  | succ n ih =>
    rw [readCStringFrom] at hl ⊢
    cases hp : peRvaToPtr img (rva + UInt32.ofNat i) 1 with
    | none => simp [hp] at hl
    | some p =>
      rw [hp] at hl
      rw [peRvaToPtr_extends h hp]
      have hread : p + 1 ≤ img.raw.size := peRvaToPtr_le hp
      have hraw := h.raw
      dsimp only at hl ⊢
      rw [readable_of_le hread, ok_bind] at hl
      rw [readable_of_le (Nat.le_trans hread hraw.size_le), ok_bind, hraw.byte_eq p hread]
      split at hl
      · rwa [if_pos ‹_›]
      · rw [if_neg ‹_›]
        obtain ⟨o, ho, hl⟩ := bind_eq_ok.mp hl
        obtain ⟨rest, rfl, rfl⟩ := Option.map_eq_some_iff.mp (Res.ok.inj hl)
        rw [ih ho]
        rfl

/-- A name that is read or else the file is rejected. -/
theorem readCString_extends {β : Type} {S : β → β → Prop} {rva : UInt32} {outCap : Nat} {e : PeError}
    {f f' : List UInt8 → Res PeError β} (hf : ∀ l, Sim S (f l) (f' l)) :
    Sim S (readCString img rva outCap >>= fun o => .orReject o e >>= f)
      (readCString img' rva outCap >>= fun o => .orReject o e >>= f') := by
  intro b hb
  obtain ⟨o, ho, hb⟩ := bind_eq_ok.mp hb
  obtain ⟨l, hl, hb⟩ := bind_eq_ok.mp hb
  obtain rfl := orReject_eq_ok.mp hl
  obtain ⟨b', hb', hS⟩ := hf l b hb
  refine ⟨b', ?_, hS⟩
  rw [readCString, readCStringFrom_extends h ho]
  exact hb'

theorem parseThunk_extends {dllName : List UInt8} {thunk iatRva : UInt32} :
    Sim Eq (parseThunk img dllName thunk iatRva) (parseThunk img' dllName thunk iatRva) := by
  unfold parseThunk
  split
  · exact .ok rfl
  · refine .orReject_eq (fun _ => peRvaToPtr_extends h) fun _ _ => h.raw.readable fun _ _ _ => ?_
    exact readCString_extends h fun _ => .ok rfl

variable {dirRva dirSize : UInt32} {fuel fuel' : Nat} (hfuel : fuel ≤ fuel')

theorem thunkStep_extends {grant grant' : Nat → Bool} (hgrant : ∀ n, grant n = true → grant' n = true)
    {dllName : List UInt8} {thunkRva iatRva : UInt32} (s : ThunkState) :
    Sim (Step.Rel Eq Eq) (thunkStep grant img dllName thunkRva iatRva s)
      (thunkStep grant' img' dllName thunkRva iatRva s) := by
  unfold thunkStep
  refine .orReject_eq (fun _ => peRvaToPtr_extends h) fun _ _ => h.raw.readable fun p _ hp => ?_
  rw [h.raw.le32 hp]
  dsimp only
  split
  · exact .ok (.done rfl)
  · refine .orReject_eq (fun _ => ensureCapacity_le hgrant) fun _ _ => .bind_eq (parseThunk_extends h) ?_
    exact fun fn => .ok (.more rfl)

include hfuel

theorem parseOneDll_extends {alloc alloc' : Alloc} (halloc : alloc.Le alloc')
    {imports : List PeImportDll} {importsCap : Int} {desc : PeImportDescriptor} :
    Sim Eq (parseOneDll alloc fuel img imports importsCap desc)
      (parseOneDll alloc' fuel' img' imports importsCap desc) := by
  unfold parseOneDll
  refine .orReject_eq (fun _ => ensureCapacity_le halloc.imports) fun _ _ => readCString_extends h fun _ => ?_
  refine .rejectIf id fun _ => ?_
  exact .bind_eq (loop_sim_eq (thunkStep_extends h (halloc.funcs _)) hfuel _) fun s => .ok rfl

theorem importStep_extends {alloc alloc' : Alloc} (halloc : alloc.Le alloc') (s : ImportState) :
    Sim (Step.Rel Eq Eq) (importStep alloc fuel img dirRva s) (importStep alloc' fuel' img' dirRva s) := by
  unfold importStep
  refine .orReject_eq (fun _ => peRvaToPtr_extends h) fun _ _ => h.raw.readable fun p _ hp => ?_
  rw [peImportDescriptorAt_extends h.raw hp]
  dsimp only
  split
  · exact .ok (.done rfl)
  · exact .bind_eq (parseOneDll_extends h hfuel halloc) fun _ => .ok (.more rfl)

theorem peParseImportsDir_extends {alloc alloc' : Alloc} (halloc : alloc.Le alloc') :
    Sim PeImage.Extends (peParseImportsDir alloc fuel img dirRva)
      (peParseImportsDir alloc' fuel' img' dirRva) := by
  unfold peParseImportsDir
  split
  · exact .ok h
  · have himports : img'.imports = img.imports := by rcases h with ⟨_⟩; rfl
    have hcap : img'.importsCap = img.importsCap := by rcases h with ⟨_⟩; rfl
    rw [himports, hcap]
    refine .bind_eq (loop_sim_eq (importStep_extends h hfuel halloc) hfuel _) fun s => ?_
    rcases h with ⟨hraw⟩
    exact .ok (.mk hraw)

omit hfuel

theorem countStep_extends (s : CountState) :
    Sim (Step.Rel Eq Eq) (countStep img dirRva dirSize s) (countStep img' dirRva dirSize s) := by
  unfold countStep
  split
  · refine .orReject_eq (fun _ => peRvaToPtr_extends h) fun _ _ => h.raw.readable fun p _ hp => ?_
    rw [peBaseRelocationBlockAt_extends h.raw hp]
    exact .rejectIf id fun _ => .ok (.more rfl)
  · exact .ok (.done rfl)

theorem fillEntries_extends {entries n i : Nat} {va : UInt32} {stores : List RelocStore}
    (hok : (fillEntries img.raw entries va n i stores).result = .ok ()) :
    fillEntries img'.raw entries va n i stores = fillEntries img.raw entries va n i stores := by
  induction n generalizing i stores with
  | zero => rfl
  | succ n ih =>
    rw [fillEntries] at hok ⊢
    rw [fillEntries]
    cases hread : (readable img.raw (some (entries + i * 2)) 2 : Res PeError Nat) with
    | ok p =>
      obtain ⟨heq, hle⟩ := readable_eq_ok.mp hread
      cases heq
      rw [hread] at hok
      rw [readable_of_le (Nat.le_trans hle h.raw.size_le), FillRun.afterRead, FillRun.afterRead, h.raw.le16 hle]
      exact ih hok
    | _ =>
      rw [hread] at hok
      cases hok

theorem fillBlock_extends {consumed : UInt32} {blk : PeBaseRelocationBlock} {stores : List RelocStore}
    (hok : (fillBlock img dirRva consumed blk stores).result = .ok ()) :
    fillBlock img' dirRva consumed blk stores = fillBlock img dirRva consumed blk stores := by
  unfold fillBlock at hok ⊢
  dsimp only at hok ⊢
  cases hp : peRvaToPtr img (dirRva + consumed + 8) (UInt32.ofInt blk.nEntries * 2) with
  | none => rw [hp] at hok; cases hok
  | some entries =>
    rw [hp] at hok
    rw [peRvaToPtr_extends h hp]
    exact fillEntries_extends h hok

/-- A pass over a block that is all there. -/
theorem fillStep_extends {s : FillState} {r : Step FillState FillRun}
    (hr : ∀ run, r = .done run → run.result = .ok ()) (hs : fillStep img dirRva dirSize s = r) :
    fillStep img' dirRva dirSize s = r := by
  unfold fillStep at hs ⊢
  split at hs
  · rw [if_pos ‹_›]
    cases hread : (readable img.raw (peRvaToPtr img (dirRva + s.consumed) 8) peBaseRelocationBlockSize :
        Res PeError Nat) with
    | ok bp =>
      obtain ⟨hp, hle⟩ := readable_eq_ok.mp hread
      rw [hread] at hs
      rw [peRvaToPtr_extends h hp, readable_of_le (Nat.le_trans hle h.raw.size_le)]
      dsimp only at hs ⊢
      rw [peBaseRelocationBlockAt_extends h.raw hle]
      cases hrun : (fillBlock img dirRva s.consumed (peBaseRelocationBlockAt img.raw bp) s.stores).result with
      | ok _ => rwa [fillBlock_extends h hrun]
      | _ =>
        -- a pass that fails leaves the loop with its failure
        rw [hrun] at hs
        have := hr _ hs.symm
        rw [hrun] at this
        cases this
    | _ =>
      rw [hread] at hs
      cases hr _ hs.symm
  · rwa [if_neg ‹_›]

include hfuel

theorem fillRelocs_extends {run : FillRun} (hok : run.result = .ok ())
    (hrun : fillRelocs fuel img dirRva dirSize = .ok run) :
    fillRelocs fuel' img' dirRva dirSize = .ok run := by
  refine loop_agree (P := fun run => run.result = .ok ()) (fun s t hs => ?_) (fun s b hb hs => ?_) hfuel
    hok hrun
  · exact congrArg Res.ok (fillStep_extends h nofun (Res.ok.inj hs))
  · refine congrArg Res.ok (fillStep_extends h ?_ (Res.ok.inj hs))
    rintro _ ⟨⟩
    exact hb

theorem relocPasses_extends {grant grant' : Nat → Bool} (hgrant : ∀ n, grant n = true → grant' n = true)
    {o : Option (Int × FillRun)} (hok : ∀ p ∈ o, p.2.result = .ok ())
    (ho : relocPasses grant fuel img dirRva dirSize = .ok o) :
    relocPasses grant' fuel' img' dirRva dirSize = .ok o := by
  unfold relocPasses at ho ⊢
  split at ho
  · rwa [if_pos ‹_›]
  rw [if_neg ‹_›]
  obtain ⟨count, hcount, ho⟩ := bind_eq_ok.mp ho
  obtain ⟨_, hcount', rfl⟩ := loop_sim_eq (countStep_extends h) hfuel _ count hcount
  rw [countRelocs, hcount', ok_bind]
  split at ho
  · rwa [if_pos ‹_›]
  rw [if_neg ‹_›]
  obtain ⟨_, hrej, ho⟩ := bind_eq_ok.mp ho
  obtain ⟨run, hrun, heq⟩ := bind_eq_ok.mp ho
  cases heq
  rw [rejectIf_of_not _ (mt (refused_of_le hgrant) (rejectIf_eq_ok.mp hrej)), ok_bind,
    fillRelocs_extends h hfuel (hok _ rfl) hrun]
  rfl

theorem peParseRelocsDir_extends {grant grant' : Nat → Bool} (hgrant : ∀ n, grant n = true → grant' n = true) :
    Sim PeImage.Extends (peParseRelocsDir grant fuel img dirRva dirSize)
      (peParseRelocsDir grant' fuel' img' dirRva dirSize) := by
  intro img₁ h₁
  obtain ⟨o, ho, h₁⟩ := bind_eq_ok.mp h₁
  have hok : ∀ p ∈ o, p.2.result = .ok () := by
    rintro ⟨count, run⟩ rfl
    have hstore : storeRelocs count img run = .ok img₁ := h₁
    exact (storeRelocs_eq_ok hstore).1
  rw [peParseRelocsDir, relocPasses_extends h hfuel hgrant hok ho, ok_bind]
  rcases h with ⟨hraw⟩
  cases o with
  | none =>
    cases h₁
    exact ⟨_, rfl, .mk hraw⟩
  | some p =>
    have hstore : storeRelocs p.1 img p.2 = .ok img₁ := h₁
    obtain ⟨hrun, hlen, rfl⟩ := storeRelocs_eq_ok hstore
    refine ⟨_, ?_, .mk hraw⟩
    show storeRelocs p.1 _ p.2 = _
    rw [storeRelocs, hrun]
    exact if_pos hlen

omit hfuel

theorem tlsStep_extends {arrRva : UInt32} (s : TlsState) :
    Sim (Step.Rel Eq Eq) (tlsStep img arrRva s) (tlsStep img' arrRva s) := by
  have hbase : img'.imageBase = img.imageBase := by rcases h with ⟨_⟩; rfl
  unfold tlsStep
  refine .orReject_eq (fun _ => peRvaToPtr_extends h) fun _ _ => h.raw.readable fun p _ hp => ?_
  rw [h.raw.le32 hp, hbase]
  dsimp only
  split
  · exact .ok (.done rfl)
  · exact .rejectIf id fun _ => .rejectIf id fun _ => .ok (.more rfl)

include hfuel

theorem peParseTlsDir_extends :
    Sim PeImage.Extends (peParseTlsDir fuel img dirRva dirSize) (peParseTlsDir fuel' img' dirRva dirSize) := by
  have hraw := h.raw
  have hbase : img'.imageBase = img.imageBase := by rcases h with ⟨_⟩; rfl
  have hrvas : img'.tlsCallbackRvas = img.tlsCallbackRvas := by rcases h with ⟨_⟩; rfl
  unfold peParseTlsDir
  split
  · rcases h with ⟨hraw⟩
    exact .ok (.mk hraw)
  refine .orReject_eq (fun _ => peRvaToPtr_extends h) fun _ _ => hraw.readable fun p _ hp => ?_
  unfold peTlsDirectory32Size at hp
  rw [peTlsAddressOfCallBacksAt, peTlsAddressOfCallBacksAt, hraw.le32 (by omega), hbase, hrvas]
  dsimp only
  split
  · rcases h with ⟨hraw⟩
    exact .ok (.mk hraw)
  · refine .rejectIf id fun _ => .bind_eq (loop_sim_eq (tlsStep_extends h) hfuel _) fun rvas => ?_
    rcases h with ⟨hraw⟩
    exact .ok (.mk hraw)

end directories

/-- The loader finds in a file with bytes appended what it finds in the file. -/
theorem peImageLoad_extends {raw raw' : Buffer} (hraw : raw.Extends raw') {alloc alloc' : Alloc}
    (halloc : alloc.Le alloc') {fuel fuel' : Nat} (hfuel : fuel ≤ fuel') :
    Sim PeImage.Extends (peImageLoad alloc fuel raw) (peImageLoad alloc' fuel' raw') := by
  unfold peImageLoad loadImports
  simp only [bind_assoc, ok_bind]
  refine .bind (peReadHeaders_extends hraw halloc.sections) ?_
  rintro ⟨img, dirs⟩ ⟨img', _⟩ ⟨himg, rfl⟩
  refine .bind (peParseImportsDir_extends himg hfuel halloc) fun img₁ img₁' h₁ => ?_
  exact .bind (peParseRelocsDir_extends h₁ hfuel halloc.relocs) fun img₂ img₂' h₂ =>
    peParseTlsDir_extends h₂ hfuel

/-! ### The output -/

theorem layoutSections_extends {img img' : PeImage} (h : img.Extends img') (ss : List PeSection)
    (curFileOff : UInt32) : layoutSections img' ss curFileOff = layoutSections img ss curFileOff := by
  induction ss generalizing curFileOff with
  | nil => rfl
  | cons s ss ih =>
    have hseg : sectionSegment img' s curFileOff = sectionSegment img s curFileOff := by
      rcases h with ⟨_⟩; rfl
    rw [layoutSections, layoutSections, hseg]
    dsimp only
    rw [ih]

theorem peLayoutToElfSpec_extends {img img' : PeImage} (h : img.Extends img') :
    peLayoutToElfSpec img' = peLayoutToElfSpec img := by
  have hlayout := layoutSections_extends h
  rcases h with ⟨_⟩
  unfold peLayoutToElfSpec
  dsimp only
  rw [hlayout]
  rfl

section patching
variable {img img' : PeImage} {blob : Buffer}

theorem patchFuncs_extends (h : img.Extends img') (dllName : List UInt8) (fns : List PeImportFunc) :
    Sim PeImage.Extends (patchFuncs blob dllName fns img) (patchFuncs blob dllName fns img') := by
  induction fns generalizing img img' with
  | nil => exact .ok h
  | cons fn fns ih =>
    rw [patchFuncs, patchFuncs]
    refine .bind_same fun addr _ => .orReject_eq (fun _ => peRvaToPtr_extends h) fun slot _ => ?_
    refine .bind h.raw.store32 fun raw raw' hraw => ih ?_
    rcases h with ⟨_⟩
    exact .mk hraw

theorem patchImports_extends (h : img.Extends img') (dlls : List PeImportDll) :
    Sim PeImage.Extends (patchImports blob dlls img) (patchImports blob dlls img') := by
  induction dlls generalizing img img' with
  | nil => exact .ok h
  | cons dll dlls ih =>
    rw [patchImports, patchImports]
    exact .bind (patchFuncs_extends h dll.dllName dll.funcs) fun _ _ h => ih h

theorem stubPatchApply_extends (h : img.Extends img') {grant grant' : Nat → Bool}
    (hgrant : ∀ n, grant n = true → grant' n = true) {spec : Spec} :
    Sim (fun r r' => r.img.Extends r'.img ∧ r'.shim = r.shim ∧ r'.spec = r.spec)
      (stubPatchApply grant blob img spec) (stubPatchApply grant' blob img' spec) := by
  have hbase : img'.imageBase = img.imageBase := by rcases h with ⟨_⟩; rfl
  have hsize : img'.sizeOfImage = img.sizeOfImage := by rcases h with ⟨_⟩; rfl
  have himports : img'.imports = img.imports := by rcases h with ⟨_⟩; rfl
  unfold stubPatchApply
  rw [hbase, hsize, himports]
  refine .rejectIf id fun _ => .bind (patchImports_extends h img.imports) fun img₁ img₁' h₁ => ?_
  have hbase : img₁'.imageBase = img₁.imageBase := by rcases h₁ with ⟨_⟩; rfl
  have hentry : img₁'.entryPointRva = img₁.entryPointRva := by rcases h₁ with ⟨_⟩; rfl
  rw [hbase, hentry]
  refine .rejectIf (mt (refused_of_le hgrant)) fun _ => ?_
  refine .bind_same fun _ _ => .bind_same fun target _ => .bind_same fun _ _ => .bind_same fun start _ => ?_
  exact .bind_same fun shim _ => .bind_same fun eh _ => .bind_same fun segs _ => .ok ⟨h₁, rfl, rfl⟩

theorem convert_extends (h : img.Extends img') {alloc alloc' : Alloc} (halloc : alloc.Le alloc') :
    Sim (fun r r' => r.img.Extends r'.img ∧ r'.shim = r.shim ∧ r'.spec = r.spec)
      (convert alloc blob img) (convert alloc' blob img') := by
  unfold convert
  rw [peLayoutToElfSpec_extends h]
  exact .bind_same fun spec _ => stubPatchApply_extends h halloc.shimCopy

end patching

section writing
variable {β : Type} {mem mem' : Mem β} (hmem : ∀ b, (mem b).Extends (mem' b)) (io : Stdio)
include hmem

theorem writeSegments_extends (segs : List (ElfSegment β)) (cur : UInt32) (out : OutStream) :
    Sim Eq (writeSegments io mem segs cur out) (writeSegments io mem' segs cur out) := by
  induction segs generalizing cur out with
  | nil => exact .ok rfl
  | cons s segs ih =>
    rw [writeSegments, writeSegments]
    split
    · exact ih cur out
    · refine .rejectIf id fun _ => .bind_same fun out _ => ?_
      cases s.data with
      | none => exact .err
      | some p =>
        dsimp only
        split
        · rename_i hp
          have hp' : p.Holds mem' s.filesz.toNat := Nat.le_trans hp (hmem p.block).size_le
          rw [if_pos hp', Ptr.bytes, Ptr.bytes, (hmem p.block).slice hp]
          exact .bind_same fun out _ => ih (s.fileOffset + s.filesz) out
        · exact .fault

theorem elfWrite_extends (spec : ElfImageSpec β) :
    Sim Eq (elfWrite io mem spec).result (elfWrite io mem' spec).result := by
  unfold elfWrite
  dsimp only
  split
  · exact .err
  split
  · exact .err
  split
  · exact .err
  refine .bind_same fun out _ => .bind_same fun out _ => .bind_eq (writeSegments_extends hmem io _ _ _) ?_
  exact fun out => .ok rfl

end writing

/-- The bytes `raw` are loaded, converted, and written as the bytes `file`. -/
def Converts (alloc : Alloc) (fuel : Nat) (blob : Buffer) (io : Stdio) (raw : Buffer) (file : List UInt8) :
    Prop :=
  ∃ img r, peImageLoad alloc fuel raw = .ok img ∧ convert alloc blob img = .ok r ∧
    (elfWrite io r.mem r.spec).result = .ok file

/-- Bytes appended to an executable, memory and iterations to spare, change nothing in the output. -/
theorem Converts.appended {raw raw' blob : Buffer} {alloc alloc' : Alloc} {fuel fuel' : Nat} {io : Stdio}
    {file : List UInt8} (hraw : raw.Extends raw') (halloc : alloc.Le alloc') (hfuel : fuel ≤ fuel')
    (h : Converts alloc fuel blob io raw file) : Converts alloc' fuel' blob io raw' file := by
  obtain ⟨img, r, hload, hconv, hwrite⟩ := h
  obtain ⟨img', hload', himg⟩ := peImageLoad_extends hraw halloc hfuel img hload
  obtain ⟨r', hconv', hr, hshim, hspec⟩ := convert_extends himg halloc r hconv
  have hmem : ∀ b, (r.mem b).Extends (r'.mem b) := by
    rintro (_ | _)
    · exact hr.raw
    · show r.shim.Extends r'.shim
      rw [hshim]
  obtain ⟨_, hwrite', rfl⟩ := elfWrite_extends hmem io r.spec file hwrite
  exact ⟨img', r', hload', hconv', by rwa [hspec]⟩

theorem converts_appended_payload : ∃ file, Converts .generous 9 miniShim .working MkMiniPe.ordinalImport file ∧
    Converts .generous 12 miniShim .working
      (.ofList ((MkMiniPe.buildWithImports 55 [⟨cBytes "COMCTL32.dll", [17]⟩] true 3).getD [] ++
        cBytes "payload")) file := by
  have hrun : (peImageLoad .generous 9 MkMiniPe.ordinalImport).okAnd fun img =>
      (convert .generous miniShim img).okAnd fun r =>
        (elfWrite .working r.mem r.spec).result.okAnd fun _ => true := by decide +kernel
  obtain ⟨img, himg, hrun⟩ := okAnd_iff.mp hrun
  obtain ⟨r, hr, hrun⟩ := okAnd_iff.mp hrun
  obtain ⟨file, hfile, -⟩ := okAnd_iff.mp hrun
  have hraw : MkMiniPe.ordinalImport.Extends _ := Buffer.Extends.ofList _ (cBytes "payload")
  have h : Converts .generous 9 miniShim .working MkMiniPe.ordinalImport file := ⟨img, r, himg, hr, hfile⟩
  exact ⟨file, h, h.appended hraw (.refl _) (by decide)⟩

end Winlift

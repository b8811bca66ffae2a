import Winlift.FixtureConverts
import Winlift.ShimEntry

/-!
# From the ELF entry to the program's own

The parts together: the kernel loads the file that `elf_write` made and starts at its `e_entry`, which is
the blob's `_start`; `_start` jumps to the word at `shim_pe_entry_target`, which `stub_patch_apply` has set to
the PE's entry point (`program_entered`).
-/

namespace Winlift
open CSem I386 Machine

section
variable {alloc : Alloc} {fuel : Nat} {raw blob : Buffer} {img : PeImage} {spec : Spec} {r : StubPatched}
  {grant : Nat → Bool} {io : Stdio} {file : List UInt8} {mem : Nat → UInt8}

theorem encodes_of_converted (himg : peImageLoad alloc fuel raw = .ok img)
    (hspec : peLayoutToElfSpec img = .ok spec) (hr : stubPatchApply grant blob img spec = .ok r)
    (hwf : WellFormed img blob) (hblob : ShimBlobOk blob)
    (hfile : (elfWrite io r.mem r.spec).result = .ok file) : Encodes r.mem r.spec file := by
  obtain ⟨file', hwrite, henc⟩ := elfWrite_encodes Stdio.working_ok
    (pipeline_wellPlaced (peImageLoad_eq_ok himg) hspec hr hwf hblob)
  rw [elfWrite_working hfile] at hwrite
  cases hwrite
  exact henc

theorem imagePreserved_of_converted (himg : peImageLoad alloc fuel raw = .ok img)
    (hspec : peLayoutToElfSpec img = .ok spec) (hr : stubPatchApply grant blob img spec = .ok r)
    (hwf : WellFormed img blob) (hblob : ShimBlobOk blob)
    (hfile : (elfWrite io r.mem r.spec).result = .ok file) (hmem : ElfLoads (.ofList file) mem) :
    ImagePreserved blob img raw mem := by
  have hlay := peLayoutToElfSpec_eq_ok hspec
  have hstub := stubPatchApply_eq_ok hr
  have hsegs := loadedFrom_of_elfLoads (encodes_of_converted himg hspec hr hwf hblob hfile) hmem
  exact imagePreserved_of_loaded (peImageLoad_eq_ok himg) hstub hwf hblob (image_loaded hlay hstub hwf hsegs)
    (shim_loaded hlay hstub hsegs)

end

/-! ### Where the shim's code is -/

/-- The shim has the `n` bytes from the address `a` on. -/
def InShim (blob : Buffer) (a : UInt32) (n : Nat) : Prop := ∀ k < n, ∃ g ∈ shimRegions blob, a.toNat + k ∈ g.addrs

/-- The blob has the bytes `code` at `start`, in one segment, and they are `_start` as it is assembled. The
word that the converter stores is not among them. -/
structure HasStart (blob : Buffer) (start target shimStartupInit : UInt32) (code : List UInt8) : Prop where
  start_symbol : shimFindSymbol blob (cBytes "_start") = .ok (some start)
  target_symbol : shimFindSymbol blob (cBytes "shim_pe_entry_target") = .ok (some target)
  init_symbol : shimFindSymbol blob (cBytes "shim_startup_init") = .ok (some shimStartupInit)
  assembled : disassemble start 11 code = some (startCode shimStartupInit target)
  placed : ∃ ph ∈ shimLoads blob, ∃ o, start.toNat = ph.pVaddr.toNat + o ∧ o + code.length ≤ ph.pFilesz.toNat ∧
    blob.Has (ph.pOffset.toNat + o) code
  off_target : ∀ k < code.length, start.toNat + k ∉ word target.toNat

/-- What the kernel does before the first instruction: the shim is mapped, with the bytes that `mem` has for
it, and the arguments are on a stack that is off the shim. -/
structure Launched (blob : Buffer) (mem : Nat → UInt8) (mapped : UInt32 → Bool) (m : Machine)
    (argv envp : List UInt32) : Prop where
  mapped_shim : ∀ g ∈ shimRegions blob, ∀ a : UInt32, a.toNat ∈ g.addrs → mapped a = true
  loaded : ∀ g ∈ shimRegions blob, ∀ a : UInt32, a.toNat ∈ g.addrs → m.mem a = mem a.toNat
  off_stack : ∀ g ∈ shimRegions blob, ∀ a : UInt32, a.toNat ∈ g.addrs → inBlock (m.reg .esp - 16) 16 a = false
  args : WordsAt m.mem (m.reg .esp) (initialStack argv envp)
  room : 4 * (initialStack argv envp).length + 16 ≤ 2 ^ 32
  mapped_stack : Ram.Mapped mapped (m.reg .esp - 16) 20

section
variable {blob : Buffer} {mem : Nat → UInt8} {mapped : UInt32 → Bool} {m : Machine} {argv envp : List UInt32}
  {a : UInt32} {n : Nat}

theorem InShim.mem_addrs (hblob : ShimBlobOk blob) (h : InShim blob a n) {k : Nat} (hk : k < n) :
    (a + UInt32.ofNat k).toNat = a.toNat + k ∧ ∃ g ∈ shimRegions blob, (a + UInt32.ofNat k).toNat ∈ g.addrs := by
  obtain ⟨g, hg, hin⟩ := h k hk
  have hbound := (hblob.bounds g hg).2
  have hadd : (a + UInt32.ofNat k).toNat = a.toNat + k := add_ofNat_toNat (Nat.lt_trans hin.2 hbound)
  exact ⟨hadd, g, hg, hadd ▸ hin⟩

namespace Launched

theorem mapped_inShim (hm : Launched blob mem mapped m argv envp) (hblob : ShimBlobOk blob) (h : InShim blob a n) :
    Ram.Mapped mapped a n := by
  intro k hk
  obtain ⟨-, g, hg, hin⟩ := h.mem_addrs hblob hk
  exact hm.mapped_shim g hg _ hin

theorem off_stack_inShim (hm : Launched blob mem mapped m argv envp) (hblob : ShimBlobOk blob) (h : InShim blob a n)
    {k : Nat} (hk : k < n) : inBlock (m.reg .esp - 16) 16 (a + UInt32.ofNat k) = false := by
  obtain ⟨-, g, hg, hin⟩ := h.mem_addrs hblob hk
  exact hm.off_stack g hg _ hin

/-- The bytes that the loaded image has in the shim. -/
theorem holds (hm : Launched blob mem mapped m argv envp) (hblob : ShimBlobOk blob) {l : List UInt8}
    (h : InShim blob a l.length) (hl : ∀ k (hk : k < l.length), mem (a.toNat + k) = l[k]) : m.mem.Holds a l := by
  intro k hk
  obtain ⟨hadd, g, hg, hin⟩ := h.mem_addrs hblob hk
  rw [hm.loaded g hg _ hin, hadd, hl k hk]

end Launched

theorem HasStart.inShim {start target init : UInt32} {code : List UInt8} (h : HasStart blob start target init code) :
    InShim blob start code.length := by
  obtain ⟨ph, hph, o, hstart, hle, -⟩ := h.placed
  intro k hk
  refine ⟨ph.region, List.mem_map_of_mem hph, ?_⟩
  rw [hstart, Nat.add_assoc]
  exact Region.mem_addrs_of_lt (Nat.lt_of_lt_of_le (by omega : o + k < ph.pFilesz.toNat) (Nat.le_max_right ..))

/-- The code, in memory: the conversion leaves it as the blob has it. -/
theorem HasStart.code_loaded {raw : Buffer} {img : PeImage} {start target init : UInt32} {code : List UInt8}
    (h : HasStart blob start target init code) (hpres : ImagePreserved blob img raw mem) :
    ∀ k (hk : k < code.length), mem (start.toNat + k) = code[k] := by
  intro k hk
  obtain ⟨target', htarget', -, hshim⟩ := hpres.shim
  cases h.target_symbol.symm.trans htarget'
  obtain ⟨ph, hph, o, hstart, hle, hbytes⟩ := h.placed
  have hout := h.off_target k hk
  rw [hstart, Nat.add_assoc] at hout ⊢
  rw [(hshim ph hph).1 (o + k) (by omega) hout, ← Nat.add_assoc, hbytes k hk]

theorem inShim_of_backsWord {o : Nat} (h : BacksWord (shimRegions blob) a.toNat o) : InShim blob a 4 := by
  obtain ⟨g, hg, hback⟩ := h
  intro k hk
  obtain ⟨j, hj, hx, -⟩ := hback k hk
  exact ⟨g, hg, hx ▸ Region.mem_addrs_of_lt (Nat.lt_of_lt_of_le hj (Nat.le_max_right ..))⟩

end

/-! ### The entry -/

section
variable {alloc : Alloc} {fuel : Nat} {raw blob : Buffer} {img : PeImage} {spec : Spec} {r : StubPatched}
  {grant : Nat → Bool} {io : Stdio} {file : List UInt8} {mem : Nat → UInt8}

/-- Every converted program is entered where its PE header says, on the stack the kernel made. What is
assumed of `shim_startup_init` is that it returns, and has not stored to `_start` or to the word at
`shim_pe_entry_target`. -/
theorem program_entered (himg : peImageLoad alloc fuel raw = .ok img)
    (hspec : peLayoutToElfSpec img = .ok spec) (hr : stubPatchApply grant blob img spec = .ok r)
    (hwf : WellFormed img blob) (hblob : ShimBlobOk blob)
    (hfile : (elfWrite io r.mem r.spec).result = .ok file) (hmem : ElfLoads (.ofList file) mem)
    {start target shimStartupInit : UInt32} {code : List UInt8}
    (hstart : HasStart blob start target shimStartupInit code)
    {mapped : UInt32 → Bool} {m : Machine} {phdrs : List Elf32Phdr} {argv envp : List UInt32}
    (heip : elf32Decode (.ofList file) = some (m.eip, phdrs)) (hm : Launched blob mem mapped m argv envp) :
    ∃ m₁ ret, run mapped (decodeAt mapped) 8 m = .running m₁ ∧ m₁.eip = shimStartupInit ∧
      CallsStartup m₁ argv envp ret ∧
      ∀ m₂, Returned m₁ m₂ ret →
        (∀ a, inBlock start code.length a = true ∨ inBlock target 4 a = true → m₂.mem a = m₁.mem a) →
          ∃ m₃, run mapped (decodeAt mapped) 3 m₂ = .running m₃ ∧
            EntersProgram m m₃ (img.imageBase + img.entryPointRva) := by
  have hpres := imagePreserved_of_converted himg hspec hr hwf hblob hfile hmem
  have hstub := stubPatchApply_eq_ok hr
  -- execution begins at `_start`
  have hentry : m.eip = start := by
    have hspecEntry := hstart.start_symbol.symm.trans hstub.entry
    have hdecode := (encodes_of_converted himg hspec hr hwf hblob hfile).decode
    rw [Option.some.inj (Res.ok.inj hspecEntry)]
    exact congrArg Prod.fst (Option.some.inj (heip.symm.trans hdecode))
  -- memory has its code, and the PE entry point in the word behind the symbol
  have hcode := hm.holds hblob hstart.inShim (hstart.code_loaded hpres)
  obtain ⟨target', o, htarget', hback, -⟩ := shim_stores hstub hblob
  cases hstart.target_symbol.symm.trans htarget'
  have hword := inShim_of_backsWord hback
  obtain ⟨target', htarget', hbytes, -⟩ := hpres.shim
  cases hstart.target_symbol.symm.trans htarget'
  have htarget : m.mem.Holds target (le32Bytes (img.imageBase + img.entryPointRva)) :=
    hm.holds hblob hword fun k hk => (hbytes k hk).trans (getElem_le32Bytes _ hk).symm
  obtain ⟨stop, hlisting⟩ := exists_listing hstart.assembled (hm.mapped_inShim hblob hstart.inShim)
  have hlisting : Listing (decodeAt mapped) (fun mem => mem.Holds start code) m.eip
      (startCode shimStartupInit target) stop := by
    rw [hentry]
    exact hlisting
  obtain ⟨m₁, ret, hrun, hinit, hcalls, hkeep, henters⟩ := start_enters_program hlisting
    (fun mem hsame => hcode.congr fun k hk => hsame _ (hm.off_stack_inShim hblob hstart.inShim hk))
    hm.args hm.room hm.mapped_stack (hm.mapped_inShim hblob hword)
  refine ⟨m₁, ret, hrun, hinit, hcalls, fun m₂ hret hsame => ?_⟩
  have hlen : code.length ≤ 2 ^ 32 := by
    obtain ⟨ph, -, o, -, hle, -⟩ := hstart.placed
    have hsize := ph.pFilesz.toNat_lt
    omega
  have hcode₂ : m₂.mem.Holds start code := hcode.congr fun k hk => by
    rw [hsame _ (.inl (inBlock_add hk hlen)), hkeep _ (hm.off_stack_inShim hblob hstart.inShim hk)]
  have htarget₂ : m₂.mem.Holds target (le32Bytes (img.imageBase + img.entryPointRva)) := htarget.congr fun k hk => by
    rw [hsame _ (.inr (inBlock_add hk (by omega))), hkeep _ (hm.off_stack_inShim hblob hword hk)]
  obtain ⟨m₃, hrun₃, henter⟩ := henters m₂ hret hcode₂
  rw [Ram.word_of_holds htarget₂] at henter
  exact ⟨m₃, hrun₃, henter⟩

end

/-- The memory `base` with the bytes `l` from `a` on. -/
def overlay (base : Ram) (a : UInt32) (l : List UInt8) : Ram := fun b => (l[(b - a).toNat]?).getD (base b)

theorem overlay_holds (base : Ram) (a : UInt32) {l : List UInt8} (hl : l.length ≤ 2 ^ 32) :
    (overlay base a l).Holds a l := by
  intro k hk
  have hsub : a + UInt32.ofNat k - a = UInt32.ofNat k := by rw [UInt32.add_comm, UInt32.add_sub_cancel]
  rw [overlay, hsub, UInt32.toNat_ofNat_of_lt' (show k < 2 ^ 32 by omega), List.getElem?_eq_getElem hk]
  rfl

theorem overlay_of_le (base : Ram) {a b : UInt32} {l : List UInt8} (h : l.length ≤ (b - a).toNat) :
    overlay base a l b = base b := by
  rw [overlay, List.getElem?_eq_none h]
  rfl

/-- The kernel's stack for one argument, at the bottom of the page below `0xBFFF1000`, and the shim loaded. -/
def linkedMachine (mem : Nat → UInt8) : Machine where
  reg r := if r = .esp then 0xBFFF0000 else 0
  eip := 0x0F000000
  mem := overlay (fun a => mem a.toNat) 0xBFFF0000 ((initialStack [0xBFFFF000] []).flatMap le32Bytes)

theorem linkedShim_start : HasStart linkedShim 0x0F000000 0x0F001000 0x0F00001F (linkedCode.take 31) where
  start_symbol := linkedShim_finds cBytes_start_no_nul (by decide)
  target_symbol := linkedShim_target
  init_symbol := linkedShim_finds (by decide) (by decide)
  assembled := by decide
  placed := ⟨linkedLoad 148 0x0F000000 33 (pfR ||| pfX), by decide +kernel, 0, rfl, by decide, by
    unfold Buffer.Has
    decide +kernel⟩
  off_target := by decide

theorem linkedMachine_launched (mem : Nat → UInt8) :
    Launched linkedShim mem (fun _ => true) (linkedMachine mem) [0xBFFFF000] [] := by
  have hbound : ∀ g ∈ shimRegions linkedShim, g.addrs.hi ≤ 0x0F001004 := by decide +kernel
  have hfar : ∀ g ∈ shimRegions linkedShim, ∀ a : UInt32, a.toNat ∈ g.addrs →
      24 ≤ (a - 0xBFFF0000).toNat ∧ 16 ≤ (a - (0xBFFF0000 - 16)).toNat := by
    intro g hg a ha
    have hhi := hbound g hg
    have hlt := ha.2
    constructor <;> rw [UInt32.toNat_sub]
    · have hstack : UInt32.toNat 0xBFFF0000 = 0xBFFF0000 := rfl
      omega
    · have hstack : UInt32.toNat (0xBFFF0000 - 16) = 0xBFFF0000 - 16 := rfl
      omega
  exact {
    mapped_shim := fun _ _ _ _ => rfl
    loaded := fun g hg a ha => overlay_of_le (fun a => mem a.toNat) (Nat.le_trans (by decide) (hfar g hg a ha).1)
    off_stack := fun g hg a ha => decide_eq_false (Nat.not_lt.mpr (hfar g hg a ha).2)
    args := overlay_holds _ _ (by decide)
    room := by decide
    mapped_stack := fun _ _ => rfl }

/-- The fixture that calls its import, with a `shim_startup_init` that returns at once. -/
theorem program_entered_ordinalImport : ∃ img file mem,
    peImageLoad .generous (2 ^ 30) MkMiniPe.ordinalImport = .ok img ∧ ElfLoads (.ofList file) mem ∧ ∃ m₁ ret m₃,
      run (fun _ => true) (decodeAt fun _ => true) 8 (linkedMachine mem) = .running m₁ ∧ m₁.eip = 0x0F00001F ∧
      CallsStartup m₁ [0xBFFFF000] [] ret ∧
      run (fun _ => true) (decodeAt fun _ => true) 3 ((m₁.set .esp (m₁.reg .esp + 4)).goto ret) = .running m₃ ∧
      EntersProgram (linkedMachine mem) m₃ (img.imageBase + img.entryPointRva) := by
  obtain ⟨img, spec, r, file, himg, hspec, hr, hwf, hfile, mem, hmem⟩ := MkMiniPe.ordinalImport_converted
  have hentry : r.spec.entry = 0x0F000000 :=
    (Option.some.inj (Res.ok.inj (linkedShim_start.start_symbol.symm.trans (stubPatchApply_eq_ok hr).entry))).symm
  have hdecode := (encodes_of_converted himg hspec hr hwf linkedShim_ok hfile).decode
  rw [hentry] at hdecode
  obtain ⟨m₁, ret, hrun, hinit, hcalls, henters⟩ := program_entered himg hspec hr hwf linkedShim_ok hfile hmem
    linkedShim_start hdecode (linkedMachine_launched mem)
  obtain ⟨m₃, hrun₃, henter⟩ := henters ((m₁.set .esp (m₁.reg .esp + 4)).goto ret)
    ⟨rfl, by rw [goto_reg, set_reg_self], by rw [goto_reg, set_reg_of_ne (by decide)]⟩ fun _ _ => rfl
  exact ⟨img, file, mem, himg, hmem, m₁, ret, m₃, hrun, hinit, hcalls, hrun₃, henter⟩

end Winlift

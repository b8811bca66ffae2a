import Winlift.ProgramEntry

/-!
# The fixtures run

What the fixtures are for: a converted fixture, loaded by the ELF rule and entered at its entry point, exits
with the status it was built with (`build_runs`), and one that calls its first import calls what it is bound
to before it does (`fixture_calls`).
-/

namespace Winlift.MkMiniPe
open CSem I386 Machine

/-- `SYS_exit`. -/
def sysExit : UInt32 := 1

/-- Three instructions on, the machine asks the kernel to exit. -/
def Exits (mapped : UInt32 → Bool) (m : Machine) (status : UInt32) : Prop :=
  ∃ m', run mapped (decodeAt mapped) 3 m = .trap 0x80 m' ∧ m'.reg .eax = sysExit ∧ m'.reg .ebx = status

section
variable {mapped : UInt32 → Bool} {m : Machine} {exitCode : Nat} {code : List UInt8}

theorem mapped_add {a : UInt32} {n : Nat} (h : Ram.Mapped mapped a n) (o k : Nat) (hle : o + k ≤ n) :
    Ram.Mapped mapped (a + UInt32.ofNat o) k := by
  intro j hj
  rw [UInt32.add_assoc, ← UInt32.ofNat_add]
  exact h (o + j) (by omega)

/-- What `exit_code_bytes` does. -/
theorem exits_of_code (hcode : exitCodeBytes exitCode = some code) (hmap : Ram.Mapped mapped m.eip 12)
    (h : m.mem.Holds m.eip code) : Exits mapped m (UInt32.ofNat exitCode) := by
  obtain ⟨imm, himm, hcode⟩ := Option.bind_eq_some_iff.mp hcode
  obtain ⟨-, rfl⟩ := (packI_eq_some _ _).mp himm
  cases hcode
  have hone : [0xB8, 0x01, 0x00, 0x00, 0x00] = [0xB8] ++ le32Bytes sysExit := by decide
  rw [List.append_assoc, List.append_assoc, hone, ← List.append_assoc [0xBB]] at h
  obtain ⟨h₁, h₂₃⟩ := Ram.holds_append.mp h
  obtain ⟨h₂, h₃⟩ := Ram.holds_append.mp h₂₃
  have hmap₁ := mapped_add hmap 0 5 (by omega)
  rw [show UInt32.ofNat 0 = 0 from rfl, UInt32.add_zero] at hmap₁
  obtain ⟨m₁, s₁, e₁, a₁⟩ := @step_movImm mapped _ _ _ _ _ (decodeAt_movImm_eax hmap₁ h₁)
  have hmap₂ : Ram.Mapped mapped m₁.eip 5 := by
    rw [e₁]
    exact mapped_add hmap 5 5 (by omega)
  obtain ⟨m₂, s₂, e₂, a₂⟩ := @step_movImm mapped _ m₁ _ _ _ (decodeAt_movImm_ebx hmap₂ (by rw [e₁, a₁.mem]; exact h₂))
  have heip : m₂.eip = m.eip + UInt32.ofNat 10 := by
    rw [e₂, e₁, UInt32.add_assoc]
    rfl
  have hmap₃ : Ram.Mapped mapped m₂.eip 2 := by
    rw [heip]
    exact mapped_add hmap 10 2 (by omega)
  have hint : m₂.mem.Holds m₂.eip [0xCD, 0x80] := by
    rw [e₂, e₁, a₂.mem, a₁.mem]
    exact h₃
  refine ⟨m₂.goto (m₂.eip + 2), ?_, (a₂.regs .eax (by decide)).trans a₁.reg, a₂.reg⟩
  rw [run_succ s₁, run_succ s₂, run, step_int (decodeAt_int hmap₃ hint)]

end

/-! ### The image in memory -/

/-- The machine has the section's pages, and in them what was loaded. -/
structure HasText (mapped : UInt32 → Bool) (mem : Nat → UInt8) (textVsize : Nat) (m : Machine) : Prop where
  mapped : Ram.Mapped mapped 0x00401000 textVsize
  same : ∀ k < textVsize, m.mem (0x00401000 + UInt32.ofNat k) = mem (0x00401000 + k)

section
variable {b blob : Buffer} {textVsize subsystem : Nat} {img : PeImage} {mem : Nat → UInt8}
  {mapped : UInt32 → Bool} {m : Machine} {l : List UInt8} {o : Nat}

/-- Bytes of the section that no import's slot covers are in memory as the file has them. -/
theorem text_holds (hfix : IsFixture b textVsize subsystem img) (hpres : ImagePreserved blob img b mem)
    (hm : HasText mapped mem textVsize m) (hl : b.Has (0x200 + o) l) (hend : o + l.length ≤ textVsize)
    (hout : ∀ k < l.length, ¬ InSlot img (0x1000 + (o + k))) :
    m.mem.Holds (0x00401000 + UInt32.ofNat o) l := by
  intro k hk
  have hv := hfix.vsize_le
  have hregion : (⟨0x1000, 0x200, roundUp textVsize fileAlign, textVsize⟩ : Region) ∈ peRegions img := by
    rw [hfix.peRegions_eq]
    exact List.mem_cons_of_mem _ (List.mem_singleton_self _)
  have hdata := hpres.data _ hregion (o + k) (by simp only; omega) (hout k hk)
  have hbase : img.imageBase.toNat = imageBase := by
    rw [hfix.imageBase_eq]
    rfl
  have haddr : 0x00401000 + (o + k) = imageBase + (0x1000 + (o + k)) := by
    rw [imageBase]
    omega
  rw [UInt32.add_assoc, ← UInt32.ofNat_add, hm.same (o + k) (by omega), haddr, ← hl k hk, Nat.add_assoc 0x200,
    ← hbase]
  exact hdata

end

/-! ### Without imports -/

/-- A converted file is loaded, and entered; the program is where the PE header says. -/
theorem build_runs {alloc : Alloc} {fuel exitCode subsystem : Nat} {bytes : List UInt8} {blob : Buffer}
    {secs : List (List Symbol)} {io : Stdio} (ha : alloc.Succeeds) (hio : io.WritesOk)
    (hlinked : ShimLinked blob secs) (hblob : ShimBlobOk blob) (hshim : ShimFits blob 12)
    (hsub : subsystem = 2 ∨ subsystem = 3) (h : build exitCode subsystem = some bytes) :
    ∃ img r file, peImageLoad alloc fuel (.ofList bytes) = .ok img ∧ convert alloc blob img = .ok r ∧
      (elfWrite io r.mem r.spec).result = .ok file ∧ (∃ mem, ElfLoads (.ofList file) mem) ∧
      ∀ mem, ElfLoads (.ofList file) mem → ∀ mapped m, HasText mapped mem 12 m →
        m.eip = img.imageBase + img.entryPointRva → Exits mapped m (UInt32.ofNat exitCode) := by
  obtain ⟨img, himg, hfix, himports⟩ := build_loads ha hsub h fuel
  have hnone : importSlots img.imports = [] := by rw [himports]; rfl
  obtain ⟨spec, r, file, hspec, hr, hwf, hfile, hmem⟩ := hfix.converts ha hio hlinked hblob hshim himg
    (by rw [hnone]; exact List.forall_mem_nil _) (by rw [hnone]; exact .nil)
  refine ⟨img, r, file, himg, by rw [convert, hspec, Res.ok_bind, hr], hfile, hmem,
    fun mem hmem mapped m hm heip => ?_⟩
  have hpres := imagePreserved_of_converted himg hspec hr hwf hblob hfile hmem
  obtain ⟨code, hdr, hcode, hhdr, rfl⟩ := build_eq_some h
  have hlen := exitCodeBytes_length hcode
  have hhas : (Buffer.ofList (hdr ++ (code ++ zeros 0x1F4))).Has (0x200 + 0) code := by
    have hhdrLen := (peHeader_eq_some hhdr).1
    have := Buffer.has_ofList hdr code (zeros 0x1F4)
    rwa [hhdrLen] at this
  have hentry : m.eip = 0x00401000 := by
    rw [heip]
    obtain ⟨imports, cap, rfl⟩ := hfix.image
    rfl
  have hholds := text_holds hfix hpres hm hhas (by rw [hlen]) fun k hk => by
    rintro ⟨dll, hdll, -⟩
    rw [himports] at hdll
    cases hdll
  rw [show UInt32.ofNat 0 = 0 from rfl, UInt32.add_zero] at hholds
  exact exits_of_code hcode (hentry ▸ hm.mapped) (hentry ▸ hholds)

theorem build_runs_fortyTwo : ∃ bytes img r file, build 42 3 = some bytes ∧
    peImageLoad .generous 1 (.ofList bytes) = .ok img ∧ convert .generous linkedShim img = .ok r ∧
    (elfWrite .working r.mem r.spec).result = .ok file ∧ (∃ mem, ElfLoads (.ofList file) mem) ∧
    ∀ mem, ElfLoads (.ofList file) mem → ∀ mapped m, HasText mapped mem 12 m →
      m.eip = img.imageBase + img.entryPointRva → Exits mapped m 42 := by
  have hsome : (build 42 3).isSome = true := by decide
  obtain ⟨bytes, hbytes⟩ := Option.isSome_iff_exists.mp hsome
  obtain ⟨img, r, file, h⟩ := @build_runs .generous 1 _ _ _ _ _ _ Alloc.generous_succeeds Stdio.working_ok
    linkedShim_linked linkedShim_ok (linkedShim_fits (by decide)) (.inr rfl) hbytes
  exact ⟨bytes, img, r, file, hbytes, h⟩

/-! ### With a call of the first import -/

section
variable {exitCode subsystem : Nat} {dlls : List Dll} {bytes : List UInt8}

/-- The code the builder puts in front. -/
theorem code_of_build (h : buildWithImports exitCode dlls true subsystem = some bytes) : ∃ tail,
    exitCodeBytes exitCode = some tail ∧ (Buffer.ofList bytes).Has 0x200 (([0xFF, 0x15] ++
      le32Bytes (UInt32.ofNat (imageBase + (sectAlign + thunkOff true dlls 0)))) ++ tail) := by
  unfold buildWithImports at h
  obtain ⟨tail, htail, h⟩ := Option.bind_eq_some_iff.mp h
  refine ⟨tail, htail, ?_⟩
  dsimp only at h
  rw [exitCodeBytes_length htail, if_pos rfl, if_pos rfl] at h
  obtain ⟨first, hfirst, h⟩ := Option.bind_eq_some_iff.mp h
  obtain ⟨target, htarget, h⟩ := Option.bind_eq_some_iff.mp h
  obtain ⟨-, rfl⟩ := (packI_eq_some _ _).mp htarget
  obtain ⟨call, hcall, h⟩ := Option.bind_eq_some_iff.mp h
  obtain ⟨descs, -, h⟩ := Option.bind_eq_some_iff.mp h
  obtain ⟨-, h⟩ := Option.ite_none_left_eq_some.mp h
  obtain ⟨thunks, -, h⟩ := Option.bind_eq_some_iff.mp h
  obtain ⟨hdr, hhdr, h⟩ := Option.bind_eq_some_iff.mp h
  have hoff : first = thunkOff true dlls 0 := by
    cases dlls with
    | nil => cases hfirst
    | cons d rest =>
      cases hfirst
      rfl
  have hprefix : call ++ tail <+: call ++ tail ++ descs.flatten ++ zeros 20 ++
      (dlls.flatMap fun d => d.name ++ [0]) ++ thunks.flatten :=
    ⟨descs.flatten ++ (zeros 20 ++ ((dlls.flatMap fun d => d.name ++ [0]) ++ thunks.flatten)), by
      simp only [List.append_assoc]⟩
  obtain ⟨post, hpost⟩ := hprefix
  rw [← hpost, Option.some.injEq, List.append_assoc hdr, List.append_assoc _ post] at h
  obtain ⟨rest, hrest⟩ : ∃ rest, hdr ++ (call ++ tail ++ rest) = bytes := ⟨_, h⟩
  have hhas := Buffer.has_ofList hdr (call ++ tail) rest
  rwa [hrest, (peHeader_eq_some hhdr).1, ← Option.some.inj hcall, hoff] at hhas

end

/-- The machine has called `addr`, to return to `ret`, and when it is back it exits. -/
def CallsThenExits (mapped : UInt32 → Bool) (mem : Nat → UInt8) (textVsize : Nat) (m : Machine)
    (addr status : UInt32) : Prop :=
  ∃ m₁ ret, step mapped (decodeAt mapped) m = .running m₁ ∧ m₁.eip = addr ∧ Pushed m m₁ ret ∧
    ∀ m₂, m₂.eip = ret → HasText mapped mem textVsize m₂ → Exits mapped m₂ status

section
variable {b : Buffer} {dlls : List Dll} {img : PeImage}

theorem codeLen_le (call : Bool) (dlls : List Dll) (i : Nat) : codeLen call ≤ thunkOff call dlls i := by
  simp only [thunkOff, thunksOff, namesOff]
  omega

/-- The code is in front of the slots. -/
theorem not_inSlot {call : Bool} (h : Pointwise (fun i d dll => DllRecovered (sectAlign + thunkOff call dlls i) d dll)
    dlls img.imports) {k : Nat} (hk : k < codeLen call) : ¬ InSlot img (0x1000 + k) := by
  rintro ⟨dll, hdll, fn, hfn, hin⟩
  obtain ⟨i, -, j, -, -, -, hrva⟩ := exists_ordinal h (mem_importSlots.mpr ⟨dll, hdll, rfl, hfn⟩)
  have hle := codeLen_le call dlls i
  rw [hrva, mem_word, slotOff, sectAlign] at hin
  omega

end

section
variable {alloc : Alloc} {fuel exitCode subsystem n : Nat} {ns : List Nat} {name bytes : List UInt8}
  {rest : List Dll} {blob : Buffer} {secs : List (List Symbol)} {io : Stdio} {e : ShimImportEntry} {addr : UInt32}

/-- The word in the first slot, as the machine loads it. -/
theorem first_slot_loaded {mapped : UInt32 → Bool} {mem : Nat → UInt8} {m : Machine} {img : PeImage} {b : Buffer}
    (hlinked : ShimLinked blob secs) (hpres : ImagePreserved blob img b mem)
    (hfix : IsFixture b (dataEnd true (⟨name, n :: ns⟩ :: rest)) subsystem img)
    (himports : Pointwise (fun i d dll =>
      DllRecovered (sectAlign + thunkOff true (⟨name, n :: ns⟩ :: rest) i) d dll)
      (⟨name, n :: ns⟩ :: rest) img.imports)
    (hm : HasText mapped mem (dataEnd true (⟨name, n :: ns⟩ :: rest)) m)
    (he : shimLookupImport name (ordinalName (UInt16.ofNat n)) = some e)
    (haddr : firstNamed e.shimSymbol secs.flatten = some addr) :
    m.mem.load32 mapped (UInt32.ofNat (imageBase + (sectAlign + thunkOff true (⟨name, n :: ns⟩ :: rest) 0))) =
      some addr := by
  obtain ⟨hname, hfuncs⟩ := himports.get 0 (Nat.zero_lt_succ _) (himports.length_eq ▸ Nat.zero_lt_succ _)
  obtain ⟨-, hord, hfname, hrva⟩ := hfuncs.get 0 (Nat.zero_lt_succ _) (hfuncs.length_eq ▸ Nat.zero_lt_succ _)
  obtain ⟨e', addr', he', hsym, hword⟩ := hpres.slots _ (List.getElem_mem _) _ (List.getElem_mem _)
  rw [hname, hfname, ← UInt16.ofNat_toNat (x := PeImportFunc.ordinal _), hord] at he'
  cases he.symm.trans he'
  rw [shimFindSymbol_eq hlinked.tables (shimSymbol_no_nul e (List.mem_of_find?_eq_some he)), haddr] at hsym
  cases hsym
  -- the slot is in the section
  have hle := @Built.thunkOff_le (⟨name, n :: ns⟩ :: rest) true 0 (Nat.zero_lt_succ _)
  generalize hoff : thunkOff true (⟨name, n :: ns⟩ :: rest) 0 = off at *
  have hslot : ∀ k < 4, off + k < dataEnd true (⟨name, n :: ns⟩ :: rest) := by
    intro k hk
    rw [List.getElem_cons_zero] at hle
    omega
  have hva : UInt32.ofNat (imageBase + (sectAlign + off)) = 0x00401000 + UInt32.ofNat off := by
    rw [← Nat.add_assoc, UInt32.ofNat_add]
    rfl
  have hindex : ∀ k, UInt32.ofNat (imageBase + (sectAlign + off)) + UInt32.ofNat k =
      0x00401000 + UInt32.ofNat (off + k) := fun k => by
    rw [hva, UInt32.add_assoc, ← UInt32.ofNat_add]
  have hbase : img.imageBase.toNat = imageBase := by
    rw [hfix.imageBase_eq]
    rfl
  refine Ram.load32_of_holds (fun k hk => ?_) fun k hk => ?_
  · rw [hindex]
    exact hm.mapped _ (hslot k hk)
  · have hk4 : k < 4 := hk
    have hbyte := hword k hk4
    rw [hrva, hbase] at hbyte
    rw [hindex, hm.same _ (hslot k hk4), show 0x00401000 + (off + k) = imageBase + (sectAlign + off + 4 * 0 + k) by
      rw [imageBase, sectAlign]; omega, hbyte, getElem_le32Bytes]

/-- The first import is called before the fixture exits, at the symbol that the shim has for it. -/
theorem fixture_calls (ha : alloc.Succeeds) (hfuel : 2 ^ 30 ≤ fuel) (hio : io.WritesOk)
    (hlinked : ShimLinked blob secs) (hblob : ShimBlobOk blob)
    (hshim : ShimFits blob (dataEnd true (⟨name, n :: ns⟩ :: rest)))
    (hdlls : ∀ d ∈ Dll.mk name (n :: ns) :: rest, d.Encodable) (hres : Resolvable secs (⟨name, n :: ns⟩ :: rest))
    (hsub : subsystem = 2 ∨ subsystem = 3)
    (hbelow : imageBase + roundUp (sectAlign + dataEnd true (⟨name, n :: ns⟩ :: rest)) sectAlign ≤ 0x0F000000)
    (h : buildWithImports exitCode (⟨name, n :: ns⟩ :: rest) true subsystem = some bytes)
    (he : shimLookupImport name (ordinalName (UInt16.ofNat n)) = some e)
    (haddr : firstNamed e.shimSymbol secs.flatten = some addr) :
    ∃ img r file, peImageLoad alloc fuel (.ofList bytes) = .ok img ∧ convert alloc blob img = .ok r ∧
      (elfWrite io r.mem r.spec).result = .ok file ∧ (∃ mem, ElfLoads (.ofList file) mem) ∧
      ∀ mem, ElfLoads (.ofList file) mem → ∀ mapped m,
        HasText mapped mem (dataEnd true (⟨name, n :: ns⟩ :: rest)) m → Ram.Mapped mapped (m.reg .esp - 4) 4 →
        m.eip = img.imageBase + img.entryPointRva →
          CallsThenExits mapped mem (dataEnd true (⟨name, n :: ns⟩ :: rest)) m addr (UInt32.ofNat exitCode) := by
  have hb := built_of_build h
  obtain ⟨img, himg, hfix, himports⟩ := hb.loads ha hfuel hdlls hsub hbelow
  obtain ⟨spec, r, file, hspec, hr, hwf, hfile, hmem⟩ := hfix.converts ha hio hlinked hblob hshim himg
    (hb.bindsFirst hres hfix himports) (slots_apart himports)
  refine ⟨img, r, file, himg, by rw [convert, hspec, Res.ok_bind, hr], hfile, hmem, ?_⟩
  intro mem hmem mapped m hm hstack heip
  have hpres := imagePreserved_of_converted himg hspec hr hwf hblob hfile hmem
  obtain ⟨tail, htail, hcode⟩ := code_of_build h
  obtain ⟨hcall, htailHas⟩ := Buffer.has_append.mp hcode
  have hlen := exitCodeBytes_length htail
  have hend : 18 ≤ dataEnd true (⟨name, n :: ns⟩ :: rest) :=
    Nat.le_trans (codeLen_le true _ 0)
      (Nat.le_trans (Nat.le_add_right _ _) (Built.thunkOff_le true (Nat.zero_lt_succ _)))
  have hentry : m.eip = 0x00401000 := by
    rw [heip]
    obtain ⟨imports, cap, rfl⟩ := hfix.image
    rfl
  have hholds := text_holds (o := 0) hfix hpres hm hcall (by simpa using Nat.le_trans (by decide) hend)
    fun k hk => not_inSlot himports (by rw [Nat.zero_add]; exact Nat.lt_trans hk (show 6 < 18 by decide))
  rw [show UInt32.ofNat 0 = 0 from rfl, UInt32.add_zero] at hholds
  have hmap : Ram.Mapped mapped m.eip 6 := fun k hk => hentry ▸ hm.mapped k (by omega)
  have hdecode := decodeAt_callMem hmap (hentry ▸ hholds)
  have hload := first_slot_loaded hlinked hpres hfix himports hm he haddr
  obtain ⟨m₁, s₁, e₁, p₁⟩ := @step_callMem mapped _ _ _ _ _ hdecode (by rw [addr_disp]; exact hload) hstack
  refine ⟨m₁, _, s₁, e₁, p₁, fun m₂ heip₂ hm₂ => ?_⟩
  have hholds₂ := text_holds (o := 6) hfix hpres hm₂ htailHas (by omega)
    fun k hk => not_inSlot himports (show 6 + k < 18 by omega)
  rw [hentry] at heip₂
  have heip₂' : m₂.eip = 0x00401000 + UInt32.ofNat 6 := heip₂
  refine exits_of_code htail ?_ (heip₂' ▸ hholds₂)
  rw [heip₂']
  exact mapped_add hm₂.mapped 6 12 (by omega)

end

theorem fixture_calls_comctl32 : ∃ bytes img r file,
    buildWithImports 55 [⟨cBytes "COMCTL32.dll", [17]⟩] true 3 = some bytes ∧
    peImageLoad .generous (2 ^ 30) (.ofList bytes) = .ok img ∧ convert .generous linkedShim img = .ok r ∧
    (elfWrite .working r.mem r.spec).result = .ok file ∧ (∃ mem, ElfLoads (.ofList file) mem) ∧
    ∀ mem, ElfLoads (.ofList file) mem → ∀ mapped m,
      HasText mapped mem (dataEnd true [⟨cBytes "COMCTL32.dll", [17]⟩]) m → Ram.Mapped mapped (m.reg .esp - 4) 4 →
      m.eip = img.imageBase + img.entryPointRva →
        CallsThenExits mapped mem (dataEnd true [⟨cBytes "COMCTL32.dll", [17]⟩]) m 0x0F000020 55 := by
  have hsome : (buildWithImports 55 [⟨cBytes "COMCTL32.dll", [17]⟩] true 3).isSome = true := by decide
  obtain ⟨bytes, hbytes⟩ := Option.isSome_iff_exists.mp hsome
  obtain ⟨e, he, haddr⟩ := comctl32_entry
  obtain ⟨img, r, file, h⟩ := fixture_calls Alloc.generous_succeeds (Nat.le_refl _) Stdio.working_ok
    linkedShim_linked linkedShim_ok (linkedShim_fits (by decide)) comctl32_encodable
    comctl32_resolvable (.inr rfl) (by decide) hbytes he haddr
  exact ⟨bytes, img, r, file, hbytes, h⟩

end Winlift.MkMiniPe

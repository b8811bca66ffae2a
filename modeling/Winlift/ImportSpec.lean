import Winlift.CSem.Table
import Winlift.MkMiniPe
import Winlift.PeImports
import Mathlib.Data.Nat.Bitwise

/-!
# What the import parser decodes

The import table of an image, said without the parser's loops: `descriptorAt`, `thunkAt` and `byteAt`
index the three kinds of terminated table in it, `DllAccepted` is what the parser asks of a
descriptor and `DllAt` what it records of it. Each of the parser's loops makes as many passes as its
table has entries; a table is shorter than the period of its index, `2 ^ 30` entries of 4 or 20 bytes.
-/

namespace Winlift
open CSem

section
variable (img : PeImage) (rva : UInt32)

def byteAt (k : Nat) : Option UInt8 := (peRvaToPtr img (rva + UInt32.ofNat k) 1).map img.raw.byte

def thunkAt (k : Nat) : Option UInt32 := (peRvaToPtr img (rva + UInt32.ofNat k * 4) 4).map img.raw.le32

def descriptorAt (k : Nat) : Option PeImportDescriptor :=
  (peRvaToPtr img (rva + UInt32.ofNat k * 20) 20).map (peImportDescriptorAt img.raw)

/-- `s` is the NUL-terminated string at `rva`, or the first `n` bytes of a longer one. -/
def CStringAt (n : Nat) (s : List UInt8) : Prop := Cut (byteAt img rva) (· = 0) n s

end

def isOrdinalThunk (thunk : UInt32) : Prop := 2 ^ 31 ≤ thunk.toNat

instance instDecidableIsOrdinalThunk (thunk : UInt32) : Decidable (isOrdinalThunk thunk) :=
  inferInstanceAs (Decidable (_ ≤ _))

/-- The table the thunks of a DLL are read from. -/
def PeImportDescriptor.thunkRva (desc : PeImportDescriptor) : UInt32 :=
  if desc.originalFirstThunk ≠ 0 then desc.originalFirstThunk else desc.firstThunk

/-- What is recorded of one thunk. -/
structure FuncAt (img : PeImage) (thunk iatRva : UInt32) (fn : PeImportFunc) : Prop where
  iatRva_eq : fn.iatRva = iatRva
  byOrdinal_iff : fn.byOrdinal = true ↔ isOrdinalThunk thunk
  ofOrdinal : isOrdinalThunk thunk →
    fn.ordinal.toNat = thunk.toNat % 2 ^ 16 ∧ fn.name = ordinalName fn.ordinal
  ofName : ¬ isOrdinalThunk thunk → fn.ordinal = 0 ∧ CStringAt img (thunk + 2) 127 fn.name

/-- What is asked of one thunk: the hint and the name of an import by name are in the file. -/
def ThunkAccepted (img : PeImage) (thunk : UInt32) : Prop :=
  ¬ isOrdinalThunk thunk → (peRvaToPtr img thunk 2).isSome ∧ ∃ s, CStringAt img (thunk + 2) 127 s

structure DllAccepted (img : PeImage) (desc : PeImportDescriptor) : Prop where
  name : ∃ s, CStringAt img desc.name 63 s
  notForwarded : desc.forwarderChain = 0 ∨ desc.forwarderChain = 0xFFFFFFFF
  thunks : ∃ ts, Table (thunkAt img desc.thunkRva) (· = 0) ts ∧ ∀ t ∈ ts, ThunkAccepted img t

structure DllAt (img : PeImage) (desc : PeImportDescriptor) (dll : PeImportDll) : Prop where
  name : CStringAt img desc.name 63 dll.dllName
  funcs : ∃ ts, Table (thunkAt img desc.thunkRva) (· = 0) ts ∧
    Pointwise (fun k t fn => FuncAt img t (desc.firstThunk + UInt32.ofNat k * 4) fn) ts dll.funcs

/-- Every descriptor up to the first all-zero one is in the file, and every one before it accepted. -/
def ImportsAccepted (img : PeImage) (dirRva : UInt32) : Prop :=
  ∃ descs, Table (descriptorAt img dirRva) PeImportDescriptor.isTerminator descs ∧
    ∀ desc ∈ descs, DllAccepted img desc

def ImportsAt (img : PeImage) (dirRva : UInt32) (dlls : List PeImportDll) : Prop :=
  ∃ descs, Table (descriptorAt img dirRva) PeImportDescriptor.isTerminator descs ∧
    Pointwise (fun _ desc dll => DllAt img desc dll) descs dlls

/-! ### Images that differ in what has been recorded -/

section
variable {img img' : PeImage} (hmap : peRvaToPtr img' = peRvaToPtr img) (hraw : img'.raw = img.raw)
include hmap hraw

theorem byteAt_congr : byteAt img' = byteAt img := by
  funext rva k
  rw [byteAt, byteAt, hmap, hraw]

theorem thunkAt_congr : thunkAt img' = thunkAt img := by
  funext rva k
  rw [thunkAt, thunkAt, hmap, hraw]

theorem descriptorAt_congr : descriptorAt img' = descriptorAt img := by
  funext rva k
  rw [descriptorAt, descriptorAt, hmap, hraw]

theorem DllAt.congr {desc : PeImportDescriptor} {dll : PeImportDll} (h : DllAt img desc dll) :
    DllAt img' desc dll := by
  obtain ⟨hname, ts, hts, hfuncs⟩ := h
  have hbyte := byteAt_congr hmap hraw
  refine ⟨?_, ts, ?_, hfuncs.imp fun k t fn hfn => ⟨hfn.iatRva_eq, hfn.byOrdinal_iff, hfn.ofOrdinal, ?_⟩⟩
  · rwa [CStringAt, hbyte]
  · rwa [thunkAt_congr hmap hraw]
  · rw [CStringAt, hbyte]
    exact hfn.ofName

theorem ImportsAt.congr {dirRva : UInt32} {dlls : List PeImportDll} (h : ImportsAt img dirRva dlls) :
    ImportsAt img' dirRva dlls := by
  obtain ⟨descs, hdescs, hdlls⟩ := h
  refine ⟨descs, ?_, hdlls.imp fun _ _ _ hdll => hdll.congr hmap hraw⟩
  rwa [descriptorAt_congr hmap hraw]

end

/-! ### Strings -/

section
variable {img : PeImage} {rva : UInt32}

theorem readCStringFrom_succ (n i : Nat) : readCStringFrom img rva (n + 1) i =
    match byteAt img rva i with
    | none => .ok none
    | some c =>
      if c = 0 then .ok (some [])
      else readCStringFrom img rva n (i + 1) >>= fun rest => .ok (rest.map (c :: ·)) := by
  rw [readCStringFrom, byteAt]
  cases hp : peRvaToPtr img (rva + UInt32.ofNat i) 1 with
  | none => rfl
  | some p =>
    dsimp only [Option.map_some]
    rw [readable_of_rva (n := 1) hp rfl, Res.ok_bind]

theorem readCStringFrom_eq_some {n i : Nat} {s : List UInt8} :
    readCStringFrom img rva n i = .ok (some s) ↔ Cut (fun k => byteAt img rva (k + i)) (· = 0) n s := by
  induction n generalizing i s with
  | zero =>
    rw [Cut.zero, readCStringFrom, Res.ok.injEq, Option.some.injEq]
    exact eq_comm
  | succ n ih =>
    have hshift : ∀ k, byteAt img rva (k + 1 + i) = byteAt img rva (k + (i + 1)) := fun k => by
      rw [Nat.add_assoc, Nat.add_comm 1 i]
    rw [readCStringFrom_succ, Cut.succ]
    simp only [Nat.zero_add, hshift]
    cases byteAt img rva i with
    | none => simp
    | some c =>
      dsimp only
      rcases eq_or_ne c 0 with hc | hc
      · simp [hc, eq_comm]
      · rw [if_neg hc, Res.bind_eq_ok]
        constructor
        · rintro ⟨rest, hrest, hs⟩
          cases rest with
          | none => simp at hs
          | some rest =>
            cases hs
            exact ⟨c, rfl, .inr ⟨hc, rest, rfl, ih.mp hrest⟩⟩
        · rintro ⟨d, hd, h⟩
          obtain rfl : c = d := Option.some.inj hd
          rcases h with ⟨hend, -⟩ | ⟨-, rest, rfl, hrest⟩
          · exact absurd hend hc
          · exact ⟨some rest, ih.mpr hrest, rfl⟩

theorem readCString_eq_some {n : Nat} {s : List UInt8} :
    readCString img rva (n + 1) = .ok (some s) ↔ CStringAt img rva n s :=
  readCStringFrom_eq_some

end

/-! ### Thunks -/

theorem ordinalFlag_ne_zero_iff (thunk : UInt32) :
    thunk &&& peOrdinalFlag32 ≠ 0 ↔ isOrdinalThunk thunk := by
  have hlt := thunk.toNat_lt
  rw [Ne, ← UInt32.toNat_inj, UInt32.toNat_and, show peOrdinalFlag32.toNat = 2 ^ 31 from rfl,
    Nat.and_two_pow, Nat.testBit_eq_decide_div_mod_eq, isOrdinalThunk]
  have hbit : thunk.toNat / 2 ^ 31 % 2 = 1 ↔ 2 ^ 31 ≤ thunk.toNat := by omega
  rw [← hbit]
  by_cases h : thunk.toNat / 2 ^ 31 % 2 = 1
  · simp only [h, decide_true]
    decide
  · simp only [h, decide_false]
    decide

theorem ordinal_toNat (thunk : UInt32) :
    (UInt16.ofNat (thunk &&& 0xFFFF).toNat).toNat = thunk.toNat % 2 ^ 16 := by
  rw [UInt16.toNat_ofNat', UInt32.toNat_and, show (0xFFFF : UInt32).toNat = 2 ^ 16 - 1 from rfl,
    Nat.and_two_pow_sub_one_eq_mod, Nat.mod_mod]

section
variable {img : PeImage} {dllName : List UInt8} {thunk iatRva : UInt32} {fn : PeImportFunc}

theorem parseThunk_eq_ok : parseThunk img dllName thunk iatRva = .ok fn ↔
    ThunkAccepted img thunk ∧ FuncAt img thunk iatRva fn := by
  unfold parseThunk
  by_cases h : isOrdinalThunk thunk
  · rw [if_pos ((ordinalFlag_ne_zero_iff thunk).mpr h), Res.ok.injEq]
    constructor
    · rintro rfl
      exact ⟨fun hnot => absurd h hnot, rfl, by simp [h], fun _ => ⟨ordinal_toNat thunk, rfl⟩,
        fun hnot => absurd h hnot⟩
    · rintro ⟨-, hiat, hby, hord, -⟩
      obtain ⟨hnum, hname⟩ := hord h
      have hnum : fn.ordinal = UInt16.ofNat (thunk &&& 0xFFFF).toNat :=
        UInt16.toNat_inj.mp (hnum.trans (ordinal_toNat thunk).symm)
      rw [← hnum, ← hname, ← hiat, ← hby.mpr h]
  · rw [if_neg (mt (ordinalFlag_ne_zero_iff thunk).mp h)]
    simp only [Res.bind_eq_ok, Res.orReject_eq_ok]
    constructor
    · rintro ⟨p, hp, -, -, _, hname, name, rfl, hfn⟩
      cases hfn
      have hname := readCString_eq_some.mp hname
      exact ⟨fun _ => ⟨by simp [hp], name, hname⟩, rfl, by simp [h], fun hyes => absurd hyes h,
        fun _ => ⟨rfl, hname⟩⟩
    · rintro ⟨hacc, hiat, hby, -, hname⟩
      obtain ⟨p, hp⟩ := Option.isSome_iff_exists.mp (hacc h).1
      obtain ⟨hnum, hname⟩ := hname h
      refine ⟨p, hp, p, readable_of_rva hp rfl, some fn.name, readCString_eq_some.mpr hname, fn.name,
        rfl, ?_⟩
      rw [← hnum, ← hiat, ← Bool.eq_false_iff.mpr (mt hby.mp h)]

theorem exists_parseThunk (dllName : List UInt8) (iatRva : UInt32) (h : ThunkAccepted img thunk) :
    ∃ fn, parseThunk img dllName thunk iatRva = .ok fn := by
  by_cases hord : isOrdinalThunk thunk
  · exact ⟨_, if_pos ((ordinalFlag_ne_zero_iff thunk).mpr hord)⟩
  · obtain ⟨-, name, hname⟩ := h hord
    refine ⟨⟨name, 0, false, iatRva⟩, parseThunk_eq_ok.mpr ⟨h, rfl, ?_, ?_, fun _ => ⟨rfl, hname⟩⟩⟩
    · simp [hord]
    · exact fun hyes => absurd hyes hord

end

/-- Room for one more entry is made without a wrapped capacity, as long as there are fewer than
`2 ^ 30`. -/
theorem ensureCapacity_of_le {grant : Nat → Bool} (hgrant : ∀ n ≤ ptrdiffMax, grant n = true)
    {cap : Int} {count : Nat} (elemSize : Nat) (hcap : count ≤ cap) (hcount : count < 2 ^ 30)
    (helem : elemSize < 2 ^ 32) :
    ∃ cap', ensureCapacity grant cap count elemSize = some cap' ∧ (count + 1 : Nat) ≤ cap' := by
  unfold ensureCapacity
  by_cases hlt : (count : Int) < cap
  · exact ⟨cap, if_pos hlt, hlt⟩
  obtain rfl : cap = count := Int.le_antisymm (Int.not_lt.mp hlt) hcap
  obtain ⟨new, hnew, hroom, hbound⟩ : ∃ new : Nat,
      (if (count : Int) = 0 then 8 else int32 (count * 2)) = new ∧ count + 1 ≤ new ∧ new < 2 ^ 31 := by
    split_ifs with hzero
    · exact ⟨8, rfl, by omega, by omega⟩
    · exact ⟨count * 2, int32_of_range (by omega) (by omega), by omega, by omega⟩
  have hsize : sizeT new * elemSize % 2 ^ 64 ≤ ptrdiffMax := by
    have hprod : new * elemSize < 2 ^ 31 * 2 ^ 32 := Nat.mul_lt_mul'' hbound helem
    rw [sizeT_natCast (by omega), Nat.mod_eq_of_lt (by omega)]
    exact Nat.le_pred_of_lt hprod
  rw [if_neg hlt, hnew, if_pos (hgrant _ hsize)]
  exact ⟨new, rfl, by exact_mod_cast hroom⟩

/-! ### The thunks of a DLL -/

section
variable {img : PeImage} {grant : Nat → Bool} {dllName : List UInt8} {rva iatRva : UInt32}
  {s s' : ThunkState} {k : Nat}

theorem thunkStep_eq (hi : s.i = UInt32.ofNat k) : thunkStep grant img dllName rva iatRva s =
    .orReject (thunkAt img rva k) (peErrorSet .malformed
      s!"malformed PE: thunk table for '{cText dllName}' out of range") >>= fun t =>
    if t = 0 then .ok (.done s)
    else
      (.orReject (ensureCapacity grant s.funcsCap s.funcs.length peImportFuncSize) (peErrorSet .malformed
          s!"out of memory parsing imports from '{cText dllName}'") >>= fun cap =>
        parseThunk img dllName t (iatRva + UInt32.ofNat k * 4) >>= fun fn =>
        .ok ⟨s.i + 1, s.funcs ++ [fn], cap⟩) >>= fun s' => .ok (.more s') := by
  rw [thunkStep, thunkAt, hi]
  cases hp : peRvaToPtr img (rva + UInt32.ofNat k * 4) 4 with
  | none => rfl
  | some p =>
    simp only [Res.orReject, Option.map_some, Res.ok_bind, readable_of_rva (n := 4) hp rfl, bind_assoc]

theorem thunkStep_eq_more (hi : s.i = UInt32.ofNat k) :
    thunkStep grant img dllName rva iatRva s = .ok (.more s') ↔
      ∃ t, thunkAt img rva k = some t ∧ t ≠ 0 ∧ ∃ cap fn,
        ensureCapacity grant s.funcsCap s.funcs.length peImportFuncSize = some cap ∧
          parseThunk img dllName t (iatRva + UInt32.ofNat k * 4) = .ok fn ∧
            s' = ⟨s.i + 1, s.funcs ++ [fn], cap⟩ := by
  rw [thunkStep_eq hi, entry_eq_more]
  simp only [Res.bind_eq_ok, Res.orReject_eq_ok, Res.ok.injEq, eq_comm (b := s'), ne_eq,
    exists_and_left]

theorem thunkStep_eq_done (hi : s.i = UInt32.ofNat k) :
    thunkStep grant img dllName rva iatRva s = .ok (.done s') ↔
      thunkAt img rva k = some 0 ∧ s' = s := by
  rw [thunkStep_eq hi, entry_eq_done]
  simp

/-- What `k` passes have recorded. -/
theorem thunkStep_passes (hp : Passes (thunkStep grant img dllName rva iatRva) k ⟨0, [], 0⟩ s) :
    s.i = UInt32.ofNat k ∧ ∃ ts, ts.length = k ∧ Entries (thunkAt img rva) (· = 0) ts ∧
      (∀ t ∈ ts, ThunkAccepted img t) ∧
        Pointwise (fun j t fn => FuncAt img t (iatRva + UInt32.ofNat j * 4) fn) ts s.funcs := by
  generalize hs₀ : (⟨0, [], 0⟩ : ThunkState) = s₀ at hp
  induction hp with
  | zero =>
    subst hs₀
    exact ⟨rfl, [], rfl, .nil, by simp, .nil⟩
  | snoc _ hmore ih =>
    obtain ⟨hi, ts, rfl, hts, hacc, hfuncs⟩ := ih hs₀
    obtain ⟨t, ht, hne, cap, fn, -, hfn, rfl⟩ := (thunkStep_eq_more hi).mp hmore
    obtain ⟨htacc, hfn⟩ := parseThunk_eq_ok.mp hfn
    refine ⟨by simp [hi], ts ++ [t], by simp, hts.snoc ht hne, ?_, hfuncs.snoc hfn⟩
    intro u hu
    rcases List.mem_append.mp hu with hu | hu
    · exact hacc u hu
    · rwa [List.mem_singleton.mp hu]

/-- The passes over accepted thunks are all made. -/
theorem exists_thunkStep_passes (dllName : List UInt8) (iatRva : UInt32)
    (hgrant : ∀ n ≤ ptrdiffMax, grant n = true) {ts : List UInt32}
    (hts : Entries (thunkAt img rva) (· = 0) ts) (hacc : ∀ t ∈ ts, ThunkAccepted img t)
    (hlen : ts.length ≤ 2 ^ 30) (hk : k ≤ ts.length) :
    ∃ s, Passes (thunkStep grant img dllName rva iatRva) k ⟨0, [], 0⟩ s ∧
      s.funcs.length = k ∧ (k : Int) ≤ s.funcsCap := by
  induction k with
  | zero => exact ⟨_, .zero _, rfl, Int.le_refl _⟩
  | succ k ih =>
    obtain ⟨s, hp, hfuncs, hcap⟩ := ih (Nat.le_of_succ_le hk)
    obtain ⟨cap, hgrow, hcap⟩ := ensureCapacity_of_le hgrant peImportFuncSize
      (hfuncs ▸ hcap) (hfuncs ▸ Nat.lt_of_lt_of_le hk hlen) (by decide)
    obtain ⟨ht, hne⟩ := hts k hk
    obtain ⟨fn, hfn⟩ := exists_parseThunk dllName (iatRva + UInt32.ofNat k * 4)
      (hacc _ (List.getElem_mem hk))
    refine ⟨_, hp.snoc ((thunkStep_eq_more (thunkStep_passes hp).1).mpr
      ⟨_, ht, hne, cap, fn, hgrow, hfn, rfl⟩), by simp [hfuncs], ?_⟩
    rwa [hfuncs] at hcap

end

/-! ### Descriptors -/

section
variable {img : PeImage} {alloc : Alloc} {fuel : Nat} {imports : List PeImportDll} {importsCap cap : Int}
  {desc : PeImportDescriptor} {dll : PeImportDll}

theorem thunkAt_add_period (img : PeImage) (rva : UInt32) (k : Nat) :
    thunkAt img rva (k + 2 ^ 30) = thunkAt img rva k := by
  rw [thunkAt, thunkAt, UInt32.ofNat_add, UInt32.add_mul]
  simp

theorem descriptorAt_add_period (img : PeImage) (rva : UInt32) (k : Nat) :
    descriptorAt img rva (k + 2 ^ 30) = descriptorAt img rva k := by
  rw [descriptorAt, descriptorAt, UInt32.ofNat_add, UInt32.add_mul]
  simp

theorem not_forwarded_iff {chain : UInt32} :
    ¬ (chain ≠ 0xFFFFFFFF ∧ chain ≠ 0) ↔ chain = 0 ∨ chain = 0xFFFFFFFF := by
  rw [not_and_or, not_not, not_not, or_comm]

theorem parseOneDll_eq_ok (h : parseOneDll alloc fuel img imports importsCap desc = .ok (dll, cap)) :
    DllAccepted img desc ∧ DllAt img desc dll := by
  simp only [parseOneDll, Res.bind_eq_ok, Res.orReject_eq_ok, Res.rejectIf_eq_ok] at h
  obtain ⟨_, -, _, hname, name, rfl, -, hfwd, s, hloop, h⟩ := h
  cases h
  have hname := readCString_eq_some.mp hname
  obtain ⟨k, t, -, hp, hdone⟩ := loop_eq_ok.mp hloop
  obtain ⟨hi, ts, rfl, hts, hacc, hfuncs⟩ := thunkStep_passes hp
  obtain ⟨hstop, rfl⟩ := (thunkStep_eq_done hi).mp hdone
  have htable : Table (thunkAt img desc.thunkRva) (· = 0) ts := ⟨hts, 0, hstop, rfl⟩
  exact ⟨⟨⟨name, hname⟩, not_forwarded_iff.mp hfwd, ts, htable, hacc⟩, hname, ts, htable, hfuncs⟩

theorem exists_parseOneDll (ha : alloc.Succeeds) (hacc : DllAccepted img desc) (hfuel : 2 ^ 30 ≤ fuel)
    (hcap : imports.length ≤ importsCap) (hlen : imports.length < 2 ^ 30) :
    ∃ dll cap, parseOneDll alloc fuel img imports importsCap desc = .ok (dll, cap) ∧
      (imports.length + 1 : Nat) ≤ cap := by
  obtain ⟨⟨name, hname⟩, hfwd, ts, htable, hts⟩ := hacc
  obtain ⟨cap, hgrow, hroom⟩ := ensureCapacity_of_le ha.imports peImportDllSize hcap hlen
    (by decide)
  have hshort := htable.length_lt (by decide) (thunkAt_add_period img desc.thunkRva)
  obtain ⟨s, hp, -, -⟩ := exists_thunkStep_passes name desc.firstThunk
    (ha.funcs imports.length) htable.entries hts (Nat.le_of_lt hshort) (Nat.le_refl _)
  obtain ⟨e, hstop, rfl⟩ := htable.stop
  have hloop : loop (thunkStep (alloc.funcs imports.length) img name desc.thunkRva desc.firstThunk) fuel
      ⟨0, [], 0⟩ = .ok s :=
    loop_eq_ok.mpr ⟨_, s, Nat.lt_of_lt_of_le hshort hfuel, hp,
      (thunkStep_eq_done (thunkStep_passes hp).1).mpr ⟨hstop, rfl⟩⟩
  refine ⟨⟨name, s.funcs, s.funcsCap⟩, cap, ?_, hroom⟩
  simp only [parseOneDll, Res.bind_eq_ok, Res.orReject_eq_ok, Res.rejectIf_eq_ok]
  exact ⟨cap, hgrow, some name, readCString_eq_some.mpr hname, name, rfl, (),
    not_forwarded_iff.mpr hfwd, s, hloop, rfl⟩

theorem importStep_eq {dirRva : UInt32} {s : ImportState} {k : Nat} (hi : s.i = UInt32.ofNat k) :
    importStep alloc fuel img dirRva s =
      .orReject (descriptorAt img dirRva k) (peErrorSet .malformed
        "malformed PE: import directory out of range") >>= fun desc =>
      if desc.isTerminator then .ok (.done s)
      else
        (parseOneDll alloc fuel img s.imports s.importsCap desc >>= fun r =>
          .ok ⟨s.i + 1, s.imports ++ [r.1], r.2⟩) >>= fun s' => .ok (.more s') := by
  rw [importStep, descriptorAt, hi]
  cases hp : peRvaToPtr img (dirRva + UInt32.ofNat k * 20) 20 with
  | none => rfl
  | some p =>
    simp only [Res.orReject, Option.map_some, Res.ok_bind,
      readable_of_rva (n := peImportDescriptorSize) hp rfl, bind_assoc]

theorem importStep_eq_more {dirRva : UInt32} {s s' : ImportState} {k : Nat} (hi : s.i = UInt32.ofNat k) :
    importStep alloc fuel img dirRva s = .ok (.more s') ↔
      ∃ desc, descriptorAt img dirRva k = some desc ∧ ¬ desc.isTerminator ∧ ∃ dll cap,
        parseOneDll alloc fuel img s.imports s.importsCap desc = .ok (dll, cap) ∧
          s' = ⟨s.i + 1, s.imports ++ [dll], cap⟩ := by
  rw [importStep_eq hi, entry_eq_more]
  simp only [Res.bind_eq_ok, Res.ok.injEq, eq_comm (b := s'), Prod.exists]

theorem importStep_eq_done {dirRva : UInt32} {s s' : ImportState} {k : Nat} (hi : s.i = UInt32.ofNat k) :
    importStep alloc fuel img dirRva s = .ok (.done s') ↔
      (∃ desc, descriptorAt img dirRva k = some desc ∧ desc.isTerminator) ∧ s' = s := by
  rw [importStep_eq hi]
  exact entry_eq_done

theorem importStep_passes {dirRva : UInt32} {s : ImportState} {k : Nat}
    (hp : Passes (importStep alloc fuel img dirRva) k ⟨0, [], 0⟩ s) :
    s.i = UInt32.ofNat k ∧ ∃ descs, descs.length = k ∧
      Entries (descriptorAt img dirRva) PeImportDescriptor.isTerminator descs ∧
        (∀ desc ∈ descs, DllAccepted img desc) ∧
          Pointwise (fun _ desc dll => DllAt img desc dll) descs s.imports := by
  generalize hs₀ : (⟨0, [], 0⟩ : ImportState) = s₀ at hp
  induction hp with
  | zero =>
    subst hs₀
    exact ⟨rfl, [], rfl, .nil, by simp, .nil⟩
  | snoc _ hmore ih =>
    obtain ⟨hi, descs, rfl, hdescs, hacc, hdlls⟩ := ih hs₀
    obtain ⟨desc, hdesc, hnot, dll, cap, hdll, rfl⟩ := (importStep_eq_more hi).mp hmore
    obtain ⟨hdacc, hdat⟩ := parseOneDll_eq_ok hdll
    refine ⟨by simp [hi], descs ++ [desc], by simp, hdescs.snoc hdesc hnot, ?_, hdlls.snoc hdat⟩
    intro d hd
    rcases List.mem_append.mp hd with hd | hd
    · exact hacc d hd
    · rwa [List.mem_singleton.mp hd]

theorem exists_importStep_passes (ha : alloc.Succeeds) (hfuel : 2 ^ 30 ≤ fuel) {dirRva : UInt32}
    {descs : List PeImportDescriptor}
    (hdescs : Entries (descriptorAt img dirRva) PeImportDescriptor.isTerminator descs)
    (hacc : ∀ desc ∈ descs, DllAccepted img desc) (hlen : descs.length ≤ 2 ^ 30) {k : Nat}
    (hk : k ≤ descs.length) :
    ∃ s, Passes (importStep alloc fuel img dirRva) k ⟨0, [], 0⟩ s ∧ s.imports.length = k ∧
      (k : Int) ≤ s.importsCap := by
  induction k with
  | zero => exact ⟨_, .zero _, rfl, Int.le_refl _⟩
  | succ k ih =>
    obtain ⟨s, hp, himports, hcap⟩ := ih (Nat.le_of_succ_le hk)
    obtain ⟨hdesc, hnot⟩ := hdescs k hk
    obtain ⟨dll, cap, hdll, hroom⟩ := exists_parseOneDll ha (hacc _ (List.getElem_mem hk)) hfuel
      (himports.symm ▸ hcap) (himports.symm ▸ Nat.lt_of_lt_of_le hk hlen)
    refine ⟨_, hp.snoc ((importStep_eq_more (importStep_passes hp).1).mpr
      ⟨_, hdesc, hnot, dll, cap, hdll, rfl⟩), by simp [himports], ?_⟩
    rwa [himports] at hroom

/-- The loop over the descriptors returns iff the table is accepted, and what it has recorded then. -/
theorem importLoop_eq_ok {dirRva : UInt32} {s : ImportState}
    (h : loop (importStep alloc fuel img dirRva) fuel ⟨0, [], 0⟩ = .ok s) :
    ImportsAccepted img dirRva ∧ ImportsAt img dirRva s.imports := by
  obtain ⟨k, t, -, hp, hdone⟩ := loop_eq_ok.mp h
  obtain ⟨hi, descs, rfl, hdescs, hacc, hdlls⟩ := importStep_passes hp
  obtain ⟨hstop, rfl⟩ := (importStep_eq_done hi).mp hdone
  exact ⟨⟨descs, ⟨hdescs, hstop⟩, hacc⟩, descs, ⟨hdescs, hstop⟩, hdlls⟩

theorem exists_importLoop (ha : alloc.Succeeds) (hfuel : 2 ^ 30 ≤ fuel) {dirRva : UInt32}
    (hacc : ImportsAccepted img dirRva) :
    ∃ s, loop (importStep alloc fuel img dirRva) fuel ⟨0, [], 0⟩ = .ok s := by
  obtain ⟨descs, htable, hacc⟩ := hacc
  have hshort := htable.length_lt (by decide) (descriptorAt_add_period img dirRva)
  obtain ⟨s, hp, -, -⟩ := exists_importStep_passes ha hfuel htable.entries hacc (Nat.le_of_lt hshort)
    (Nat.le_refl _)
  exact ⟨s, loop_eq_ok.mpr ⟨_, s, Nat.lt_of_lt_of_le hshort hfuel, hp,
    (importStep_eq_done (importStep_passes hp).1).mpr ⟨htable.stop, rfl⟩⟩⟩

section
variable (hnew : img.imports = []) (hcap : img.importsCap = 0) {dirRva : UInt32} (hdir : dirRva ≠ 0)
include hnew hcap hdir

theorem peParseImportsDir_eq_ok {img' : PeImage} :
    peParseImportsDir alloc fuel img dirRva = .ok img' ↔ ∃ s,
      loop (importStep alloc fuel img dirRva) fuel ⟨0, [], 0⟩ = .ok s ∧
        img' = { img with imports := s.imports, importsCap := s.importsCap } := by
  rw [peParseImportsDir, if_neg hdir, hnew, hcap, Res.bind_eq_ok]
  refine exists_congr fun s => and_congr_right fun _ => ?_
  rw [Res.ok.injEq, eq_comm]

theorem peParseImportsDir_spec {img' : PeImage} (h : peParseImportsDir alloc fuel img dirRva = .ok img') :
    ImportsAccepted img dirRva ∧ ImportsAt img dirRva img'.imports := by
  obtain ⟨s, hs, rfl⟩ := (peParseImportsDir_eq_ok hnew hcap hdir).mp h
  exact importLoop_eq_ok hs

theorem exists_peParseImportsDir (ha : alloc.Succeeds) (hfuel : 2 ^ 30 ≤ fuel)
    (hacc : ImportsAccepted img dirRva) : ∃ img', peParseImportsDir alloc fuel img dirRva = .ok img' := by
  obtain ⟨s, hs⟩ := exists_importLoop ha hfuel hacc
  exact ⟨_, (peParseImportsDir_eq_ok hnew hcap hdir).mpr ⟨s, hs, rfl⟩⟩

end

/-- The parser returns iff the table is accepted, and records then what is in it. -/
theorem imports_decoded (ha : alloc.Succeeds) (hnew : img.imports = []) (hcap : img.importsCap = 0)
    {dirRva : UInt32} (hdir : dirRva ≠ 0) (hfuel : 2 ^ 30 ≤ fuel) :
    ((∃ img', peParseImportsDir alloc fuel img dirRva = .ok img') ↔ ImportsAccepted img dirRva) ∧
      ∀ img', peParseImportsDir alloc fuel img dirRva = .ok img' → ImportsAt img dirRva img'.imports := by
  refine ⟨⟨?_, exists_peParseImportsDir hnew hcap hdir ha hfuel⟩, fun img' h => ?_⟩
  · rintro ⟨img', h⟩
    exact (peParseImportsDir_spec hnew hcap hdir h).1
  · exact (peParseImportsDir_spec hnew hcap hdir h).2

end

/-- The fixture with one ordinal import, as the import parser is called on it. -/
def ordinalImportHeaders : PeImage where
  imageBase := 0x400000
  entryPointRva := 0x1000
  sizeOfImage := 0x2000
  sizeOfHeaders := 0x200
  subsystem := 3
  sectionAlignment := 0x1000
  fileAlignment := 0x200
  sections := [⟨cBytes ".text", 0x1000, 79, 0x200, 0x200, 0x60000020⟩]
  imports := []
  importsCap := 0
  relocs := []
  hasTls := false
  tlsHasCallbacks := false
  tlsCallbackRvas := []
  raw := MkMiniPe.ordinalImport

/-- Its descriptor. -/
def ordinalImportDescriptor : PeImportDescriptor := ⟨0, 0, 0, 0x103A, 0x1047⟩

theorem ordinalImport_descriptors :
    Table (descriptorAt ordinalImportHeaders 0x1012) PeImportDescriptor.isTerminator [ordinalImportDescriptor] :=
  .of_getElem (e := ⟨0, 0, 0, 0, 0⟩) (by decide +kernel) (List.forall_mem_singleton.mpr (by decide)) (by decide)

theorem ordinalImport_thunks : Table (thunkAt ordinalImportHeaders 0x1047) (· = 0) [0x80000011] :=
  .of_getElem (e := 0) (by decide +kernel) (List.forall_mem_singleton.mpr (by decide)) rfl

theorem ordinalImport_name : CStringAt ordinalImportHeaders 0x103A 63 (cBytes "COMCTL32.dll") := by
  have hread : (readCString ordinalImportHeaders 0x103A 64).okAnd (· = some (cBytes "COMCTL32.dll")) := by
    decide +kernel
  obtain ⟨s, hread, heq⟩ := Res.okAnd_iff.mp hread
  obtain rfl : s = _ := of_decide_eq_true heq
  exact readCString_eq_some.mp hread

theorem ordinalImport_accepted : ImportsAccepted ordinalImportHeaders 0x1012 := by
  refine ⟨_, ordinalImport_descriptors, List.forall_mem_singleton.mpr ⟨⟨_, ordinalImport_name⟩, .inl rfl, ?_⟩⟩
  exact ⟨_, ordinalImport_thunks, List.forall_mem_singleton.mpr fun hnot => absurd (by decide) hnot⟩

theorem imports_decoded_ordinalImport : ∃ img' dll fn,
    peParseImportsDir .generous (2 ^ 30) ordinalImportHeaders 0x1012 = .ok img' ∧
      img'.imports = [dll] ∧ dll.dllName = cBytes "COMCTL32.dll" ∧ dll.funcs = [fn] ∧
      fn.byOrdinal = true ∧ fn.ordinal = 17 ∧ fn.name = ordinalName 17 ∧ fn.iatRva = 0x1047 := by
  obtain ⟨hiff, hat⟩ := @imports_decoded ordinalImportHeaders .generous (2 ^ 30) Alloc.generous_succeeds rfl rfl
    0x1012 (by decide) (Nat.le_refl _)
  obtain ⟨img', himg'⟩ := hiff.mpr ordinalImport_accepted
  obtain ⟨descs, hdescs, hdlls⟩ := hat img' himg'
  obtain rfl := hdescs.unique ordinalImport_descriptors
  obtain ⟨⟨dllName, funcs, cap⟩, himports⟩ := List.length_eq_one_iff.mp hdlls.length_eq.symm
  rw [himports] at hdlls
  obtain ⟨hname, ts, hts, hfuncs⟩ := hdlls.get 0 Nat.zero_lt_one Nat.zero_lt_one
  obtain rfl := hts.unique ordinalImport_thunks
  obtain ⟨fn, rfl⟩ := List.length_eq_one_iff.mp hfuncs.length_eq.symm
  obtain ⟨hrva, hby, hord, -⟩ := hfuncs.get 0 Nat.zero_lt_one Nat.zero_lt_one
  obtain ⟨hordinal, hfname⟩ := hord (by decide)
  have hseventeen : fn.ordinal = 17 := UInt16.toNat_inj.mp hordinal
  exact ⟨img', _, fn, himg', himports, hname.unique ordinalImport_name, rfl, hby.mpr (by decide), hseventeen,
    hseventeen ▸ hfname, hrva⟩

end Winlift

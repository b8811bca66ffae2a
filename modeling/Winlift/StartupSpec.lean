import Mathlib.Algebra.Order.BigOperators.Group.List
import Mathlib.Data.List.TakeWhile
import Winlift.ShimStartup

/-!
# The command line and the environment, read back

Both passes over the strings are described by what they put out: `fillArgs` puts out the arguments with
a space between any two, `fillEnv` the entries with a NUL behind each. The first pass computes
`blockSize`, in exact integers as long as that fits (`measure_eq`), and the block of that size is all
the second pass needs.
-/

namespace Winlift
open CSem

/-! ### The first pass -/

/-- One byte more than every string takes with its NUL. -/
def blockSize (ss : List CStr) : Nat := 1 + (ss.map fun s => s.bytes.length + 1).sum

theorem localStrlen_eq (s : CStr) : localStrlen s = .ok (UInt32.ofNat s.bytes.length) := by
  have hscan : (s.scan (· ≠ 0) 0 : Res Empty Nat) = .ok (0 + s.bytes.length) := by
    refine @CStr.scan_append Empty s _ (by decide) [] s.bytes [] (by simp) (fun c hc => ?_) (by simp)
    exact decide_eq_true fun hzero => s.no_nul (hzero ▸ hc)
  rw [localStrlen, hscan, Res.ok_bind, Nat.zero_add]

theorem measure_eq (ss : List CStr) (total : Nat) : measure ss (UInt32.ofNat total) =
    .ok (UInt32.ofNat (total + (ss.map fun s => s.bytes.length + 1).sum)) := by
  induction ss generalizing total with
  | nil => rfl
  | cons s rest ih =>
    have hadd : UInt32.ofNat total + (UInt32.ofNat s.bytes.length + 1) =
        UInt32.ofNat (total + (s.bytes.length + 1)) := by
      rw [UInt32.ofNat_add, UInt32.ofNat_add]
      rfl
    rw [measure, localStrlen_eq, Res.ok_bind, hadd, ih, List.map_cons, List.sum_cons, Nat.add_assoc]

theorem measure_one (ss : List CStr) : measure ss 1 = .ok (UInt32.ofNat (blockSize ss)) :=
  measure_eq ss 1

theorem length_le_blockSize (ss : List CStr) : ss.length + 1 ≤ blockSize ss := by
  induction ss with
  | nil => decide
  | cons s rest ih =>
    rw [blockSize, List.map_cons, List.sum_cons]
    rw [blockSize] at ih
    rw [List.length_cons]
    omega

theorem string_lt_blockSize {ss : List CStr} {s : CStr} (hs : s ∈ ss) : s.bytes.length < blockSize ss := by
  have hle := List.single_le_sum (l := ss.map fun s => s.bytes.length + 1) (by simp) _
    (List.mem_map_of_mem hs)
  rw [blockSize]
  omega

/-! ### The second pass -/

def strings (ss : List CStr) : List (List UInt8) := ss.map CStr.bytes

/-- What the second pass puts out, up to the last NUL. -/
def commandLine (argv : List CStr) : List UInt8 := [' '.toUInt8].intercalate (strings argv)

theorem commandLine_cons (s : CStr) (rest : List CStr) :
    commandLine (s :: rest) = s.bytes ++ rest.flatMap fun s => ' '.toUInt8 :: s.bytes := by
  rw [commandLine, strings, List.map_cons, intercalate_cons, List.flatMap_map]

section
variable (mapped : UInt32 → Bool) (block : UInt32)

theorem fillString_eq {s : CStr} (hs : s.bytes.length < 2 ^ 32) (c : Cursor) :
    fillString mapped block s c = s.bytes.foldlM (Cursor.put mapped block) c := by
  rw [fillString, localStrlen_eq, Res.ok_bind, UInt32.toNat_ofNat_of_lt' hs, CStr.putFrom_eq (Nat.zero_add _),
    List.drop_zero]

/-- From the second argument on there is a space in front. -/
theorem fillArgs_succ {ss : List CStr} (hss : ∀ s ∈ ss, s.bytes.length < 2 ^ 32) (i : Nat) (c : Cursor) :
    fillArgs mapped block (i + 1) ss c =
      (ss.flatMap fun s => ' '.toUInt8 :: s.bytes).foldlM (Cursor.put mapped block) c := by
  induction ss generalizing i c with
  | nil => rfl
  | cons s rest ih =>
    rw [List.forall_mem_cons] at hss
    rw [fillArgs, if_pos (Nat.succ_pos i), List.flatMap_cons, List.cons_append, List.foldlM_cons]
    refine bind_congr fun c => ?_
    show fillString mapped block s c >>= _ = _
    rw [fillString_eq mapped block hss.1, List.foldlM_append]
    exact bind_congr fun c => ih hss.2 (i + 1) c

theorem fillArgs_eq {ss : List CStr} (hss : ∀ s ∈ ss, s.bytes.length < 2 ^ 32) (c : Cursor) :
    fillArgs mapped block 0 ss c = (commandLine ss).foldlM (Cursor.put mapped block) c := by
  cases ss with
  | nil => rfl
  | cons s rest =>
    rw [List.forall_mem_cons] at hss
    rw [fillArgs, if_neg (Nat.lt_irrefl 0), Res.ok_bind, commandLine_cons, List.foldlM_append]
    show fillString mapped block s c >>= _ = _
    rw [fillString_eq mapped block hss.1]
    exact bind_congr fun c => fillArgs_succ mapped block hss.2 0 c

theorem fillEnv_eq {ss : List CStr} (hss : ∀ s ∈ ss, s.bytes.length < 2 ^ 32) (c : Cursor) :
    fillEnv mapped block ss c =
      ((strings ss).flatMap (· ++ [0])).foldlM (Cursor.put mapped block) c := by
  induction ss generalizing c with
  | nil => rfl
  | cons s rest ih =>
    rw [List.forall_mem_cons] at hss
    rw [fillEnv, fillString_eq mapped block hss.1, strings, List.map_cons, List.flatMap_cons,
      List.foldlM_append, List.foldlM_append]
    simp only [bind_assoc, List.foldlM_cons, List.foldlM_nil, pure_bind]
    exact bind_congr fun c => bind_congr fun c => ih hss.2 c

end

theorem length_commandLine (argv : List CStr) : (commandLine argv).length + 1 ≤ blockSize argv := by
  have hflat : ∀ ss : List CStr, (ss.flatMap fun s => ' '.toUInt8 :: s.bytes).length =
      (ss.map fun s => s.bytes.length + 1).sum := fun ss => by
    rw [List.length_flatMap]
    rfl
  cases argv with
  | nil => decide
  | cons s rest =>
    rw [commandLine_cons, List.length_append, hflat, blockSize, List.map_cons, List.sum_cons]
    omega

theorem length_entries (ss : List CStr) : ((strings ss).flatMap (· ++ [0])).length + 1 = blockSize ss := by
  rw [strings, List.flatMap_map, List.length_flatMap, blockSize, Nat.add_comm]
  simp

/-- The bytes and a last NUL, put into a block that has room for them. -/
theorem exists_fill {block : UInt32} {n : Nat} (hn : n ≤ 2 ^ 32) {bytes : List UInt8}
    (hlen : bytes.length + 1 ≤ n) (m : Ram) : ∃ c m',
      (bytes.foldlM (Cursor.put (inBlock block n) block) ⟨0, m⟩ : Res Empty Cursor) = .ok c ∧
      (c.mem.store (inBlock block n) (block + c.pos) 0 : Res Empty Ram) = .ok m' ∧
      m'.Holds block (bytes ++ [0]) := by
  have hstart : Cursor.Filled block ⟨0, m⟩ [] := ⟨rfl, fun k hk => absurd hk (Nat.not_lt_zero k)⟩
  obtain ⟨c, hput, hc⟩ : ∃ c, (bytes.foldlM (Cursor.put (inBlock block n) block) ⟨0, m⟩ : Res Empty Cursor) =
      .ok c ∧ c.Filled block ([] ++ bytes) :=
    Cursor.putAll_filled hstart hn (by rw [List.length_nil]; omega)
  rw [List.nil_append] at hc
  obtain ⟨c', hlast, hc'⟩ : ∃ c', (c.put (inBlock block n) block 0 : Res Empty Cursor) = .ok c' ∧
      c'.Filled block (bytes ++ [0]) :=
    Cursor.put_filled hc 0 (by omega) (inBlock_add (by omega) hn)
  obtain ⟨m', hstore, hlast⟩ := Res.bind_eq_ok.mp hlast
  cases hlast
  exact ⟨c, m', hput, hstore, hc'.holds⟩

/-! ### Reading back -/

/-- The pieces between single spaces; the empty line has none. -/
def splitLine (line : List UInt8) : List (List UInt8) :=
  if line = [] then [] else line.splitOn ' '.toUInt8

theorem not_mem_strings {ss : List CStr} {l : List UInt8} (hl : l ∈ strings ss) : 0 ∉ l := by
  obtain ⟨s, -, rfl⟩ := List.mem_map.mp hl
  exact s.no_nul

theorem not_mem_commandLine (argv : List CStr) : 0 ∉ commandLine argv := by
  cases argv with
  | nil => exact List.not_mem_nil
  | cons s rest =>
    rw [commandLine_cons, List.mem_append, List.mem_flatMap, not_or]
    refine ⟨s.no_nul, ?_⟩
    rintro ⟨t, -, ht⟩
    rcases List.mem_cons.mp ht with hspace | hmem
    · exact absurd hspace (by decide)
    · exact t.no_nul hmem

theorem splitLine_commandLine {argv : List CStr}
    (hargs : ∀ s ∈ argv, s.bytes ≠ [] ∧ ' '.toUInt8 ∉ s.bytes) : splitLine (commandLine argv) = strings argv := by
  cases argv with
  | nil => rfl
  | cons s rest =>
    have hne : commandLine (s :: rest) ≠ [] := by
      rw [commandLine_cons]
      exact List.append_ne_nil_of_left_ne_nil (hargs s List.mem_cons_self).1 _
    rw [splitLine, if_neg hne]
    refine List.splitOn_intercalate _ (fun l hl => ?_) (List.cons_ne_nil _ _)
    obtain ⟨t, ht, rfl⟩ := List.mem_map.mp hl
    exact (hargs t ht).2

/-- There is a string at `p`, and it splits into the arguments where they are non-empty and have no
spaces. -/
def LineReads (m : Ram) (p : UInt32) (argv : List CStr) : Prop :=
  ∃ line, (∀ fuel, blockSize argv ≤ fuel → m.cstr fuel p = some line) ∧
    ((∀ s ∈ argv, s.bytes ≠ [] ∧ ' '.toUInt8 ∉ s.bytes) → splitLine line = strings argv)

/-- The walk from `p` on gives the entries where they are non-empty. -/
def EntriesRead (m : Ram) (p : UInt32) (entries : List CStr) : Prop :=
  (∀ s ∈ entries, s.bytes ≠ []) →
    ∀ fuel, blockSize entries ≤ fuel → m.strings fuel fuel p = some (strings entries)

theorem lineReads_of_holds {m : Ram} {p : UInt32} {argv : List CStr}
    (h : m.Holds p (commandLine argv ++ [0])) : LineReads m p argv := by
  refine ⟨commandLine argv, fun fuel hfuel => ?_, splitLine_commandLine⟩
  have hlen := length_commandLine argv
  exact Ram.cstr_of_holds h (not_mem_commandLine argv) (by omega)

theorem entriesRead_of_holds {m : Ram} {p : UInt32} {entries : List CStr}
    (h : m.Holds p (Ram.packed (strings entries))) : EntriesRead m p entries := by
  intro hne fuel hfuel
  have hlen := length_le_blockSize entries
  have hroom : ∀ l ∈ strings entries, l.length < fuel := fun l hl => by
    obtain ⟨s, hs, rfl⟩ := List.mem_map.mp hl
    exact Nat.lt_of_lt_of_le (string_lt_blockSize hs) hfuel
  have hcount : (strings entries).length < fuel := by
    rw [strings, List.length_map]
    omega
  rw [Ram.strings_packed h (fun l => not_mem_strings) hroom (Nat.zero_lt_of_lt hcount) hcount,
    List.takeWhile_eq_self_iff.mpr]
  intro l hl
  obtain ⟨s, hs, rfl⟩ := List.mem_map.mp hl
  exact decide_eq_true (hne s hs)

/-! ### The calls -/

section
variable {moves : Bool} {argv : List CStr} {envp : Option (List CStr)} {st : ShimState} {block : UInt32}

theorem shimStartupInit_spec (envp : Option (List CStr)) (hsize : blockSize argv < 2 ^ 32)
    (halloc : (shimHeapAlloc moves (UInt32.ofNat (blockSize argv)) st.heap).2 = block) (hblock : block ≠ 0) :
    ∃ st', shimStartupInit (inBlock block (blockSize argv)) moves argv envp st = .ok st' ∧
      st'.cmdline = block ∧ st'.envp = envp ∧ st'.envBlock = st.envBlock ∧
        st'.mem.Holds block (commandLine argv ++ [0]) := by
  have hss : ∀ s ∈ argv, s.bytes.length < 2 ^ 32 := fun s hs => Nat.lt_trans (string_lt_blockSize hs) hsize
  obtain ⟨c, m', hfill, hstore, hholds⟩ :=
    @exists_fill block _ (Nat.le_of_lt hsize) _ (length_commandLine argv) st.mem
  rw [← fillArgs_eq _ _ hss] at hfill
  refine ⟨{ argc := argv.length, argv := argv, envp := envp,
            iob := (((List.replicate shimIobCount.toNat (-1)).set 0 0).set 1 1).set 2 2, cmdline := block,
            envBlock := st.envBlock,
            heap := (shimHeapAlloc moves (UInt32.ofNat (blockSize argv)) st.heap).1, mem := m' },
    ?_, rfl, rfl, rfl, hholds⟩
  simp only [shimStartupInit, measure_one, Res.ok_bind, halloc, hblock, ne_eq, not_false_eq_true, if_true,
    hfill, hstore]

theorem shimEnvBlock_spec (hsize : blockSize (st.envp.getD []) < 2 ^ 32) (hfirst : st.envBlock = 0)
    (halloc : (shimHeapAlloc moves (UInt32.ofNat (blockSize (st.envp.getD []))) st.heap).2 = block)
    (hblock : block ≠ 0) :
    ∃ st', shimEnvBlock (inBlock block (blockSize (st.envp.getD []))) moves st = .ok (some block, st') ∧
      st'.envBlock = block ∧ st'.mem.Holds block (Ram.packed (strings (st.envp.getD []))) := by
  have hss : ∀ s ∈ st.envp.getD [], s.bytes.length < 2 ^ 32 := fun s hs =>
    Nat.lt_trans (string_lt_blockSize hs) hsize
  obtain ⟨c, m', hfill, hstore, hholds⟩ :=
    @exists_fill block _ (Nat.le_of_lt hsize) _ (Nat.le_of_eq (length_entries (st.envp.getD []))) st.mem
  rw [← fillEnv_eq _ _ hss] at hfill
  refine ⟨{ st with
            heap := (shimHeapAlloc moves (UInt32.ofNat (blockSize (st.envp.getD []))) st.heap).1,
            envBlock := block, mem := m' }, ?_, rfl, hholds⟩
  simp only [shimEnvBlock, hfirst, ne_eq, not_true_eq_false, if_false, measure_one, Res.ok_bind, halloc,
    hblock, hfill, hstore]

theorem shimEnvBlock_again (mapped : UInt32 → Bool) (moves : Bool) (h : st.envBlock ≠ 0) :
    shimEnvBlock mapped moves st = .ok (some st.envBlock, st) := if_pos h

end

/-- Nothing but the block is written, what is in it reads back, and the environment block is made
once. -/
theorem startup_serialised {argv : List CStr} {envp : Option (List CStr)} {st₀ st : ShimState}
    {moves₀ moves : Bool} {line block : UInt32} (hargs : blockSize argv < 2 ^ 32)
    (hline : (shimHeapAlloc moves₀ (UInt32.ofNat (blockSize argv)) st₀.heap).2 = line) (hline₀ : line ≠ 0)
    (henvp : st.envp = envp) (hfirst : st.envBlock = 0) (henv : blockSize (envp.getD []) < 2 ^ 32)
    (hblock : (shimHeapAlloc moves (UInt32.ofNat (blockSize (envp.getD []))) st.heap).2 = block)
    (hblock₀ : block ≠ 0) :
    (∃ st', shimStartupInit (inBlock line (blockSize argv)) moves₀ argv envp st₀ = .ok st' ∧
      Kernel32.getCommandLineA st' = some line ∧ LineReads st'.mem line argv ∧ st'.envp = envp ∧
        st'.envBlock = st₀.envBlock) ∧
    ∃ st', shimEnvBlock (inBlock block (blockSize (envp.getD []))) moves st = .ok (some block, st') ∧
      EntriesRead st'.mem block (envp.getD []) ∧
        ∀ mapped moves later, later.envBlock = st'.envBlock →
          shimEnvBlock mapped moves later = .ok (some block, later) := by
  subst henvp
  constructor
  · obtain ⟨st', hrun, hcmdline, henvp, henvBlock, hholds⟩ := shimStartupInit_spec st.envp hargs hline hline₀
    refine ⟨st', hrun, ?_, lineReads_of_holds hholds, henvp, henvBlock⟩
    rw [Kernel32.getCommandLineA, hcmdline, if_pos hline₀]
  · obtain ⟨st', hrun, henvBlock, hholds⟩ := shimEnvBlock_spec henv hfirst hblock hblock₀
    refine ⟨st', hrun, entriesRead_of_holds hholds, fun mapped moves later hlater => ?_⟩
    rw [henvBlock] at hlater
    rw [shimEnvBlock_again mapped moves (hlater ▸ hblock₀), hlater]

/-- The state before start-up. -/
def ShimState.fresh (start : UInt32) : ShimState where
  argc := 0
  argv := []
  envp := none
  iob := []
  cmdline := 0
  envBlock := 0
  heap := ⟨0, 0, start⟩
  mem := fun _ => 0

def sampleArgv : List CStr := [⟨cBytes "argv_env", by decide⟩, ⟨cBytes "foo", by decide⟩, ⟨cBytes "5", by decide⟩]

def sampleEnvp : List CStr := [⟨cBytes "HOME=/", by decide⟩, ⟨cBytes "A=b", by decide⟩]

theorem startup_serialised_sample :
    (∃ st', shimStartupInit (inBlock 0x0F100000 16) true sampleArgv (some sampleEnvp)
        (.fresh 0x0F100000) = .ok st' ∧ LineReads st'.mem 0x0F100000 sampleArgv) ∧
    ∃ st', shimEnvBlock (inBlock 0x0F200000 12) true
        { ShimState.fresh 0x0F200000 with envp := some sampleEnvp } = .ok (some 0x0F200000, st') ∧
      EntriesRead st'.mem 0x0F200000 sampleEnvp := by
  obtain ⟨⟨st', hrun, -, hline, -⟩, st'', hrun', hentries, -⟩ :=
    @startup_serialised sampleArgv (some sampleEnvp) (.fresh 0x0F100000)
      { ShimState.fresh 0x0F200000 with envp := some sampleEnvp } true true 0x0F100000 0x0F200000
      (by decide) (by decide) (by decide) rfl rfl (by decide) (by decide) (by decide)
  exact ⟨⟨st', hrun, hline⟩, st'', hrun', hentries⟩

end Winlift

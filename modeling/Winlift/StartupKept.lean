import Winlift.HeapStore
import Winlift.StartupSpec

/-!
# What start-up leaves on the heap

The command line and the environment block are blocks of the heap the program allocates from. They are
objects like the program's own: variable 0 stands for what `GetCommandLineA` returns, variable 1 for
`GetEnvironmentStrings`, and no step of a correct program that leaves these two alone changes what is
read there (`startup_blocks_kept`).
-/

namespace Winlift
open CSem

/-! ### Filling a block writes nowhere else -/

section frame
variable {mapped : UInt32 → Bool} {a block : UInt32}

theorem store_frame {ε : Type} {m m' : Ram} {p : UInt32} {v : UInt8} (ha : mapped a = false)
    (h : (m.store mapped p v : Res ε Ram) = .ok m') : m' a = m a := by
  obtain ⟨hp, rfl⟩ := Ram.store_eq_ok.mp h
  refine Function.update_of_ne (fun heq => ?_) _ _
  rw [heq, hp] at ha
  cases ha

theorem putAll_frame {bytes : List UInt8} {c c' : Cursor} (ha : mapped a = false)
    (h : (bytes.foldlM (Cursor.put mapped block) c : Res Empty Cursor) = .ok c') : c'.mem a = c.mem a := by
  induction bytes generalizing c with
  | nil => cases h; rfl
  | cons v bytes ih =>
    rw [List.foldlM_cons] at h
    obtain ⟨c₁, hput, h⟩ := Res.bind_eq_ok.mp h
    obtain ⟨m₁, hstore, hc₁⟩ := Res.bind_eq_ok.mp hput
    cases hc₁
    rw [ih h]
    exact store_frame ha hstore

/-- A block does not reach down. -/
theorem inBlock_of_lt {p a : UInt32} {n : Nat} (hend : p.toNat + n ≤ 2 ^ 32) (ha : a.toNat < p.toNat) :
    inBlock p n a = false := by
  refine decide_eq_false ?_
  have hp := p.toNat_lt
  rw [UInt32.toNat_sub]
  omega

variable {moves : Bool} {argv : List CStr} {envp : Option (List CStr)} {st st' : ShimState}

theorem shimStartupInit_frame (hsize : blockSize argv < 2 ^ 32) (ha : mapped a = false)
    (h : shimStartupInit mapped moves argv envp st = .ok st') : st'.mem a = st.mem a := by
  have hss : ∀ s ∈ argv, s.bytes.length < 2 ^ 32 := fun s hs => Nat.lt_trans (string_lt_blockSize hs) hsize
  simp only [shimStartupInit, measure_one, Res.ok_bind] at h
  split at h
  · obtain ⟨c, hfill, h⟩ := Res.bind_eq_ok.mp h
    obtain ⟨m', hstore, h⟩ := Res.bind_eq_ok.mp h
    cases h
    rw [fillArgs_eq _ _ hss] at hfill
    exact (store_frame ha hstore).trans (putAll_frame ha hfill)
  · cases h
    rfl

theorem shimStartupInit_heap (h : shimStartupInit mapped moves argv envp st = .ok st') :
    (st'.heap, st'.cmdline) = shimHeapAlloc moves (UInt32.ofNat (blockSize argv)) st.heap := by
  simp only [shimStartupInit, measure_one, Res.ok_bind] at h
  split at h
  · obtain ⟨c, -, h⟩ := Res.bind_eq_ok.mp h
    obtain ⟨m', -, h⟩ := Res.bind_eq_ok.mp h
    cases h
    rfl
  · cases h
    rfl

/-- The block is there already, or one is asked for, and filled where it was granted. -/
theorem shimEnvBlock_eq_ok {p : Option UInt32} (h : shimEnvBlock mapped moves st = .ok (p, st')) :
    st.envBlock ≠ 0 ∧ p = some st.envBlock ∧ st' = st ∨
      st.envBlock = 0 ∧ ∃ heap block m,
        shimHeapAlloc moves (UInt32.ofNat (blockSize (st.envp.getD []))) st.heap = (heap, block) ∧
          st' = { st with heap := heap, envBlock := block, mem := m } ∧
            (p = none ∧ m = st.mem ∨ p = some block ∧ ∃ c,
              fillEnv mapped block (st.envp.getD []) ⟨0, st.mem⟩ = .ok c ∧
                (c.mem.store mapped (block + c.pos) 0 : Res Empty Ram) = .ok m) := by
  by_cases hfirst : st.envBlock = 0
  · refine .inr ⟨hfirst, ?_⟩
    rw [shimEnvBlock, if_neg (not_not.mpr hfirst)] at h
    dsimp only at h
    rw [measure_one, Res.ok_bind] at h
    split at h
    · cases h
      exact ⟨_, _, _, rfl, rfl, .inl ⟨rfl, rfl⟩⟩
    · obtain ⟨c, hfill, h⟩ := Res.bind_eq_ok.mp h
      obtain ⟨m, hstore, h⟩ := Res.bind_eq_ok.mp h
      cases h
      exact ⟨_, _, _, rfl, rfl, .inr ⟨rfl, c, hfill, hstore⟩⟩
  · rw [shimEnvBlock, if_pos hfirst] at h
    cases h
    exact .inl ⟨hfirst, rfl, rfl⟩

theorem shimEnvBlock_frame {p : Option UInt32} (hsize : blockSize (st.envp.getD []) < 2 ^ 32)
    (ha : mapped a = false) (h : shimEnvBlock mapped moves st = .ok (p, st')) : st'.mem a = st.mem a := by
  have hss : ∀ s ∈ st.envp.getD [], s.bytes.length < 2 ^ 32 := fun s hs =>
    Nat.lt_trans (string_lt_blockSize hs) hsize
  rcases shimEnvBlock_eq_ok h with ⟨-, -, rfl⟩ | ⟨-, heap, block, m, -, rfl, ⟨-, rfl⟩ | ⟨-, c, hfill, hstore⟩⟩
  · rfl
  · rfl
  · rw [fillEnv_eq _ _ hss] at hfill
    exact (store_frame ha hstore).trans (putAll_frame ha hfill)

theorem shimEnvBlock_heap {p : Option UInt32} (hfirst : st.envBlock = 0)
    (h : shimEnvBlock mapped moves st = .ok (p, st')) :
    (st'.heap, st'.envBlock) = shimHeapAlloc moves (UInt32.ofNat (blockSize (st.envp.getD []))) st.heap ∧
      ∀ q ∈ p, q = st'.envBlock := by
  rcases shimEnvBlock_eq_ok h with ⟨hne, -⟩ | ⟨-, heap, block, m, halloc, rfl, hp⟩
  · exact absurd hfirst hne
  · refine ⟨halloc.symm, fun q hq => ?_⟩
    rcases hp with ⟨rfl, -⟩ | ⟨rfl, -⟩
    · exact absurd hq (Option.not_mem_none q)
    · exact (Option.some.inj hq).symm

theorem shimEnvBlock_cmdline {p : Option UInt32} (h : shimEnvBlock mapped moves st = .ok (p, st')) :
    st'.cmdline = st.cmdline := by
  rcases shimEnvBlock_eq_ok h with ⟨-, -, rfl⟩ | ⟨-, heap, block, m, -, rfl, -⟩
  · rfl
  · rfl

end frame

/-! ### Steps that leave a variable alone -/

def AllocCall.Spares (x : Nat) : AllocCall → Prop
  | realloc p _ => p ≠ x
  | heapReAlloc _ p _ => p ≠ x
  | _ => True

/-- The step neither assigns `x` nor changes or gives up the object it points to. -/
def HeapOp.Spares (x : Nat) : HeapOp → Prop
  | .assign y call => y ≠ x ∧ call.Spares x
  | .free p => p ≠ x
  | .write p _ _ => p ≠ x
  | .read _ _ => True

section spare
variable {start : UInt32} {c c' c₀ : HeapClient} {e e₀ : Expected} {ops : List HeapOp} {x : Nat}

theorem Expected.step_spares {op : HeapOp} (h : op.Spares x) (granted : Bool) :
    (e.step granted op).objs x = e.objs x := by
  cases op with
  | assign y call =>
    have hgiven : call.given e.objs x = e.objs x := by
      cases call with
      | realloc p _ => exact Function.update_of_ne (Ne.symm h.2) _ _
      | heapReAlloc _ p _ => exact Function.update_of_ne (Ne.symm h.2) _ _
      | _ => rfl
    rw [Expected.step]
    split
    · exact (Function.update_of_ne (Ne.symm h.1) _ _).trans hgiven
    · exact Function.update_of_ne (Ne.symm h.1) _ _
  | free p => exact Function.update_of_ne (Ne.symm h) _ _
  | write p i v => exact Function.update_of_ne (Ne.symm h) _ _
  | read p i => rfl

theorem HeapClient.step_spares {op : HeapOp} {moves : Bool} (h : op.Spares x)
    (hstep : c.step start moves op = .ok c') : c'.ptr x = c.ptr x := by
  cases op with
  | assign y call =>
    obtain ⟨_, -, hstep⟩ := Res.bind_eq_ok.mp hstep
    cases hstep
    exact Function.update_of_ne (Ne.symm h.1) _ _
  | free p => cases hstep; rfl
  | write p i v =>
    obtain ⟨_, -, hstep⟩ := Res.bind_eq_ok.mp hstep
    cases hstep
    rfl
  | read p i =>
    obtain ⟨_, -, hstep⟩ := Res.bind_eq_ok.mp hstep
    cases hstep
    rfl

theorem HeapClient.Runs.spares (hrun : HeapClient.Runs start c₀ e₀ ops c e) (h : ∀ op ∈ ops, op.Spares x) :
    e.objs x = e₀.objs x ∧ c.ptr x = c₀.ptr x := by
  induction hrun with
  | refl => exact ⟨rfl, rfl⟩
  | step _ _ hstep ih =>
    obtain ⟨hobjs, hptr⟩ := ih fun op hop => h op (List.mem_append_left _ hop)
    have hop := h _ (List.mem_append_right _ (List.mem_singleton_self _))
    exact ⟨(Expected.step_spares hop _).trans hobjs, (HeapClient.step_spares hop hstep).trans hptr⟩

end spare

/-! ### Blocks of the shim -/

section blocks
variable {start n : UInt32} {h : Heap} {m m' : Ram} {moves : Bool} {block : UInt32} {bytes : List UInt8}

/-- A block that the shim has filled, writing nowhere else, and that its allocator returned. -/
theorem filled_served (hinv : HeapInv start ⟨h, []⟩) (hno : NoWrap n h)
    (hblock : (shimHeapAlloc moves n h).2 = block) (hne : block ≠ 0) (hlen : bytes.length ≤ n.toNat)
    (hframe : ∀ a, inBlock block n.toNat a = false → m' a = m a) (hholds : m'.Holds block bytes) :
    Served start h m (bytes.map some) (shimHeapAlloc moves n h).1 block m' := by
  obtain ⟨hs, -⟩ := shimHeapAlloc_served (m := m) hinv hno moves
  rw [hblock] at hs
  obtain ⟨hq, hlies⟩ := hs.object hne
  have hend := hlies.end_le
  rw [List.length_replicate] at hend
  have hbound := (shimHeapAlloc moves n h).1.init.next.toNat_lt
  refine ⟨hs.heap, hs.next_le, fun a ha => hframe a (inBlock_of_lt (by omega) (hq ▸ ha)), fun _ => ⟨hq, hne,
    hlies.lo_le, ?_, .of_holds hholds⟩⟩
  rw [List.length_map]
  omega

end blocks

/-! ### The program -/

/-- The program after start-up: variable 0 points to the command line. -/
def ShimState.client (st : ShimState) : HeapClient :=
  ⟨st.heap, st.mem, Function.update (fun _ => 0) 0 st.cmdline, []⟩

def expectedLine (argv : List CStr) : Expected :=
  ⟨Function.update (fun _ => .null) 0 (.live ((commandLine argv ++ [0]).map some)), []⟩

/-- The program after it has asked for the environment: variable 1 points to the block. -/
def HeapClient.withEnv (c : HeapClient) (st : ShimState) : HeapClient :=
  { c with heap := st.heap, ram := st.mem, ptr := Function.update c.ptr 1 st.envBlock }

def Expected.withEnv (e : Expected) (entries : List CStr) : Expected :=
  { e with objs := Function.update e.objs 1 (.live ((Ram.packed (strings entries)).map some)) }

/-- Start-up, with nothing but the block for it mapped, has put the command line at `line`. -/
structure StartedUp (start : UInt32) (argv : List CStr) (envp : Option (List CStr)) (line : UInt32)
    (st : ShimState) : Prop where
  size : blockSize argv < 2 ^ 32
  room : NoWrap (UInt32.ofNat (blockSize argv)) (ShimState.fresh start).heap
  run : ∃ moves, shimStartupInit (inBlock line (blockSize argv)) moves argv envp (.fresh start) = .ok st
  line_eq : st.cmdline = line
  ne_zero : line ≠ 0

/-- The program `c` has asked for the environment for the first time, and got the block at `block`. -/
structure EnvMade (entries : List CStr) (c : HeapClient) (st : ShimState) (block : UInt32) (st' : ShimState) :
    Prop where
  size : blockSize entries < 2 ^ 32
  room : NoWrap (UInt32.ofNat (blockSize entries)) c.heap
  run : ∃ moves, shimEnvBlock (inBlock block (blockSize entries)) moves
    { st with heap := c.heap, mem := c.ram } = .ok (some block, st')
  ne_zero : block ≠ 0

section program
variable {start line block : UInt32} {argv entries : List CStr} {envp : Option (List CStr)}
  {st st' : ShimState} {c c' : HeapClient} {e e' : Expected}

theorem StartedUp.kept (h : StartedUp start argv envp line st) : st.envp = envp ∧ st.envBlock = 0 := by
  obtain ⟨moves, hinit⟩ := h.run
  have halloc := (Prod.ext_iff.mp (shimStartupInit_heap hinit)).2.symm.trans h.line_eq
  obtain ⟨st₁, hrun, -, henvp, henvBlock, -⟩ := shimStartupInit_spec envp h.size halloc h.ne_zero
  cases hrun.symm.trans hinit
  exact ⟨henvp, henvBlock⟩

theorem StartedUp.refines (h : StartedUp start argv envp line st) :
    Refines start st.client (expectedLine argv) := by
  obtain ⟨moves, hinit⟩ := h.run
  obtain ⟨hheap, hcmdline⟩ := Prod.ext_iff.mp (shimStartupInit_heap hinit)
  dsimp only at hheap hcmdline
  have halloc := hcmdline.symm.trans h.line_eq
  obtain ⟨st₁, hrun, -, -, -, hholds⟩ := shimStartupInit_spec envp h.size halloc h.ne_zero
  cases hrun.symm.trans hinit
  have hn : (UInt32.ofNat (blockSize argv)).toNat = blockSize argv := UInt32.toNat_ofNat_of_lt' h.size
  have hlen := length_commandLine argv
  have h₀ := Refines.start start (ShimState.fresh start).mem
  have hs : Served start (ShimState.fresh start).heap (ShimState.fresh start).mem
      ((commandLine argv ++ [0]).map some) st.heap line st.mem := by
    rw [hheap]
    exact filled_served h₀.heap h.room halloc h.ne_zero (by rw [hn, List.length_append]; exact hlen)
      (fun a ha => shimStartupInit_frame h.size (hn ▸ ha) hinit) hholds
  refine ⟨hs.heap, ?_, .nil⟩
  rw [ShimState.client, h.line_eq]
  exact hs.objectsIn h.ne_zero h₀.objects 0

theorem Refines.withEnv {moves : Bool} (h : Refines start c e) (hheap : st.heap = c.heap)
    (hmem : st.mem = c.ram) (hentries : st.envp.getD [] = entries) (hfirst : st.envBlock = 0)
    (hsize : blockSize entries < 2 ^ 32) (hroom : NoWrap (UInt32.ofNat (blockSize entries)) c.heap)
    (hmade : shimEnvBlock (inBlock block (blockSize entries)) moves st = .ok (some block, st'))
    (hblock : block ≠ 0) : st'.envBlock = block ∧ Refines start (c.withEnv st') (e.withEnv entries) := by
  subst hentries
  obtain ⟨hpair, hret⟩ := shimEnvBlock_heap hfirst hmade
  obtain ⟨hheap', henvBlock⟩ := Prod.ext_iff.mp hpair
  dsimp only at hheap' henvBlock
  have hptr : block = st'.envBlock := hret block rfl
  have halloc := henvBlock.symm.trans hptr.symm
  obtain ⟨st₁, hrun, -, hholds⟩ := shimEnvBlock_spec hsize hfirst halloc hblock
  cases hrun.symm.trans hmade
  have hn : (UInt32.ofNat (blockSize (st.envp.getD []))).toNat = blockSize (st.envp.getD []) :=
    UInt32.toNat_ofNat_of_lt' hsize
  have hs : Served start c.heap c.ram ((Ram.packed (strings (st.envp.getD []))).map some) st'.heap block
      st'.mem := by
    rw [hheap', hheap]
    rw [hheap] at halloc
    refine filled_served h.heap hroom halloc hblock ?_ (fun a ha => ?_) hholds
    · rw [hn, Ram.packed, List.length_append, ← length_entries]
      rfl
    · rw [← hmem]
      exact shimEnvBlock_frame hsize (hn ▸ ha) hmade
  refine ⟨hptr.symm, hs.heap, ?_, h.reads⟩
  rw [HeapClient.withEnv, ← hptr]
  exact hs.objectsIn hblock h.objects 1

/-- An object of known bytes is in memory. -/
theorem Refines.holds (h : Refines start c e) {x : Nat} {l : List UInt8} (hx : e.objs x = .live (l.map some)) :
    c.ram.Holds (c.ptr x) l :=
  (h.objects.live x _ hx).known.holds

/-- The variables of the shim with the program's heap and memory. -/
def ShimState.after (st : ShimState) (c : HeapClient) : ShimState := { st with heap := c.heap, mem := c.ram }

/-- `GetCommandLineA` returns `line`, where the arguments are, joined by blanks. -/
structure LineKept (st : ShimState) (line : UInt32) (argv : List CStr) : Prop where
  given : Kernel32.getCommandLineA st = some line
  bytes : st.mem.Holds line (commandLine argv ++ [0])
  reads : LineReads st.mem line argv

/-- `GetEnvironmentStrings` returns `block`, where the entries are, each with its NUL, and one NUL more. -/
structure EntriesKept (st : ShimState) (block : UInt32) (entries : List CStr) : Prop where
  given : ∀ mapped moves, shimEnvBlock mapped moves st = .ok (some block, st)
  bytes : st.mem.Holds block (Ram.packed (strings entries))
  reads : EntriesRead st.mem block entries

theorem Refines.lineKept (h : Refines start c e) (hobjs : e.objs 0 = (expectedLine argv).objs 0)
    (hptr : c.ptr 0 = line) (hline : st.cmdline = line) (hne : line ≠ 0) : LineKept (st.after c) line argv := by
  have hbytes : (st.after c).mem.Holds line (commandLine argv ++ [0]) := hptr ▸ h.holds hobjs
  refine ⟨?_, hbytes, lineReads_of_holds hbytes⟩
  subst hline
  exact if_pos hne

theorem Refines.entriesKept (h : Refines start c e)
    (hobjs : e.objs 1 = .live ((Ram.packed (strings entries)).map some)) (hptr : c.ptr 1 = block)
    (hblock : st.envBlock = block) (hne : block ≠ 0) : EntriesKept (st.after c) block entries := by
  have hbytes : (st.after c).mem.Holds block (Ram.packed (strings entries)) := hptr ▸ h.holds hobjs
  refine ⟨fun mapped moves => ?_, hbytes, entriesRead_of_holds hbytes⟩
  subst hblock
  exact shimEnvBlock_again mapped moves hne

/-- Whatever the program does with the rest of the heap, the command line is kept to its end, and so is
the environment block from where it is asked for. -/
theorem startup_blocks_kept {ops : List HeapOp} (hstart : StartedUp start argv envp line st)
    (hrun : HeapClient.Runs start st.client (expectedLine argv) ops c e) (hops : ∀ op ∈ ops, op.Spares 0) :
    LineKept (st.after c) line argv ∧ ∀ block st', EnvMade (envp.getD []) c st block st' → ∀ ops' c' e',
      HeapClient.Runs start (c.withEnv st') (e.withEnv (envp.getD [])) ops' c' e' →
        (∀ op ∈ ops', op.Spares 0 ∧ op.Spares 1) →
          LineKept (st'.after c') line argv ∧ EntriesKept (st'.after c') block (envp.getD []) := by
  obtain ⟨henvp, hfirst⟩ := hstart.kept
  have hmid := hrun.refines hstart.refines
  obtain ⟨hobjs, hptr⟩ := hrun.spares hops
  have hline : c.ptr 0 = line := hptr.trans hstart.line_eq
  refine ⟨hmid.lineKept hobjs hline hstart.line_eq hstart.ne_zero, ?_⟩
  intro block st' henv ops' c' e' hrun' hops'
  obtain ⟨moves, hmade⟩ := henv.run
  have hheap : (st.after c).heap = c.heap := rfl
  obtain ⟨hblock, hmid'⟩ := hmid.withEnv hheap rfl (by rw [ShimState.after, henvp]) hfirst henv.size
    henv.room hmade henv.ne_zero
  have hend := hrun'.refines hmid'
  obtain ⟨hobjs₀, hptr₀⟩ := hrun'.spares fun op hop => (hops' op hop).1
  obtain ⟨hobjs₁, hptr₁⟩ := hrun'.spares fun op hop => (hops' op hop).2
  constructor
  · have hcmdline : st'.cmdline = line := (shimEnvBlock_cmdline hmade).trans hstart.line_eq
    exact hend.lineKept (hobjs₀.trans hobjs) (hptr₀.trans hline) hcmdline hstart.ne_zero
  · exact hend.entriesKept hobjs₁ (hptr₁.trans hblock) hblock henv.ne_zero

end program

/-- Before it asks for the environment, a program that sets a byte of a block, moves it and frees another. -/
def sampleBefore : List HeapOp :=
  [.assign 2 (.malloc 5), .write 2 0 0x41, .assign 3 (.realloc 2 24), .assign 4 (.heapAlloc 8 10), .free 4]

/-- And after it. -/
def sampleAfter : List HeapOp :=
  [.assign 5 (.calloc 3 4), .write 5 11 0x42, .assign 6 (.realloc 3 40), .write 6 39 0x43, .read 6 0, .free 5]

theorem startup_blocks_kept_sample : ∃ st st' c c' e e',
    StartedUp 0x0F100000 sampleArgv (some sampleEnvp) 0x0F100000 st ∧
      HeapClient.Runs 0x0F100000 st.client (expectedLine sampleArgv) sampleBefore c e ∧
      EnvMade sampleEnvp c st 0x0F100050 st' ∧
      HeapClient.Runs 0x0F100000 (c.withEnv st') (e.withEnv sampleEnvp) sampleAfter c' e' ∧
      c'.reads = [0x41] ∧ c'.ptr 6 = 0x0F100070 ∧
      LineKept (st'.after c') 0x0F100000 sampleArgv ∧ EntriesKept (st'.after c') 0x0F100050 sampleEnvp := by
  have hrun : (shimStartupInit (inBlock 0x0F100000 (blockSize sampleArgv)) true sampleArgv (some sampleEnvp)
      (.fresh 0x0F100000)).okAnd fun st => st.cmdline = 0x0F100000 ∧
        (HeapClient.play 0x0F100000 true sampleBefore st.client (expectedLine sampleArgv)).any fun p =>
          NoWrap (UInt32.ofNat (blockSize sampleEnvp)) p.1.heap ∧
          (shimEnvBlock (inBlock 0x0F100050 (blockSize sampleEnvp)) true
            { st with heap := p.1.heap, mem := p.1.ram }).okAnd fun q => q.1 = some 0x0F100050 ∧
              (HeapClient.play 0x0F100000 true sampleAfter (p.1.withEnv q.2) (p.2.withEnv sampleEnvp)).any fun p =>
                p.1.reads = [0x41] ∧ p.1.ptr 6 = 0x0F100070 := by decide +kernel
  obtain ⟨st, hinit, hrun⟩ := Res.okAnd_iff.mp hrun
  obtain ⟨hline, hrun⟩ := of_decide_eq_true hrun
  obtain ⟨⟨c, e⟩, hbefore, hrun⟩ := (Option.any_eq_true ..).mp hrun
  obtain ⟨hroom, hrun⟩ := of_decide_eq_true hrun
  obtain ⟨⟨block, st'⟩, hmade, hrun⟩ := Res.okAnd_iff.mp hrun
  obtain ⟨hblock, hrun⟩ := of_decide_eq_true hrun
  obtain ⟨⟨c', e'⟩, hafter, hrun⟩ := (Option.any_eq_true ..).mp hrun
  obtain ⟨hreads, hptr⟩ := of_decide_eq_true hrun
  dsimp only at hblock hmade hafter hroom
  subst hblock
  have hstart : StartedUp 0x0F100000 sampleArgv (some sampleEnvp) 0x0F100000 st :=
    ⟨by decide, by decide, ⟨true, hinit⟩, hline, by decide⟩
  have henv : EnvMade sampleEnvp c st 0x0F100050 st' := ⟨by decide, hroom, ⟨true, hmade⟩, by decide⟩
  have hruns := HeapClient.Runs.refl.play hbefore
  have hruns' := HeapClient.Runs.refl.play hafter
  refine ⟨st, st', c, c', e, e', hstart, hruns, henv, hruns', hreads, hptr, ?_⟩
  refine (startup_blocks_kept hstart hruns ?_).2 _ _ henv _ _ _ hruns' ?_
  · simp [sampleBefore, HeapOp.Spares, AllocCall.Spares]
  · simp [sampleAfter, HeapOp.Spares, AllocCall.Spares]

end Winlift

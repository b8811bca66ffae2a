import Winlift.CSem.Strings
import Winlift.ShimFormat
import Winlift.ShimHeap

/-!
# Start-up (`shim_startup.c`)

The command line is built when the program starts, the environment block when it is first asked for.
Both are measured in a first pass, and the block is filled in a second one. The strings that the kernel
passes lie on the stack, apart from the heap; their pointers take four bytes each, so the `int`s that
count them do not overflow.
-/

namespace Winlift
open CSem

/-- The variables of the shim that start-up sets, `_file` of each element of `shim_iob` among them. -/
structure ShimState where
  argc : Int
  argv : List CStr
  envp : Option (List CStr)
  iob : List Int
  cmdline : UInt32
  envBlock : UInt32
  heap : Heap
  mem : Ram

def localStrlen (s : CStr) : Res Empty UInt32 := do
  let n ← s.scan (· ≠ 0) 0
  .ok (UInt32.ofNat n)

/-- `total += local_strlen(s) + 1;` for each of the strings. -/
def measure : List CStr → UInt32 → Res Empty UInt32
  | [], total => .ok total
  | s :: rest, total => do
    let l ← localStrlen s
    measure rest (total + (l + 1))

section
variable (mapped : UInt32 → Bool) (block : UInt32)

/-- `for (j = 0; j < l; j++) block[pos++] = s[j];` -/
def fillString (s : CStr) (c : Cursor) : Res Empty Cursor := do
  let l ← localStrlen s
  s.putFrom (Cursor.put mapped block) l.toNat 0 c

/-- The second pass over `argv`, from argument `i` on. -/
def fillArgs : Nat → List CStr → Cursor → Res Empty Cursor
  | _, [], c => .ok c
  | i, s :: rest, c => do
    let c ← if 0 < i then c.put mapped block ' '.toUInt8 else .ok c
    let c ← fillString mapped block s c
    fillArgs (i + 1) rest c

/-- The second pass over the environment. -/
def fillEnv : List CStr → Cursor → Res Empty Cursor
  | [], c => .ok c
  | s :: rest, c => do
    let c ← fillString mapped block s c
    let c ← c.put mapped block 0
    fillEnv rest c

end

/-- `shim_env_block`: the block and the state afterwards. Where there is no memory for a block the
string literal `""` is returned (`none`). -/
def shimEnvBlock (mapped : UInt32 → Bool) (moves : Bool) (st : ShimState) :
    Res Empty (Option UInt32 × ShimState) :=
  if st.envBlock ≠ 0 then .ok (some st.envBlock, st)
  else do
    let entries := st.envp.getD []
    let total ← measure entries 1
    let (heap, block) := shimHeapAlloc moves total st.heap
    let st := { st with heap := heap, envBlock := block }
    if block = 0 then .ok (none, st)
    else do
      let c ← fillEnv mapped block entries ⟨0, st.mem⟩
      let mem ← c.mem.store mapped (block + c.pos) 0
      .ok (some block, { st with mem := mem })

/-- `shim_startup_init`. The kernel passes the length of `argv` as `argc`. -/
def shimStartupInit (mapped : UInt32 → Bool) (moves : Bool) (argv : List CStr)
    (envp : Option (List CStr)) (st : ShimState) : Res Empty ShimState := do
  let st := { st with argc := argv.length, argv := argv, envp := envp }
  let iob := List.replicate shimIobCount.toNat (-1)
  let st := { st with iob := ((iob.set 0 0).set 1 1).set 2 2 }
  let total ← measure argv 1
  let (heap, block) := shimHeapAlloc moves total st.heap
  let st := { st with heap := heap, cmdline := block }
  if block ≠ 0 then do
    let c ← fillArgs mapped block 0 argv ⟨0, st.mem⟩
    let mem ← c.mem.store mapped (block + c.pos) 0
    .ok { st with mem := mem }
  else .ok st

/-- `shim_GetCommandLineA`; `none` is the string literal `""`. -/
def Kernel32.getCommandLineA (st : ShimState) : Option UInt32 :=
  if st.cmdline ≠ 0 then some st.cmdline else none

end Winlift

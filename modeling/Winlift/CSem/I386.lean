import Mathlib.Data.List.Pairwise
import Winlift.CSem.Strings

/-!
# A few instructions of the i386

Enough of the machine to run hand-written code: moves, `lea`, the stack, calls and jumps, and `int`, which
ends a run because what happens then is up to the kernel (`Outcome.trap`). `step` takes the instruction
from a `fetch`. `decodeAt` is the one that reads the bytes in memory, and a `Listing` says what is fetched as
long as the code is intact: what the bytes of the code disassemble to (`exists_listing`). None of the
instructions reads a flag, so there are none.
-/

namespace CSem

/-! ### Words in memory -/

namespace Ram
variable {mapped : UInt32 → Bool} {m m' : Ram} {a b : UInt32} {v : UInt32}

def Mapped (mapped : UInt32 → Bool) (a : UInt32) (n : Nat) : Prop := ∀ k < n, mapped (a + UInt32.ofNat k) = true

instance (mapped : UInt32 → Bool) (a : UInt32) (n : Nat) : Decidable (Mapped mapped a n) :=
  inferInstanceAs (Decidable (∀ k < n, _))

def word (m : Ram) (a : UInt32) : UInt32 := ofLe32 (m a) (m (a + 1)) (m (a + 2)) (m (a + 3))

def load32 (mapped : UInt32 → Bool) (m : Ram) (a : UInt32) : Option UInt32 :=
  if Mapped mapped a 4 then some (m.word a) else none

def store32 (mapped : UInt32 → Bool) (m : Ram) (a v : UInt32) : Option Ram :=
  if Mapped mapped a 4 then some fun b => if inBlock a 4 b then leByte v (b - a).toNat else m b
  else none

theorem word_of_holds (h : m.Holds a (le32Bytes v)) : m.word a = v := by
  have hbyte : ∀ k (hk : k < 4), m (a + UInt32.ofNat k) = (le32Bytes v)[k] := h
  have h₀ : m a = leByte v 0 := (congrArg m (UInt32.add_zero a).symm).trans (hbyte 0 (by omega))
  have h₁ : m (a + 1) = leByte v 1 := hbyte 1 (by omega)
  have h₂ : m (a + 2) = leByte v 2 := hbyte 2 (by omega)
  have h₃ : m (a + 3) = leByte v 3 := hbyte 3 (by omega)
  rw [word, h₀, h₁, h₂, h₃, ofLe32_leByte]

theorem load32_of_holds (hmap : Mapped mapped a 4) (h : m.Holds a (le32Bytes v)) :
    load32 mapped m a = some v := by
  rw [load32, if_pos hmap, word_of_holds h]

/-- A word can be stored wherever it is mapped; it stands there, and the rest is kept. -/
theorem exists_store32 (hmap : Mapped mapped a 4) (m : Ram) (v : UInt32) : ∃ m',
    store32 mapped m a v = some m' ∧ m'.Holds a (le32Bytes v) ∧ ∀ b, inBlock a 4 b = false → m' b = m b := by
  refine ⟨_, if_pos hmap, fun k hk => ?_, fun b hb => ?_⟩
  · have hk4 : k < 4 := hk
    have hsub : a + UInt32.ofNat k - a = UInt32.ofNat k := by rw [UInt32.add_comm, UInt32.add_sub_cancel]
    show (if inBlock a 4 (a + UInt32.ofNat k) = true then _ else _) = _
    rw [if_pos (inBlock_add hk4 (by omega)), hsub, UInt32.toNat_ofNat_of_lt' (show k < 2 ^ 32 by omega),
      getElem_le32Bytes]
  · show (if inBlock a 4 b = true then _ else m b) = m b
    rw [hb]
    rfl

theorem Holds.congr {l : List UInt8} (h : m.Holds a l)
    (hm : ∀ k < l.length, m' (a + UInt32.ofNat k) = m (a + UInt32.ofNat k)) : m'.Holds a l := by
  intro k hk
  rw [hm k hk, h k hk]

end Ram

namespace I386

inductive Reg
  | eax | ecx | edx | ebx | esp | ebp | esi | edi
deriving DecidableEq, Repr

/-- `disp(base,index,scale)`. -/
structure Operand where
  disp : UInt32
  base : Option Reg := none
  index : Option Reg := none
  scale : UInt32 := 1
deriving DecidableEq, Repr

inductive Instr
  | movImm (d : Reg) (v : UInt32)
  | mov (d : Reg) (src : Operand)
  | lea (d : Reg) (src : Operand)
  | xor (d s : Reg)
  | add (d : Reg) (v : UInt32)
  | push (s : Reg)
  | call (target : UInt32)
  | callMem (src : Operand)
  | jmp (s : Reg)
  | int (n : UInt8)
deriving DecidableEq, Repr

def Instr.isInt : Instr → Bool
  | int _ => true
  | _ => false

structure Machine where
  reg : Reg → UInt32
  eip : UInt32
  mem : Ram

/-- What a step or a run comes to. -/
inductive Outcome
  | running (m : Machine)
  | trap (n : UInt8) (m : Machine)
  | stuck

namespace Machine

def set (m : Machine) (d : Reg) (v : UInt32) : Machine := { m with reg := Function.update m.reg d v }

def goto (m : Machine) (a : UInt32) : Machine := { m with eip := a }

def addr (m : Machine) (o : Operand) : UInt32 :=
  o.disp + o.base.elim 0 m.reg + o.index.elim 0 m.reg * o.scale

section
variable {m : Machine} {d r : Reg} {v a : UInt32}

@[simp] theorem set_reg_self : (m.set d v).reg d = v := Function.update_self ..
@[simp] theorem set_reg_of_ne (h : r ≠ d) : (m.set d v).reg r = m.reg r := Function.update_of_ne h ..
@[simp] theorem set_eip : (m.set d v).eip = m.eip := rfl
@[simp] theorem set_mem : (m.set d v).mem = m.mem := rfl
@[simp] theorem goto_reg : (m.goto a).reg = m.reg := rfl
@[simp] theorem goto_eip : (m.goto a).eip = a := rfl
@[simp] theorem goto_mem : (m.goto a).mem = m.mem := rfl

@[simp] theorem addr_disp : m.addr { disp := v } = v := by
  simp [addr]

end

variable (mapped : UInt32 → Bool)

def push (m : Machine) (v : UInt32) : Option Machine := do
  let mem ← m.mem.store32 mapped (m.reg .esp - 4) v
  some { m.set .esp (m.reg .esp - 4) with mem := mem }

/-- The instruction's effect; `eip` is behind it already. -/
def exec (m : Machine) : Instr → Option Machine
  | .movImm d v => some (m.set d v)
  | .mov d src => do
    let v ← m.mem.load32 mapped (m.addr src)
    some (m.set d v)
  | .lea d src => some (m.set d (m.addr src))
  | .xor d s => some (m.set d (m.reg d ^^^ m.reg s))
  | .add d v => some (m.set d (m.reg d + v))
  | .push s => m.push mapped (m.reg s)
  | .call target => do
    let m ← m.push mapped m.eip
    some (m.goto target)
  | .callMem src => do
    let target ← m.mem.load32 mapped (m.addr src)
    let m ← m.push mapped m.eip
    some (m.goto target)
  | .jmp s => some (m.goto (m.reg s))
  | .int _ => some m

/-- An instruction and its length. -/
abbrev Fetch := Machine → Option (Instr × UInt32)

def step (fetch : Fetch) (m : Machine) : Outcome :=
  match fetch m with
  | none => .stuck
  | some (i, len) =>
    match (m.goto (m.eip + len)).exec mapped i, i with
    | none, _ => .stuck
    | some m, .int n => .trap n m
    | some m, _ => .running m

def run (fetch : Fetch) : Nat → Machine → Outcome
  | 0, m => .running m
  | n + 1, m =>
    match step mapped fetch m with
    | .running m => run fetch n m
    | o => o

end Machine

open Machine

section
variable {mapped : UInt32 → Bool} {fetch : Fetch} {m m' m'' : Machine} {i : Instr} {len : UInt32}

theorem step_running (hi : i.isInt = false) (hfetch : fetch m = some (i, len))
    (hexec : (m.goto (m.eip + len)).exec mapped i = some m') : step mapped fetch m = .running m' := by
  rw [step, hfetch]
  dsimp only
  rw [hexec]
  cases i with
  | int n => cases hi
  | _ => rfl

theorem step_int {n : UInt8} (hfetch : fetch m = some (.int n, len)) :
    step mapped fetch m = .trap n (m.goto (m.eip + len)) := by
  rw [step, hfetch]
  rfl

theorem run_succ {n : Nat} (h : step mapped fetch m = .running m') :
    run mapped fetch (n + 1) m = run mapped fetch n m' := by
  rw [run, h]

theorem run_add {n k : Nat} (h : run mapped fetch n m = .running m') :
    run mapped fetch (n + k) m = run mapped fetch k m' := by
  induction n generalizing m with
  | zero =>
    cases h
    rw [Nat.zero_add]
  | succ n ih =>
    rw [run] at h
    rw [Nat.add_right_comm, run]
    cases hstep : step mapped fetch m with
    | running m₁ =>
      rw [hstep] at h
      exact ih h
    | trap n m₁ =>
      rw [hstep] at h
      cases h
    | stuck =>
      rw [hstep] at h
      cases h

theorem step_jmp {s : Reg} (hfetch : fetch m = some (.jmp s, len)) :
    step mapped fetch m = .running ((m.goto (m.eip + len)).goto (m.reg s)) :=
  step_running rfl hfetch rfl

/-- The register `d` has been set to `v`. -/
structure Assigned (m m' : Machine) (d : Reg) (v : UInt32) : Prop where
  reg : m'.reg d = v
  regs : ∀ r, r ≠ d → m'.reg r = m.reg r
  mem : m'.mem = m.mem

theorem step_assign {d : Reg} {v : UInt32} (hi : i.isInt = false) (hfetch : fetch m = some (i, len))
    (hexec : (m.goto (m.eip + len)).exec mapped i = some ((m.goto (m.eip + len)).set d v)) :
    ∃ m', step mapped fetch m = .running m' ∧ m'.eip = m.eip + len ∧ Assigned m m' d v :=
  ⟨_, step_running hi hfetch hexec, rfl, set_reg_self, fun _ => set_reg_of_ne, rfl⟩

theorem step_xor {d s : Reg} (hfetch : fetch m = some (.xor d s, len)) : ∃ m',
    step mapped fetch m = .running m' ∧ m'.eip = m.eip + len ∧ Assigned m m' d (m.reg d ^^^ m.reg s) :=
  step_assign rfl hfetch rfl

theorem step_lea {d : Reg} {src : Operand} (hfetch : fetch m = some (.lea d src, len)) : ∃ m',
    step mapped fetch m = .running m' ∧ m'.eip = m.eip + len ∧ Assigned m m' d (m.addr src) :=
  step_assign rfl hfetch rfl

theorem step_movImm {d : Reg} {v : UInt32} (hfetch : fetch m = some (.movImm d v, len)) : ∃ m',
    step mapped fetch m = .running m' ∧ m'.eip = m.eip + len ∧ Assigned m m' d v :=
  step_assign rfl hfetch rfl

theorem step_add {d : Reg} {v : UInt32} (hfetch : fetch m = some (.add d v, len)) : ∃ m',
    step mapped fetch m = .running m' ∧ m'.eip = m.eip + len ∧ Assigned m m' d (m.reg d + v) :=
  step_assign rfl hfetch rfl

theorem step_mov {d : Reg} {src : Operand} {v : UInt32} (hfetch : fetch m = some (.mov d src, len))
    (hload : m.mem.load32 mapped (m.addr src) = some v) : ∃ m',
    step mapped fetch m = .running m' ∧ m'.eip = m.eip + len ∧ Assigned m m' d v := by
  refine step_assign rfl hfetch ?_
  show (m.mem.load32 mapped (m.addr src)).bind _ = _
  rw [hload]
  rfl

/-- The word `v` has been pushed: it stands before what was on the stack. -/
structure Pushed (m m' : Machine) (v : UInt32) : Prop where
  esp : m'.reg .esp = m.reg .esp - 4
  regs : ∀ r, r ≠ .esp → m'.reg r = m.reg r
  stack : ∀ l, m.mem.Holds (m.reg .esp) l → l.length + 4 ≤ 2 ^ 32 →
    m'.mem.Holds (m'.reg .esp) (le32Bytes v ++ l)
  others : ∀ b, inBlock (m.reg .esp - 4) 4 b = false → m'.mem b = m.mem b

theorem exists_push (hmap : Ram.Mapped mapped (m.reg .esp - 4) 4) (v : UInt32) :
    ∃ m', m.push mapped v = some m' ∧ m'.eip = m.eip ∧ Pushed m m' v := by
  obtain ⟨mem, hmem, hnew, hold⟩ := Ram.exists_store32 hmap m.mem v
  refine ⟨{ m.set .esp (m.reg .esp - 4) with mem := mem }, by rw [push, hmem]; rfl, rfl, rfl,
    fun r hr => set_reg_of_ne hr, fun l hl hlen => ?_, hold⟩
  refine Ram.holds_append.mpr ⟨hnew, ?_⟩
  have hback : m.reg .esp - 4 + UInt32.ofNat (le32Bytes v).length = m.reg .esp := UInt32.sub_add_cancel ..
  show mem.Holds (m.reg .esp - 4 + UInt32.ofNat (le32Bytes v).length) l
  rw [hback]
  refine hl.congr fun k hk => hold _ ?_
  have hsub : m.reg .esp + UInt32.ofNat k - (m.reg .esp - 4) = UInt32.ofNat (k + 4) := by
    rw [UInt32.ofNat_add]
    show m.reg .esp + UInt32.ofNat k - (m.reg .esp - 4) = UInt32.ofNat k + 4
    grind
  rw [inBlock, hsub, UInt32.toNat_ofNat_of_lt' (show k + 4 < 2 ^ 32 by omega)]
  exact decide_eq_false (by omega)

theorem step_push {s : Reg} (hfetch : fetch m = some (.push s, len))
    (hmap : Ram.Mapped mapped (m.reg .esp - 4) 4) :
    ∃ m', step mapped fetch m = .running m' ∧ m'.eip = m.eip + len ∧ Pushed m m' (m.reg s) := by
  obtain ⟨m', hm', heip, hpush⟩ := @exists_push mapped (m.goto (m.eip + len)) hmap (m.reg s)
  exact ⟨m', step_running rfl hfetch hm', heip, ⟨hpush.esp, hpush.regs, hpush.stack, hpush.others⟩⟩

theorem step_call {target : UInt32} (hfetch : fetch m = some (.call target, len))
    (hmap : Ram.Mapped mapped (m.reg .esp - 4) 4) :
    ∃ m', step mapped fetch m = .running m' ∧ m'.eip = target ∧ Pushed m m' (m.eip + len) := by
  obtain ⟨m', hm', -, hpush⟩ := @exists_push mapped (m.goto (m.eip + len)) hmap (m.eip + len)
  refine ⟨m'.goto target, step_running rfl hfetch ?_, rfl, ⟨hpush.esp, hpush.regs, hpush.stack, hpush.others⟩⟩
  show ((m.goto (m.eip + len)).push mapped (m.eip + len)).bind _ = _
  rw [hm']
  rfl

theorem step_callMem {src : Operand} {target : UInt32} (hfetch : fetch m = some (.callMem src, len))
    (hload : m.mem.load32 mapped (m.addr src) = some target)
    (hmap : Ram.Mapped mapped (m.reg .esp - 4) 4) :
    ∃ m', step mapped fetch m = .running m' ∧ m'.eip = target ∧ Pushed m m' (m.eip + len) := by
  obtain ⟨m', hm', -, hpush⟩ := @exists_push mapped (m.goto (m.eip + len)) hmap (m.eip + len)
  refine ⟨m'.goto target, step_running rfl hfetch ?_, rfl, ⟨hpush.esp, hpush.regs, hpush.stack, hpush.others⟩⟩
  show (m.mem.load32 mapped (m.addr src)).bind (fun t =>
    ((m.goto (m.eip + len)).push mapped (m.eip + len)).bind fun m => some (m.goto t)) = _
  rw [hload]
  show ((m.goto (m.eip + len)).push mapped (m.eip + len)).bind _ = _
  rw [hm']
  rfl

end

/-! ### Code -/

/-- Where `C` holds of the memory, the instructions `is` are fetched from `a` on, of whatever length each, up
to `a'`. -/
def Listing (fetch : Fetch) (C : Ram → Prop) : UInt32 → List Instr → UInt32 → Prop
  | a, [], a' => a = a'
  | a, i :: is, a' => ∃ len, (∀ m, m.eip = a → C m.mem → fetch m = some (i, len)) ∧ Listing fetch C (a + len) is a'

theorem Listing.mono {fetch : Fetch} {C C' : Ram → Prop} (hC : ∀ m, C' m → C m) {a a' : UInt32} {is : List Instr}
    (h : Listing fetch C a is a') : Listing fetch C' a is a' := by
  induction is generalizing a with
  | nil => exact h
  | cons i is ih =>
    obtain ⟨len, hi, hrest⟩ := h
    exact ⟨len, fun m hm hm' => hi m hm (hC _ hm'), ih hrest⟩

/-- How instructions are encoded: an opcode, and `operand` bytes behind it. `instr` takes the address of the
next instruction and those bytes. -/
structure Encoding where
  opcode : List UInt8
  operand : Nat
  instr : UInt32 → List UInt8 → Instr

def Encoding.length (e : Encoding) : Nat := e.opcode.length + e.operand

def imm32 : List UInt8 → UInt32
  | [b₀, b₁, b₂, b₃] => ofLe32 b₀ b₁ b₂ b₃
  | _ => 0

def imm8 : List UInt8 → UInt8
  | [b] => b
  | _ => 0

/-- A signed byte as a word. -/
def disp8 (l : List UInt8) : UInt32 := ⟨(imm8 l).toBitVec.signExtend 32⟩

/-- Those that occur, with the ModRM and SIB bytes counted to the opcode. -/
def encodings : List Encoding := [
  ⟨[0xB8], 4, fun _ l => .movImm .eax (imm32 l)⟩,
  ⟨[0xBB], 4, fun _ l => .movImm .ebx (imm32 l)⟩,
  ⟨[0xA1], 4, fun _ l => .mov .eax { disp := imm32 l }⟩,
  ⟨[0x8B, 0x04, 0x24], 0, fun _ _ => .mov .eax { disp := 0, base := some .esp }⟩,
  ⟨[0x8D, 0x5C, 0x24], 1, fun _ l => .lea .ebx { disp := disp8 l, base := some .esp }⟩,
  ⟨[0x8D, 0x4C, 0x83], 1, fun _ l =>
    .lea .ecx { disp := disp8 l, base := some .ebx, index := some .eax, scale := 4 }⟩,
  ⟨[0x31, 0xED], 0, fun _ _ => .xor .ebp .ebp⟩,
  ⟨[0x83, 0xC4], 1, fun _ l => .add .esp (disp8 l)⟩,
  ⟨[0x50], 0, fun _ _ => .push .eax⟩,
  ⟨[0x51], 0, fun _ _ => .push .ecx⟩,
  ⟨[0x53], 0, fun _ _ => .push .ebx⟩,
  ⟨[0xE8], 4, fun next l => .call (next + imm32 l)⟩,
  ⟨[0xFF, 0x15], 4, fun _ l => .callMem { disp := imm32 l }⟩,
  ⟨[0xFF, 0xE0], 0, fun _ _ => .jmp .eax⟩,
  ⟨[0xCD], 1, fun _ l => .int (imm8 l)⟩]

/-- The first `n` bytes. -/
def bytesOf (byte : Nat → UInt8) (n : Nat) : List UInt8 := (List.range n).map byte

/-- The bytes begin with the opcode. -/
def Encoding.Matches (byte : Nat → UInt8) (e : Encoding) : Prop := bytesOf byte e.opcode.length = e.opcode

instance (byte : Nat → UInt8) : DecidablePred (Encoding.Matches byte) := fun _ => inferInstanceAs (Decidable (_ = _))

/-- The instruction at the address `a` and its length, from the bytes there. -/
def decode (a : UInt32) (byte : Nat → UInt8) : Option (Instr × Nat) :=
  (encodings.find? fun e => e.Matches byte).map fun e =>
    (e.instr (a + UInt32.ofNat e.length) ((bytesOf byte e.length).drop e.opcode.length), e.length)

def decodeAt (mapped : UInt32 → Bool) (m : Machine) : Option (Instr × UInt32) := do
  let (i, n) ← decode m.eip fun k => m.mem (m.eip + UInt32.ofNat k)
  if Ram.Mapped mapped m.eip n then some (i, UInt32.ofNat n) else none

/-- What `n` instructions the bytes `l`, at `a`, are. -/
def disassemble : UInt32 → Nat → List UInt8 → Option (List Instr)
  | _, 0, _ => some []
  | a, n + 1, l => do
    let (i, k) ← decode a fun j => l.getD j 0
    if k ≤ l.length then
      let is ← disassemble (a + UInt32.ofNat k) n (l.drop k)
      some (i :: is)
    else none

/-- No opcode begins another. -/
theorem encodings_apart : encodings.Pairwise fun e e' => ¬ e.opcode <+: e'.opcode ∧ ¬ e'.opcode <+: e.opcode := by
  decide

section
variable {byte byte' : Nat → UInt8} {a : UInt32} {e e' : Encoding}

theorem take_bytesOf {n k : Nat} (h : k ≤ n) : (bytesOf byte n).take k = bytesOf byte k := by
  rw [bytesOf, bytesOf, ← List.map_take, List.take_range, Nat.min_eq_left h]

theorem bytesOf_prefix {n k : Nat} (h : k ≤ n) : bytesOf byte k <+: bytesOf byte n :=
  take_bytesOf h ▸ List.take_prefix ..

theorem bytesOf_congr {n : Nat} (h : ∀ k < n, byte' k = byte k) : bytesOf byte' n = bytesOf byte n :=
  List.map_congr_left fun k hk => h k (List.mem_range.mp hk)

/-- The bytes have the opcode of one encoding at most. -/
theorem encoding_unique (he : e ∈ encodings) (he' : e' ∈ encodings)
    (h : e.Matches byte) (h' : e'.Matches byte) : e = e' := by
  by_contra hne
  have hsymm : Std.Symm fun e e' : Encoding => ¬ e.opcode <+: e'.opcode ∧ ¬ e'.opcode <+: e.opcode :=
    ⟨fun _ _ h => h.symm⟩
  rw [Encoding.Matches] at h h'
  obtain ⟨hleft, hright⟩ := encodings_apart.forall he he' hne
  rcases Nat.le_total e.opcode.length e'.opcode.length with hle | hle
  · exact hleft (h ▸ h' ▸ bytesOf_prefix hle)
  · exact hright (h ▸ h' ▸ bytesOf_prefix hle)

theorem find?_matches (he : e ∈ encodings) (h : e.Matches byte) :
    (encodings.find? fun e => e.Matches byte) = some e := by
  obtain ⟨e', he'⟩ : ∃ e', (encodings.find? fun e => e.Matches byte) = some e' := by
    rw [← Option.isSome_iff_exists, List.find?_isSome]
    exact ⟨e, he, decide_eq_true h⟩
  rw [he', encoding_unique he (List.mem_of_find?_eq_some he') h (of_decide_eq_true (List.find?_some he' :))]

/-- Only the bytes of the instruction are looked at. -/
theorem decode_congr {i : Instr} {n : Nat} (h : decode a byte = some (i, n)) (hbytes : ∀ k < n, byte' k = byte k) :
    decode a byte' = some (i, n) := by
  obtain ⟨e, he, heq⟩ := Option.map_eq_some_iff.mp h
  cases heq
  have hmatch : e.Matches byte := of_decide_eq_true (List.find?_some he :)
  have hmatch' : e.Matches byte' := by
    rw [Encoding.Matches, bytesOf_congr fun k hk => hbytes k (Nat.lt_of_lt_of_le hk (Nat.le_add_right ..))]
    exact hmatch
  rw [decode, find?_matches (List.mem_of_find?_eq_some he) hmatch', Option.map_some, bytesOf_congr hbytes]

end

section
variable {mapped : UInt32 → Bool} {m : Machine} {l : List UInt8}

theorem decodeAt_of_decode {i : Instr} {n : Nat} (hmap : Ram.Mapped mapped m.eip n)
    (h : decode m.eip (fun k => m.mem (m.eip + UInt32.ofNat k)) = some (i, n)) :
    decodeAt mapped m = some (i, UInt32.ofNat n) := by
  show (decode _ _).bind _ = _
  rw [h]
  exact if_pos hmap

/-- The instruction that the bytes `l` begin with. -/
theorem decodeAt_of_holds {i : Instr} {n : Nat} (h : decode m.eip (fun k => l.getD k 0) = some (i, n))
    (hn : n ≤ l.length) (hmap : Ram.Mapped mapped m.eip l.length) (hl : m.mem.Holds m.eip l) :
    decodeAt mapped m = some (i, UInt32.ofNat n) := by
  refine decodeAt_of_decode (fun k hk => hmap k (Nat.lt_of_lt_of_le hk hn)) (decode_congr h fun k hk => ?_)
  have hk : k < l.length := Nat.lt_of_lt_of_le hk hn
  rw [hl k hk, List.getD_eq_getElem?_getD, List.getElem?_eq_getElem hk, Option.getD_some]

/-- Code in memory, as far as it can be disassembled. -/
theorem exists_listing {a : UInt32} {n : Nat} {is : List Instr} (h : disassemble a n l = some is)
    (hmap : Ram.Mapped mapped a l.length) :
    ∃ a', Listing (decodeAt mapped) (fun mem => mem.Holds a l) a is a' := by
  induction n generalizing a l is with
  | zero =>
    cases h
    exact ⟨a, rfl⟩
  | succ n ih =>
    obtain ⟨⟨i, k⟩, hi, h⟩ := Option.bind_eq_some_iff.mp h
    dsimp only at h
    split_ifs at h with hk
    obtain ⟨is, his, h⟩ := Option.bind_eq_some_iff.mp h
    cases h
    have hsplit : l.take k ++ l.drop k = l := List.take_append_drop k l
    have hlen : (l.take k).length = k := List.length_take_of_le hk
    obtain ⟨a', hrest⟩ := ih his fun j hj => by
      rw [List.length_drop] at hj
      rw [UInt32.add_assoc, ← UInt32.ofNat_add]
      exact hmap (k + j) (by omega)
    refine ⟨a', UInt32.ofNat k, fun m hm hl => ?_, hrest.mono fun mem hl => ?_⟩
    · subst hm
      exact decodeAt_of_holds hi hk hmap hl
    · rw [← hsplit, Ram.holds_append, hlen] at hl
      exact hl.2

/-! One instruction. -/

theorem imm32_le32Bytes (v : UInt32) : imm32 (le32Bytes v) = v := ofLe32_leByte v

theorem decodeAt_movImm_eax {v : UInt32} (hmap : Ram.Mapped mapped m.eip 5)
    (h : m.mem.Holds m.eip ([0xB8] ++ le32Bytes v)) : decodeAt mapped m = some (.movImm .eax v, 5) := by
  have hdecode : decode m.eip (fun k => ([0xB8] ++ le32Bytes v).getD k 0) =
    some (.movImm .eax (imm32 (le32Bytes v)), 5) := rfl
  rw [imm32_le32Bytes] at hdecode
  exact decodeAt_of_holds hdecode (Nat.le_refl _) hmap h

theorem decodeAt_movImm_ebx {v : UInt32} (hmap : Ram.Mapped mapped m.eip 5)
    (h : m.mem.Holds m.eip ([0xBB] ++ le32Bytes v)) : decodeAt mapped m = some (.movImm .ebx v, 5) := by
  have hdecode : decode m.eip (fun k => ([0xBB] ++ le32Bytes v).getD k 0) =
    some (.movImm .ebx (imm32 (le32Bytes v)), 5) := rfl
  rw [imm32_le32Bytes] at hdecode
  exact decodeAt_of_holds hdecode (Nat.le_refl _) hmap h

theorem decodeAt_int {n : UInt8} (hmap : Ram.Mapped mapped m.eip 2) (h : m.mem.Holds m.eip [0xCD, n]) :
    decodeAt mapped m = some (.int n, 2) := by
  have hdecode : decode m.eip (fun k => [0xCD, n].getD k 0) = some (.int n, 2) := rfl
  exact decodeAt_of_holds hdecode (Nat.le_refl _) hmap h

theorem decodeAt_callMem {v : UInt32} (hmap : Ram.Mapped mapped m.eip 6)
    (h : m.mem.Holds m.eip ([0xFF, 0x15] ++ le32Bytes v)) :
    decodeAt mapped m = some (.callMem { disp := v }, 6) := by
  have hdecode : decode m.eip (fun k => ([0xFF, 0x15] ++ le32Bytes v).getD k 0) =
    some (.callMem { disp := imm32 (le32Bytes v) }, 6) := rfl
  rw [imm32_le32Bytes] at hdecode
  exact decodeAt_of_holds hdecode (Nat.le_refl _) hmap h

end

end I386

end CSem

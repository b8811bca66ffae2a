import Winlift.CSem.CStr
import Winlift.CSem.Loop
import Winlift.CSem.Memory
import Winlift.CSem.WriteLoop
import Winlift.Diagnostics

/-!
# The formatter (`shim_startup.c`)

`shim_vformat` puts characters out one by one, through `out_char`. Everything above that is generic in
what a character is put into (`put`), so that the same code runs on a bounded buffer (`outChar`) and on
a list that takes everything (`collect`).

On i386 every argument takes one 4-byte slot: `va_arg` at `int`, `long` or a pointer type reads the
next one, and the `l` modifiers make no difference.
-/

namespace Winlift
open CSem

/-- The arguments left of the call: their slots, and the string an address points to. -/
structure VaList where
  slot : Nat → UInt32
  str : UInt32 → CStr

/-! ### Output -/

/-- The buffer and `*pos`. -/
structure Out where
  pos : UInt32
  buf : Buffer

def outChar (bufcap : UInt32) (o : Out) (c : UInt8) : Res Empty Out :=
  if o.pos < bufcap then do
    let buf ← store8 o.buf o.pos.toNat c
    .ok ⟨o.pos + 1, buf⟩
  else .ok { o with pos := o.pos + 1 }

/-- A list takes every character. -/
def collect (o : List UInt8) (c : UInt8) : Res Empty (List UInt8) := .ok (o ++ [c])

section
variable {σ : Type} (put : σ → UInt8 → Res Empty σ)

def outStr (o : σ) (s : CStr) : Res Empty σ := s.bytes.foldlM put o

def digits (upper : Bool) : List UInt8 :=
  if upper then cBytes "0123456789ABCDEF" else cBytes "0123456789abcdef"

/-- `while (v > 0) { tmp[n++] = digits[v % base]; v /= base; }`, with `room` elements of `tmp` left. -/
def uintDigits (base : UInt32) (upper : Bool) : Nat → UInt32 → List UInt8 → Res Empty (List UInt8)
  | 0, v, tmp => if v = 0 then .ok tmp else .fault .outsideStore
  | room + 1, v, tmp =>
    if v = 0 then .ok tmp
    else
      match (digits upper)[(v % base).toNat]? with
      | none => .fault .outsideRead
      | some c => uintDigits base upper room (v / base) (tmp ++ [c])

def outUint (o : σ) (v base : UInt32) (upper : Bool) : Res Empty σ := do
  let tmp ← if v = 0 then .ok ['0'.toUInt8] else uintDigits base upper 32 v []
  tmp.reverse.foldlM put o

def outInt (o : σ) (v : UInt32) : Res Empty σ :=
  if int32 v.toNat < 0 then do
    let o ← put o '-'.toUInt8
    -- the most negative value is its own negation
    outUint put o (-v) 10 false
  else outUint put o v 10 false

end

/-! ### Conversions -/

/-- The labels of the `switch`, but for NUL. -/
inductive Conv where
  | d | i | u | x | X | p | c | s | percent
deriving DecidableEq, Repr

namespace Conv

def label : Conv → UInt8
  | d => 'd'.toUInt8
  | i => 'i'.toUInt8
  | u => 'u'.toUInt8
  | x => 'x'.toUInt8
  | X => 'X'.toUInt8
  | p => 'p'.toUInt8
  | c => 'c'.toUInt8
  | s => 's'.toUInt8
  | percent => '%'.toUInt8

def all : List Conv := [d, i, u, x, X, p, c, s, percent]

def ofLabel (b : UInt8) : Option Conv := all.find? fun k => k.label = b

/-- How many arguments the case takes. -/
def args : Conv → Nat
  | percent => 0
  | _ => 1

/-- What the case does, `v` being the argument. -/
def out {σ : Type} (put : σ → UInt8 → Res Empty σ) (str : UInt32 → CStr) (v : UInt32) (o : σ) :
    Conv → Res Empty σ
  | d | i => outInt put o v
  | u => outUint put o v 10 false
  | x => outUint put o v 16 false
  | X => outUint put o v 16 true
  | p => do
    let o ← outStr put o ⟨cBytes "0x", by decide⟩
    outUint put o v 16 false
  | c => put o v.toUInt8
  | s => outStr put o (if v = 0 then ⟨cBytes "(null)", by decide⟩ else str v)
  | percent => put o '%'.toUInt8

end Conv

/-! ### `shim_vformat` -/

/-- The scanner's position in the format, the arguments taken so far, and the output. -/
structure FormatState (σ : Type) where
  p : Nat
  arg : Nat
  out : σ

def isLong (c : UInt8) : Bool := c = 'l'.toUInt8

def isFlag (c : UInt8) : Bool :=
  c = '-'.toUInt8 ∨ c = '0'.toUInt8 ∨ '1'.toUInt8 ≤ c ∧ c ≤ '9'.toUInt8

section
variable {σ : Type} (put : σ → UInt8 → Res Empty σ) (fmt : CStr) (va : VaList)

/-- One pass of the loop. -/
def vformatStep (s : FormatState σ) : Res Empty (Step (FormatState σ) (FormatState σ)) := do
  let c ← fmt.read s.p
  if c = 0 then .ok (.done s)
  else if c ≠ '%'.toUInt8 then do
    let o ← put s.out c
    .ok (.more ⟨s.p + 1, s.arg, o⟩)
  else do
    let p ← fmt.scan isLong (s.p + 1)
    let p ← fmt.scan isFlag p
    let c ← fmt.read p
    match Conv.ofLabel c with
    | some k => do
      let o ← k.out put va.str (va.slot s.arg) s.out
      .ok (.more ⟨p + 1, s.arg + k.args, o⟩)
    | none =>
      -- a stray `%` at the end: `p--`, and the `p++` of the loop
      if c = 0 then .ok (.more ⟨p - 1 + 1, s.arg, s.out⟩)
      else do
        let o ← put s.out '%'.toUInt8
        let o ← put o c
        .ok (.more ⟨p + 1, s.arg, o⟩)

/-- The loop: an iteration for every character at most, and one for the NUL. -/
def vformatLoop (o : σ) : Res Empty (FormatState σ) :=
  loop (vformatStep put fmt va) (fmt.bytes.length + 1) ⟨0, 0, o⟩

end

/-- `shim_vformat`: the result and the buffer. -/
def shimVformat (bufcap : UInt32) (fmt : CStr) (va : VaList) (buf : Buffer) : Res Empty (Int × Buffer) := do
  let s ← vformatLoop (outChar bufcap) fmt va ⟨0, buf⟩
  let buf ←
    if 0 < bufcap then
      store8 s.out.buf (if s.out.pos < bufcap then s.out.pos else bufcap - 1).toNat 0
    else .ok s.out.buf
  .ok (int32 s.out.pos.toNat, buf)

/-! ### `shim_msvcrt_vfprintf` -/

def shimIobCount : UInt32 := 20

/-- `sizeof(shim_iobuf_t)`. -/
def shimIobSize : UInt32 := 32

/-- `shim_iob_to_fd`, the array `shim_iob` being at `iob`. -/
def shimIobToFd (iob stream : UInt32) : Int :=
  if iob ≤ stream ∧ stream < iob + shimIobCount * shimIobSize then
    let idx := (stream - iob) / shimIobSize
    if idx = 0 then 0
    else if idx = 2 then 2
    else 1
  else 1

/-- The result and the calls of `write` that took bytes; `stack` is what `buf` holds at first. -/
def Msvcrt.vfprintf (w : WriteCalls) (fuel : Nat) (iob stream : UInt32) (fmt : CStr) (va : VaList)
    (stack : Nat → UInt8) : Res Empty (Int × List Taken) := do
  let (len, buf) ← shimVformat 1024 fmt va ⟨1024, stack⟩
  let fd := shimIobToFd iob stream
  let n : UInt32 := if len < 0 then 0 else UInt32.ofInt len
  let n := if 1024 - 1 < n then 1024 - 1 else n
  let s ← writeAll w fuel fd (fun i => buf.byte i.toNat) n
  .ok (int32 s.done.toNat, s.calls)

end Winlift

import Winlift.CSem.Descriptors
import Winlift.FormatSpec
import Winlift.ShimStartup
import Winlift.ShimWriteFile

/-!
# Files and output (`shim_kernel32.c`, `shim_msvcrt.c`, `shim_user32.c`)

Every function of the shim that opens, closes, reads or writes, and those that only hand out a handle or
the last error. `IoCall.run` is one call of the program, `ShimIo.Step` the same with the table of
descriptors that the kernel keeps.
-/

namespace Winlift
open CSem

def invalidHandleValue : UInt32 := 0xFFFFFFFF

/-- How a call ends: its result, what it stored behind the pointer to a count, the bytes it put into the
buffer, `g_last_error`, and the system calls that had an effect. -/
structure IoEnd where
  ret : UInt32
  stored : Option UInt32
  data : List UInt8
  lastError : UInt32
  events : List Event

/-! ### `shim_kernel32.c` -/

section
variable (a : Answers)

/-- `shim_GetStdHandle`. -/
def Kernel32.getStdHandle (which : UInt32) : UInt32 :=
  let which := int32 which.toNat
  if which = -10 then 1
  else if which = -11 then 2
  else if which = -12 then 3
  else invalidHandleValue

/-- `posix_flags`. -/
def posixFlags (access disposition : UInt32) : UInt32 :=
  let rw : UInt32 :=
    if access &&& 0x40000000 ≠ 0 then if access &&& 0x80000000 ≠ 0 then 2 else 1 else 0
  let flags : UInt32 :=
    if disposition = 1 then 0x40 ||| 0x80
    else if disposition = 2 then 0x40 ||| 0x200
    else if disposition = 3 then 0
    else if disposition = 4 then 0x40
    else if disposition = 5 then 0x200
    else 0
  flags ||| if rw = 2 then 2 else if rw = 1 then 1 else 0

/-- `shim_CreateFileA`, without the parameters it ignores. -/
def Kernel32.createFileA (path : CStr) (access disposition lastError : UInt32) : IoEnd :=
  let flags := posixFlags access disposition
  let fd := a.opens
  if fd < 0 then ⟨invalidHandleValue, none, [], 2, []⟩
  else ⟨UInt32.ofInt (fd + 1), none, [], lastError, [.opened fd path flags 0o644]⟩

/-- `shim_CloseHandle`. -/
def Kernel32.closeHandle (h lastError : UInt32) : IoEnd :=
  let fd := int32 h.toNat - 1
  if fd = 0 ∨ fd = 1 ∨ fd = 2 then ⟨1, none, [], lastError, []⟩
  else ⟨1, none, [], lastError, if 2 < fd then [.closed fd] else []⟩

/-- `shim_ReadFile`; `nreadGiven` says whether `nread` is not null. -/
def Kernel32.readFile (h n : UInt32) (nreadGiven : Bool) (overlapped lastError : UInt32) : IoEnd :=
  if overlapped ≠ 0 then ⟨0, none, [], 87, []⟩
  else
    let fd := int32 h.toNat - 1
    if fd < 0 then ⟨0, none, [], 6, []⟩
    else
      match a.input fd n with
      | none => ⟨0, if nreadGiven then some 0 else none, [], lastError, []⟩
      | some bytes =>
        ⟨1, if nreadGiven then some (UInt32.ofNat bytes.length) else none, bytes, lastError,
          [.gave fd bytes]⟩

end

/-! ### `shim_msvcrt.c` -/

/-- `shim_msvcrt_fwrite`: the result and the calls of `write` that took bytes. -/
def Msvcrt.fwrite (w : WriteCalls) (fuel : Nat) (iob : UInt32) (ptr : UInt32 → UInt8)
    (size nmemb stream : UInt32) : Res Empty (UInt32 × List Taken) := do
  let total := size * nmemb
  let fd := shimIobToFd iob stream
  let s ← writeAll w fuel fd ptr total
  .ok (if size ≠ 0 then s.done / size else 0, s.calls)

/-! ### `shim_user32.c` -/

/-- `ulen`, of a string or a null pointer. -/
def ulen : Option CStr → Res Empty UInt32
  | none => .ok 0
  | some s => do
    let n ← s.scan (· ≠ 0) 0
    .ok (UInt32.ofNat n)

theorem cBytes_null_no_nul : (0 : UInt8) ∉ cBytes "(null)" := by decide

def nullText : CStr := ⟨cBytes "(null)", cBytes_null_no_nul⟩

/-- `write_str`. -/
def writeStr (w : WriteCalls) (fuel : Nat) (s : Option CStr) : Res Empty (List Taken) := do
  let s := s.getD nullText
  let n ← ulen (some s)
  let e ← writeAll w fuel 1 (fun i => s.bytes.getD i.toNat 0) n
  .ok e.calls

/-- The strings that `shim_MessageBoxA` writes. -/
def messageBoxTexts (text caption : Option CStr) : List (Option CStr) :=
  [some ⟨cBytes "[MessageBoxA] ", by decide⟩, caption, some ⟨cBytes ": ", by decide⟩, text,
    some ⟨cBytes "\n", by decide⟩]

/-- One `write_str` behind the other; the loop in call `k` of them has the results `writes k`. -/
def writeStrs (writes : Nat → WriteCalls) (fuel : Nat) : Nat → List (Option CStr) →
    Res Empty (List Taken)
  | _, [] => .ok []
  | k, s :: rest => do
    let calls ← writeStr (writes k) fuel s
    let more ← writeStrs writes fuel (k + 1) rest
    .ok (calls ++ more)

/-- `shim_MessageBoxA`: IDOK, and the calls of `write`. -/
def User32.messageBoxA (writes : Nat → WriteCalls) (fuel : Nat) (text caption : Option CStr) :
    Res Empty (UInt32 × List Taken) := do
  let calls ← writeStrs writes fuel 0 (messageBoxTexts text caption)
  .ok (1, calls)

/-! ### The program's calls -/

inductive IoCall where
  | createFileA (path : CStr) (access disposition : UInt32)
  | closeHandle (h : UInt32)
  | readFile (h n : UInt32) (nreadGiven : Bool) (overlapped : UInt32)
  | writeFile (h : UInt32) (buf : UInt32 → UInt8) (n : UInt32) (writtenGiven : Bool) (overlapped : UInt32)
  | getStdHandle (which : UInt32)
  | getLastError
  | setLastError (code : UInt32)
  | vfprintf (stream : UInt32) (fmt : CStr) (va : VaList) (stack : Nat → UInt8)
  | fwrite (ptr : UInt32 → UInt8) (size nmemb stream : UInt32)
  | messageBoxA (text caption : Option CStr)

/-- What the program gets back. -/
structure Reply where
  ret : UInt32
  stored : Option UInt32
  data : List UInt8
deriving DecidableEq, Repr

def IoEnd.reply (e : IoEnd) : Reply := ⟨e.ret, e.stored, e.data⟩

/-- A call of the program, `shim_iob` being at `iob`. -/
def IoCall.run (iob : UInt32) (fuel : Nat) (a : Answers) (lastError : UInt32) : IoCall → Res Empty IoEnd
  | createFileA path access disposition =>
    .ok (Kernel32.createFileA a path access disposition lastError)
  | closeHandle h => .ok (Kernel32.closeHandle h lastError)
  | readFile h n nreadGiven overlapped =>
    .ok (Kernel32.readFile a h n nreadGiven overlapped lastError)
  | writeFile h buf n writtenGiven overlapped => do
    let w := a.writes (int32 h.toNat - 1) 0
    let e ← Kernel32.writeFile w fuel h buf n writtenGiven overlapped lastError
    .ok ⟨UInt32.ofInt e.ret, e.written, [], e.lastError, e.calls.map .took⟩
  | getStdHandle which => .ok ⟨Kernel32.getStdHandle which, none, [], lastError, []⟩
  | getLastError => .ok ⟨lastError, none, [], lastError, []⟩
  | setLastError code => .ok ⟨0, none, [], code, []⟩
  | vfprintf stream fmt va stack => do
    let w := a.writes (shimIobToFd iob stream) 0
    let (r, calls) ← Msvcrt.vfprintf w fuel iob stream fmt va stack
    .ok ⟨UInt32.ofInt r, none, [], lastError, calls.map .took⟩
  | fwrite ptr size nmemb stream => do
    let w := a.writes (shimIobToFd iob stream) 0
    let (r, calls) ← Msvcrt.fwrite w fuel iob ptr size nmemb stream
    .ok ⟨r, none, [], lastError, calls.map .took⟩
  | messageBoxA text caption => do
    let (r, calls) ← User32.messageBoxA (a.writes 1) fuel text caption
    .ok ⟨r, none, [], lastError, calls.map .took⟩

/-- What the language asks of a call: handles that one can be taken from, strings that lie in the address
space, and a text whose length is an `int`. -/
def IoCall.Defined : IoCall → Prop
  | closeHandle h => h ≠ 0x80000000
  | readFile h _ _ _ => h ≠ 0x80000000
  | writeFile h _ _ _ _ => h ≠ 0x80000000
  | vfprintf _ fmt va _ => (rendering fmt va).length < 2 ^ 31
  | messageBoxA text caption => ∀ s, some s ∈ [text, caption] → s.bytes.length < 2 ^ 32
  | _ => True

/-- The descriptors and `g_last_error`. -/
structure ShimIo where
  fds : Descriptors
  lastError : UInt32

/-- A call with its reply, whatever a kernel that keeps to the rules answers. -/
def ShimIo.Step (iob : UInt32) (fuel : Nat) (full : Prop) (s : ShimIo) (l : IoCall × Reply)
    (s' : ShimIo) : Prop :=
  l.1.Defined ∧ ∃ a e, a.Lawful full s.fds ∧ l.1.run iob fuel a s.lastError = .ok e ∧
    l.2 = e.reply ∧ s' = ⟨s.fds.afterAll e.events, e.lastError⟩

end Winlift

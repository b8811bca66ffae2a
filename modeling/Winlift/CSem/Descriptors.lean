import Mathlib.Logic.Function.Basic
import Winlift.CSem.CStr
import Winlift.CSem.WriteLoop

/-!
# Descriptors

The table of a process's open files. An `Event` is a system call that had an effect, and `after` the
table behind it. `Answers` is what the kernel would answer to the calls that one operation makes;
`Answers.Lawful` says what it keeps to: a descriptor that it hands out was not open, and nothing is
sent to or got from a descriptor that is not.
-/

namespace CSem

/-- How a file is opened. -/
structure OpenMode where
  reads : Bool
  writes : Bool
  creates : Bool
  exclusive : Bool
  truncates : Bool
deriving DecidableEq, Repr

/-- `O_RDONLY`, `O_WRONLY` and `O_RDWR` in the lowest two bits, then `O_CREAT`, `O_EXCL` and
`O_TRUNC`. -/
def OpenMode.ofFlags (flags : UInt32) : OpenMode where
  reads := flags &&& 3 = 0 ∨ flags &&& 3 = 2
  writes := flags &&& 3 = 1 ∨ flags &&& 3 = 2
  creates := flags &&& 0x40 ≠ 0
  exclusive := flags &&& 0x80 ≠ 0
  truncates := flags &&& 0x200 ≠ 0

/-- An open file: what was opened and how, and what went through the descriptor since then. -/
structure Stream where
  path : CStr
  mode : OpenMode
  sent : List UInt8
  received : List UInt8
deriving DecidableEq

namespace Stream

def opened (path : CStr) (mode : OpenMode) : Stream := ⟨path, mode, [], []⟩

def send (bytes : List UInt8) (s : Stream) : Stream := { s with sent := s.sent ++ bytes }

def receive (bytes : List UInt8) (s : Stream) : Stream := { s with received := s.received ++ bytes }

@[simp] theorem send_nil (s : Stream) : s.send [] = s := by simp [send]

theorem send_append (a b : List UInt8) (s : Stream) : s.send (a ++ b) = (s.send a).send b := by
  simp [send]

end Stream

abbrev Descriptors := Int → Option Stream

inductive Event where
  | opened (fd : Int) (path : CStr) (flags perm : UInt32)
  | closed (fd : Int)
  | took (call : Taken)
  | gave (fd : Int) (bytes : List UInt8)
deriving DecidableEq

namespace Descriptors

/-- The bytes go to the file behind the descriptor, if there is one. -/
def send (t : Descriptors) (fd : Int) (bytes : List UInt8) : Descriptors :=
  Function.update t fd ((t fd).map (·.send bytes))

def receive (t : Descriptors) (fd : Int) (bytes : List UInt8) : Descriptors :=
  Function.update t fd ((t fd).map (·.receive bytes))

def after (t : Descriptors) : Event → Descriptors
  | .opened fd path flags _ => Function.update t fd (some (.opened path (.ofFlags flags)))
  | .closed fd => Function.update t fd none
  | .took call => t.send call.fd call.bytes
  | .gave fd bytes => t.receive fd bytes

def afterAll (t : Descriptors) (events : List Event) : Descriptors := events.foldl after t

variable {t : Descriptors} {fd : Int}

@[simp] theorem send_nil : t.send fd [] = t := by
  rw [send, Function.update_eq_self_iff]
  cases t fd <;> simp

theorem send_append (a b : List UInt8) : t.send fd (a ++ b) = (t.send fd a).send fd b := by
  simp only [send, Function.update_self, Function.update_idem, Option.map_map]
  congr 1
  exact Option.map_congr fun s _ => s.send_append a b

@[simp] theorem afterAll_nil : t.afterAll [] = t := rfl

@[simp] theorem afterAll_singleton (e : Event) : t.afterAll [e] = t.after e := rfl

theorem afterAll_append (a b : List Event) : t.afterAll (a ++ b) = (t.afterAll a).afterAll b :=
  List.foldl_append ..

/-- Calls that go to one descriptor, one behind the other. -/
theorem afterAll_took {calls : List Taken} (h : ∀ c ∈ calls, c.fd = fd) :
    t.afterAll (calls.map .took) = t.send fd (sent calls) := by
  induction calls generalizing t with
  | nil => simp [sent]
  | cons c calls ih =>
    rw [List.forall_mem_cons] at h
    have hrest := ih (t := t.send fd c.bytes) h.2
    rw [← send_append] at hrest
    rw [List.map_cons, afterAll, List.foldl_cons, after, h.1]
    exact hrest

end Descriptors

/-! ### The kernel's answers -/

/-- The result of `open`, the bytes that a `read` gives or `none` when it fails, and the results of the
calls of `write`, for each of the loops of the operation. -/
structure Answers where
  opens : Int
  input : Int → UInt32 → Option (List UInt8)
  writes : Int → Nat → WriteCalls

/-- `full`: an open descriptor never refuses while bytes are left. -/
structure Answers.Lawful (full : Prop) (t : Descriptors) (a : Answers) : Prop where
  opens_new : 0 ≤ a.opens → t a.opens = none ∧ a.opens < 2 ^ 31 - 1
  input_open : ∀ fd n bytes, a.input fd n = some bytes → t fd ≠ none ∧ bytes.length ≤ n.toNat
  writes_open : ∀ fd i k n, t fd = none → (a.writes fd i).result k n ≤ 0
  writes_full : full → ∀ fd i n, t fd ≠ none → (a.writes fd i).TakesAll n

end CSem

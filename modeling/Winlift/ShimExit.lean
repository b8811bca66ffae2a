import Winlift.CSem.Stack
import Winlift.CSem.Word

/-!
# Exit callbacks (`shim_startup.c`, `shim_msvcrt.c`, `shim_kernel32.c`)

The program registers callbacks and drains their list with `_cexit`, `exit` and `ExitProcess`; a
callback is program code again, and may do all of that too. `exitStep` is one step of the program and
the shim together: the calls of `shim_run_atexit` that have not returned yet are stacked in `drains`,
and `running` says whether program code is running or the loop of the innermost of them.
-/

namespace Winlift
open CSem

/-- `MAX_ATEXIT`. -/
def maxAtexit : Nat := 32

/-- `atexit_fns` and `atexit_count`. A function is its address. -/
structure AtexitList where
  fns : Nat → UInt32
  count : Nat

/-- The list from its end, which is taken first. -/
def AtexitList.pending (l : AtexitList) : List UInt32 := (List.range l.count).reverse.map l.fns

def shimOnexitRegister (fn : UInt32) (l : AtexitList) : AtexitList :=
  if l.count < maxAtexit then ⟨Function.update l.fns l.count fn, l.count + 1⟩ else l

/-- The list, and what is returned. -/
def Msvcrt.atexit (fn : UInt32) (l : AtexitList) : AtexitList × Int := (shimOnexitRegister fn l, 0)

def Msvcrt.onexit (fn : UInt32) (l : AtexitList) : AtexitList × UInt32 := (shimOnexitRegister fn l, fn)

/-- Who called `shim_run_atexit`, and is returned to. -/
inductive Drain where
  | cexit
  | exit (code : Int)
deriving DecidableEq, Repr

structure ExitState where
  list : AtexitList
  drains : List Drain
  running : Bool
  exited : Option Int

def ExitState.start : ExitState := ⟨⟨fun _ => 0, 0⟩, [], true, none⟩

/-- What happens next: the program calls one of the shim's functions or returns from a callback, or the
innermost drain goes on. -/
inductive ExitAct where
  | atexit (fn : UInt32)
  | onexit (fn : UInt32)
  | cexit
  | exit (code : Int)
  | exitProcess (code : UInt32)
  | ret
  | drain
deriving DecidableEq, Repr

/-- A registration is a push, an element taken off the list (and called, unless it is null) a pop, and a
drain that completes observes that the list is empty. -/
abbrev ExitEvent := StackEvent UInt32

/-- One iteration of `shim_run_atexit`, or what follows the last. -/
def drainStep (s : ExitState) (d : Drain) (ds : List Drain) : ExitState × List ExitEvent :=
  if 0 < s.list.count then
    let count := s.list.count - 1
    let fn := s.list.fns count
    ({ s with list := ⟨s.list.fns, count⟩, running := fn ≠ 0 }, [.pop fn])
  else
    match d with
    | .cexit => ({ s with drains := ds, running := true }, [.empty])
    | .exit code => ({ s with drains := ds, exited := some code }, [.empty])

def exitStep (s : ExitState) (a : ExitAct) : Option (ExitState × List ExitEvent) :=
  if s.exited ≠ none then none
  else
    match s.running, s.drains, a with
    | true, _, .atexit fn => some ({ s with list := (Msvcrt.atexit fn s.list).1 }, [.push fn])
    | true, _, .onexit fn => some ({ s with list := (Msvcrt.onexit fn s.list).1 }, [.push fn])
    | true, ds, .cexit => some ({ s with drains := .cexit :: ds, running := false }, [])
    | true, ds, .exit code => some ({ s with drains := .exit code :: ds, running := false }, [])
    | true, ds, .exitProcess code =>
      some ({ s with drains := .exit (int32 code.toNat) :: ds, running := false }, [])
    | true, _ :: _, .ret => some ({ s with running := false }, [])
    | false, d :: ds, .drain => some (drainStep s d ds)
    | _, _, _ => none

/-- The runs from `s₀`, with their events. -/
inductive ExitRun (s₀ : ExitState) : List ExitEvent → ExitState → Prop
  | nil : ExitRun s₀ [] s₀
  | snoc {tr es : List ExitEvent} {s s' : ExitState} {a : ExitAct} :
      ExitRun s₀ tr s → exitStep s a = some (s', es) → ExitRun s₀ (tr ++ es) s'

end Winlift

import Winlift.PeReader
import Winlift.StubPatch

/-!
# The command line tool (`main.c`)
-/

namespace Winlift
open CSem

structure Host where
  alloc : Alloc
  readFile : String → FileRead
  stdio : Stdio
  blob : Buffer

structure Args where
  dump : Bool
  input : Option String
  output : Option String

/-- The argument loop; `none` is a usage error. -/
def parseArgs : List String → Args → Option Args
  | [], args => some args
  | arg :: rest, args =>
    if arg = "--dump" then parseArgs rest { args with dump := true }
    else if arg = "-o" then
      match rest with
      | [] => none
      | out :: rest => parseArgs rest { args with output := some out }
    else if args.input = none then parseArgs rest { args with input := some arg }
    else none

inductive Status where
  | exited (code : Nat)
  | fault (f : Fault)
  | timeout
deriving DecidableEq, Repr

/-- How a run ends, and the path it opened for writing, if it opened one. -/
structure MainRun where
  status : Status
  opened : Option String
deriving DecidableEq, Repr

/-- Going on with a value; an error is printed and ends the run with status 1. -/
def withResult {ε α : Type} (r : Res ε α) (next : α → MainRun) : MainRun :=
  match r with
  | .ok a => next a
  | .err _ => ⟨.exited 1, none⟩
  | .fault f => ⟨.fault f, none⟩
  | .timeout => ⟨.timeout, none⟩

def convert (alloc : Alloc) (blob : Buffer) (img : PeImage) : Res String StubPatched := do
  let spec ← peLayoutToElfSpec img
  stubPatchApply alloc.shimCopy blob img spec

def writeOutput (io : Stdio) (output : String) (r : StubPatched) : MainRun :=
  let run := elfWrite io r.mem r.spec
  let opened := if run.opened then some output else none
  match run.result with
  | .ok _ => ⟨.exited 0, opened⟩
  | .err _ => ⟨.exited 1, opened⟩
  | .fault f => ⟨.fault f, opened⟩
  | .timeout => ⟨.timeout, opened⟩

def loadFile (host : Host) (fuel : Nat) (path : String) : Res PeError PeImage := do
  let raw ← readWholeFile host.alloc path (host.readFile path)
  peImageLoad host.alloc fuel raw

/-- `main`, on the arguments after the program's name. In dump mode the image is printed and nothing
is written. -/
def winlift (host : Host) (fuel : Nat) (argv : List String) : MainRun :=
  match parseArgs argv ⟨false, none, none⟩ with
  | none => ⟨.exited 2, none⟩
  | some args =>
    match args.input with
    | none => ⟨.exited 2, none⟩
    | some input =>
      withResult (loadFile host fuel input) fun img =>
        if args.dump then ⟨.exited 0, none⟩
        else
          match args.output with
          | none => ⟨.exited 2, none⟩
          | some output =>
            -- the mutable copy of the raw bytes
            if host.alloc.rawCopy img.raw.size = false then ⟨.exited 1, none⟩
            else withResult (convert host.alloc host.blob img) fun r =>
              writeOutput host.stdio output r

end Winlift

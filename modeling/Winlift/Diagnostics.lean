/-!
# Reject reasons and error reporting (`diagnostics.h`, `diagnostics.c`)

Error texts are built as the `printf` formats of the source build them, and cut off where
`snprintf` cuts them off.
-/

namespace Winlift

inductive PeRejectReason where
  | ok
  | errOpen
  | truncated
  | badDosMagic
  | badNtSignature
  | notI386
  | isDll
  | notExecutable
  | pe32Plus
  | badOpthdrMagic
  | unsupportedSubsystem
  | hasDotnet
  | tlsCallbacks
  | delayImports
  | forwardedImport
  | unsupportedDll
  | unsupportedFunc
  | malformed
  | imagebaseConflict
  | tooManySections
deriving DecidableEq, Repr

structure PeError where
  reason : PeRejectReason
  message : String
deriving DecidableEq, Repr

/-- What `snprintf(buf, cap, …)` leaves in `buf`. -/
def snprintf (cap : Nat) (text : String) : String := String.ofList (text.toList.take (cap - 1))

def peErrorSet (reason : PeRejectReason) (text : String) : PeError := ⟨reason, snprintf 256 text⟩

def hexPad (width n : Nat) : String :=
  let digits := Nat.toDigits 16 n
  String.ofList (List.replicate (width - digits.length) '0' ++ digits)

/-- A C string as `%s` prints it. -/
def cText (s : List UInt8) : String := String.ofList (s.map fun b => Char.ofNat b.toNat)

def cBytes (s : String) : List UInt8 := s.toList.map fun c => UInt8.ofNat c.toNat

end Winlift

import Winlift.CSem.WriteLoop

/-!
# `WriteFile` (`shim_kernel32.c`)

A handle is a descriptor plus one. The retry loop leaves when everything is written and when a call of
`write` fails, and `WriteFile` returns 1 after both: `writeFile_reports_iff` says when that is right.
-/

namespace Winlift
open CSem

/-- How a call ends: its result, `g_last_error`, what it stored to `*written`, and the calls of `write`
that took bytes. -/
structure WriteFileEnd where
  ret : Int
  lastError : UInt32
  written : Option UInt32
  calls : List Taken
deriving DecidableEq, Repr

/-- `shim_WriteFile`; `writtenGiven` says whether `written` is not null. -/
def Kernel32.writeFile (w : WriteCalls) (fuel : Nat) (h : UInt32) (buf : UInt32 → UInt8) (n : UInt32)
    (writtenGiven : Bool) (overlapped lastError : UInt32) : Res Empty WriteFileEnd :=
  if overlapped ≠ 0 then .ok ⟨0, 87, none, []⟩
  else
    let fd := int32 h.toNat - 1
    if fd < 0 then .ok ⟨0, 6, none, []⟩
    else do
      let s ← writeAll w fuel fd buf n
      .ok ⟨1, lastError, if writtenGiven then some s.done else none, s.calls⟩

/-- What `WriteFile` promises: the descriptor behind the handle got a prefix of the buffer, the count is
its length, and success is reported iff it is the whole buffer. -/
structure WriteReported (h : UInt32) (buf : UInt32 → UInt8) (n : UInt32) (writtenGiven : Bool)
    (e : WriteFileEnd) : Prop where
  fd : ∀ c ∈ e.calls, c.fd = int32 h.toNat - 1
  sent : sent e.calls = bytesFrom buf 0 (sent e.calls).length
  le_size : (CSem.sent e.calls).length ≤ n.toNat
  written : e.written = if writtenGiven then some (UInt32.ofNat (CSem.sent e.calls).length) else none
  success : e.ret ≠ 0 ↔ (CSem.sent e.calls).length = n.toNat

section
variable {w : WriteCalls} {fuel : Nat} {h : UInt32} {buf : UInt32 → UInt8} {n : UInt32}
  {writtenGiven : Bool} {lastError : UInt32}

/-- On a valid handle every call returns, and it reports what it did iff `write` never refuses while
bytes are left. -/
theorem writeFile_reports_iff (hh : 0 < int32 h.toNat) (hfuel : n.toNat < fuel) :
    ∃ e, Kernel32.writeFile w fuel h buf n writtenGiven 0 lastError = .ok e ∧
      (WriteReported h buf n writtenGiven e ↔ w.TakesAll n) := by
  obtain ⟨s, hs⟩ : ∃ s, (writeAll w fuel (int32 h.toNat - 1) buf n : Res Empty WriteState) = .ok s :=
    exists_writeAll hfuel
  obtain ⟨hle, hfd, hsent, hall⟩ := writeAll_spec hs
  have hlen : (sent s.calls).length = s.done.toNat := by rw [hsent, length_bytesFrom]
  refine ⟨⟨1, lastError, if writtenGiven then some s.done else none, s.calls⟩, ?_, ?_⟩
  · rw [Kernel32.writeFile, if_neg (by simp), if_neg (by omega), hs, Res.ok_bind]
  · rw [← hall, ← UInt32.toNat_inj, ← hlen]
    constructor
    · intro hrep
      exact hrep.success.mp (by simp)
    · intro hdone
      exact ⟨hfd, by rw [hlen]; exact hsent, hdone.le, by simp [hlen], by simp [hdone]⟩

end

/-- The first call takes three bytes, the second up to 100. -/
def shortFirst : WriteCalls := .upTo (fun k => if k = 0 then 3 else 100) fun k => by split <;> decide

theorem writeFile_reports_shortFirst : ∃ e,
    Kernel32.writeFile shortFirst 17 2 UInt32.toUInt8 16 true 0 0 = .ok e ∧ e.calls.length = 2 ∧
      WriteReported 2 UInt32.toUInt8 16 true e := by
  have hrun : ((Kernel32.writeFile shortFirst 17 2 UInt32.toUInt8 16 true 0 0).okAnd fun e =>
    e.calls.length = 2) = true := by decide
  obtain ⟨e, he, hiff⟩ := writeFile_reports_iff (w := shortFirst) (n := 16) (h := 2) (by decide)
    (show _ < 17 by decide)
  obtain ⟨e', he', hend⟩ := Res.okAnd_iff.mp hrun
  cases he.symm.trans he'
  have hpos : ∀ k : Nat, (0 : Int) < if k = 0 then 3 else 100 := fun k => by split <;> decide
  exact ⟨e, he, of_decide_eq_true hend, hiff.mpr (WriteCalls.upTo_takesAll 16 hpos)⟩

/-- Every call fails, as on a full disk. -/
def noSpace : WriteCalls := .upTo (fun _ => -28) fun _ => by decide

theorem writeFile_hides_failure : ¬ ∀ (w : WriteCalls) (fuel : Nat) (h : UInt32) (buf : UInt32 → UInt8)
    (n : UInt32) (writtenGiven : Bool) (lastError : UInt32), 0 < int32 h.toNat → n.toNat < fuel →
      ∃ e, Kernel32.writeFile w fuel h buf n writtenGiven 0 lastError = .ok e ∧
        WriteReported h buf n writtenGiven e := by
  intro h
  obtain ⟨e, he, hrep⟩ := h noSpace 17 2 UInt32.toUInt8 16 true 0 (by decide) (by decide)
  have hrun : ((Kernel32.writeFile noSpace 17 2 UInt32.toUInt8 16 true 0 0).okAnd fun e =>
    e.ret = 1 ∧ e.calls = []) = true := by decide
  obtain ⟨e', he', hend⟩ := Res.okAnd_iff.mp hrun
  cases he.symm.trans he'
  obtain ⟨hret, hcalls⟩ := of_decide_eq_true hend
  have hlen := hrep.success.mp (by rw [hret]; decide)
  rw [hcalls] at hlen
  cases hlen

end Winlift

import Winlift.CSem.Rights
import Winlift.CSem.Word

/-!
# `VirtualProtect` (`shim_kernel32.c`)
-/

namespace Winlift
open CSem

/-- `PROT_READ`, `PROT_WRITE` and `PROT_EXEC`. -/
def protAccess (prot : UInt32) : Access := ⟨prot &&& 1 ≠ 0, prot &&& 2 ≠ 0, prot &&& 4 ≠ 0⟩

/-- The system call, which rounds the length up to pages, and returns 0 iff it has done what it was asked. -/
def Mprotect (policy : AccessPolicy) (m : Rights) (addr len prot : UInt32) (r : Int) (m' : Rights) : Prop :=
  Protects policy m
    ⟨⟨addr.toNat, addr.toNat + roundUp len.toNat 0x1000⟩, protAccess prot, decide (r = 0)⟩ m'

namespace Kernel32

/-- A call; `wantsOld` says that `oldprot` is not null. -/
structure ProtectCall where
  addr : UInt32
  size : UInt32
  newprot : UInt32
  wantsOld : Bool

/-- What it returns, and what it stores at `oldprot`. -/
structure ProtectReply where
  ret : UInt32
  oldprot : Option UInt32

def posixProt (newprot : UInt32) : UInt32 :=
  let page := newprot &&& 0xFF
  if page = 0x01 then 0
  else if page = 0x02 then 1
  else if page = 0x04 then 1 ||| 2
  else if page = 0x10 then 4
  else if page = 0x20 then 4 ||| 1
  else if page = 0x40 then 4 ||| 1 ||| 2
  else 1 ||| 2

namespace ProtectCall
variable (c : ProtectCall)

def page : UInt32 := c.addr &&& ~~~0xFFF

def len : UInt32 :=
  let extra := c.addr - c.page
  (c.size + extra + 0xFFF) &&& ~~~0xFFF

end ProtectCall

/-- `shim_VirtualProtect` after `mprotect(page, len, prot)` has returned `r`. -/
def virtualProtect (c : ProtectCall) (r : Int) : ProtectReply where
  ret := if r = 0 then 1 else 0
  oldprot := if c.wantsOld then some 0x04 else none

/-- A call and its reply. -/
def ProtectStep (policy : AccessPolicy) (m : Rights) (call : ProtectCall × ProtectReply) (m' : Rights) :
    Prop :=
  ∃ r, Mprotect policy m call.1.page call.1.len (posixProt call.1.newprot) r m' ∧
    call.2 = virtualProtect call.1 r

end Kernel32

end Winlift

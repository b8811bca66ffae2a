import Winlift.CSem.Ram

/-!
# The shim's heap (`shim_startup.c`)

A bump allocator over `brk`, in the 32-bit address space of the converted program: `char *` and
`unsigned long` are `UInt32`. The kernel decides at every call whether it moves the break. A run of the
shim has no error to return, only faults.
-/

namespace Winlift
open CSem

/-- `heap_next`, `heap_limit` and the kernel's program break. -/
structure Heap where
  next : UInt32
  limit : UInt32
  brk : UInt32
deriving DecidableEq, Repr

/-- The `brk` system call: it returns the break, moved to `addr` or not. Address 0 only asks. -/
def sysBrk (moves : Bool) (addr brk : UInt32) : UInt32 := if moves ∧ addr ≠ 0 then addr else brk

/-- `(size + 15UL) & ~15UL`, or 16 for 0. -/
def heapRound (size : UInt32) : UInt32 :=
  let size := (size + 15) &&& ~~~15
  if size = 0 then 16 else size

/-- The first call takes the break for both ends of the heap. -/
def Heap.init (h : Heap) : Heap :=
  if h.next = 0 then { h with next := h.brk, limit := h.brk } else h

def Heap.grow (h : Heap) (size : UInt32) : UInt32 :=
  let need := h.next + size - h.limit
  if 0x100000 < need then need else 0x100000

/-- `shim_heap_alloc`: the heap after the call, and the block or 0. -/
def shimHeapAlloc (moves : Bool) (size : UInt32) (h : Heap) : Heap × UInt32 :=
  let size := heapRound size
  let h := h.init
  if h.limit < h.next + size then
    let wanted := h.limit + h.grow size
    let newLimit := sysBrk moves wanted h.brk
    if newLimit < wanted then ({ h with brk := newLimit }, 0)
    else ({ next := h.next + size, limit := newLimit, brk := newLimit }, h.next)
  else ({ h with next := h.next + size }, h.next)

/-- `shim_heap_realloc`, and `shim_msvcrt_realloc`, which calls it: the heap, the block or 0, and the
memory. -/
def shimHeapRealloc (mapped : UInt32 → Bool) (moves : Bool) (p size : UInt32) (h : Heap) (m : Ram) :
    Res Empty (Heap × UInt32 × Ram) :=
  let (h, n) := shimHeapAlloc moves size h
  if n = 0 then .ok (h, 0, m)
  else if p ≠ 0 then do
    -- as many bytes as the new block has, whatever the size of the old one
    let m ← copyBytes mapped n p size.toNat m
    .ok (h, n, m)
  else .ok (h, n, m)

/-! ### The callers -/

/-- `shim_HeapReAlloc`; the heap handle is not looked at. -/
def Kernel32.heapReAlloc (mapped : UInt32 → Bool) (moves : Bool) (flags mem size : UInt32) (h : Heap)
    (m : Ram) : Res Empty (Heap × UInt32 × Ram) := do
  let (h, p, m) ← shimHeapRealloc mapped moves mem size h m
  if p ≠ 0 ∧ flags &&& 0x8 ≠ 0 then do
    let m ← fillBytes mapped p 0 size.toNat m
    .ok (h, p, m)
  else .ok (h, p, m)

/-- `shim_HeapAlloc`; the heap handle is not looked at. -/
def Kernel32.heapAlloc (mapped : UInt32 → Bool) (moves : Bool) (flags size : UInt32) (h : Heap)
    (m : Ram) : Res Empty (Heap × UInt32 × Ram) :=
  let (h, p) := shimHeapAlloc moves size h
  if p ≠ 0 ∧ flags &&& 0x8 ≠ 0 then do
    let m ← fillBytes mapped p 0 size.toNat m
    .ok (h, p, m)
  else .ok (h, p, m)

/-- `shim_msvcrt_calloc`; the product is one of `unsigned long`. -/
def Msvcrt.calloc (mapped : UInt32 → Bool) (moves : Bool) (nmemb size : UInt32) (h : Heap) (m : Ram) :
    Res Empty (Heap × UInt32 × Ram) :=
  let total := nmemb * size
  let (h, p) := shimHeapAlloc moves total h
  if p ≠ 0 then do
    let m ← fillBytes mapped p 0 total.toNat m
    .ok (h, p, m)
  else .ok (h, p, m)

/-- `shim_heap_free`, which `shim_HeapFree` and `shim_msvcrt_free` call: a bump allocator takes nothing
back. -/
def shimHeapFree (_p : UInt32) (h : Heap) (m : Ram) : Heap × Ram := (h, m)

inductive HeapCall where
  | heapAlloc (flags size : UInt32)
  | malloc (size : UInt32)
deriving DecidableEq, Repr

def HeapCall.size : HeapCall → UInt32
  | heapAlloc _ size => size
  | malloc size => size

structure HeapBlock where
  addr : UInt32
  size : UInt32
deriving DecidableEq, Repr

/-- The heap and the blocks returned so far, the latest first. -/
structure HeapRun where
  heap : Heap
  blocks : List HeapBlock
deriving DecidableEq, Repr

def HeapRun.start (start : UInt32) : HeapRun := ⟨⟨0, 0, start⟩, []⟩

/-- One call, to `shim_HeapAlloc` or `shim_msvcrt_malloc`; the former may clear the block afterwards. -/
def HeapRun.step (r : HeapRun) (call : HeapCall) (moves : Bool) : HeapRun :=
  let (heap, p) := shimHeapAlloc moves call.size r.heap
  ⟨heap, if p = 0 then r.blocks else ⟨p, call.size⟩ :: r.blocks⟩

def HeapRun.run (r : HeapRun) (calls : List (HeapCall × Bool)) : HeapRun :=
  calls.foldl (fun r c => r.step c.1 c.2) r

end Winlift

import Mathlib.Data.List.Forall2
import Winlift.CSem.Objects
import Winlift.ReallocSpec

/-!
# The heap as a store of objects

What the heap is for: a program that touches only the objects it got, checks for `NULL` and asks for no
more than the address space has, sees `Objects` (`CSem.Objects`). `HeapClient.step` is one step of the
program on the shim's functions and the memory, with nothing mapped but the heap. `Expected.step` is
the same step on objects, with no address and no break in it. `HeapClient.Runs` runs both side by side,
and `Refines` is what holds of them after every step: the run does not fault, live objects are where the
program's pointers point, apart from each other, with the bytes it set, and what it read is what it had
set.
-/

namespace Winlift
open CSem

/-! ### The program -/

/-- The calls that return a block. The block to move is given by the variable that points to it. -/
inductive AllocCall where
  | malloc (size : UInt32)
  | calloc (nmemb size : UInt32)
  | heapAlloc (flags size : UInt32)
  | realloc (p : Nat) (size : UInt32)
  | heapReAlloc (flags : UInt32) (p : Nat) (size : UInt32)
deriving DecidableEq, Repr

inductive HeapOp where
  | assign (x : Nat) (call : AllocCall)
  | free (p : Nat)
  | write (p i : Nat) (v : UInt8)
  | read (p i : Nat)
deriving DecidableEq, Repr

/-- The size that the allocator is asked for. -/
def AllocCall.size : AllocCall → UInt32
  | malloc size => size
  | calloc nmemb size => nmemb * size
  | heapAlloc _ size => size
  | realloc _ size => size
  | heapReAlloc _ _ size => size

def AllocCall.run (mapped : UInt32 → Bool) (moves : Bool) (ptr : Nat → UInt32) (h : Heap) (m : Ram) :
    AllocCall → Res Empty (Heap × UInt32 × Ram)
  | malloc size => .ok ((shimHeapAlloc moves size h).1, (shimHeapAlloc moves size h).2, m)
  | calloc nmemb size => Msvcrt.calloc mapped moves nmemb size h m
  | heapAlloc flags size => Kernel32.heapAlloc mapped moves flags size h m
  | realloc p size => shimHeapRealloc mapped moves (ptr p) size h m
  | heapReAlloc flags p size => Kernel32.heapReAlloc mapped moves flags (ptr p) size h m

/-- The heap, the memory, the program's pointer variables and the bytes it has read. -/
structure HeapClient where
  heap : Heap
  ram : Ram
  ptr : Nat → UInt32
  reads : List UInt8

def HeapClient.start (start : UInt32) (m : Ram) : HeapClient := ⟨⟨0, 0, start⟩, m, fun _ => 0, []⟩

/-- One step of the program; what is mapped is the heap as the call leaves it. -/
def HeapClient.step (start : UInt32) (moves : Bool) (c : HeapClient) : HeapOp → Res Empty HeapClient
  | .assign x call => do
    let mapped := inHeap start (shimHeapAlloc moves call.size c.heap).1.limit
    let (h, p, m) ← call.run mapped moves c.ptr c.heap c.ram
    .ok { c with heap := h, ram := m, ptr := Function.update c.ptr x p }
  | .free p =>
    let (h, m) := shimHeapFree (c.ptr p) c.heap c.ram
    .ok { c with heap := h, ram := m }
  | .write p i v => do
    let m ← c.ram.store (inHeap start c.heap.limit) (c.ptr p + UInt32.ofNat i) v
    .ok { c with ram := m }
  | .read p i => do
    let v ← c.ram.load (inHeap start c.heap.limit) (c.ptr p + UInt32.ofNat i)
    .ok { c with reads := c.reads ++ [v] }

/-! ### What it expects -/

/-- The objects, and of each byte read whether and how it had been set. -/
structure Expected where
  objs : Objects
  reads : Contents

/-- The contents of the new object. -/
def AllocCall.contents (s : Objects) : AllocCall → Contents
  | malloc size => List.replicate size.toNat none
  | calloc nmemb size => List.replicate (nmemb.toNat * size.toNat) (some 0)
  | heapAlloc flags size => List.replicate size.toNat (if flags &&& 0x8 = 0 then none else some 0)
  | realloc p size => (s p).contents.resize size.toNat
  | heapReAlloc flags p size =>
    if flags &&& 0x8 = 0 then (s p).contents.resize size.toNat else List.replicate size.toNat (some 0)

/-- The object that is given up for the new one. -/
def AllocCall.given (s : Objects) : AllocCall → Objects
  | realloc p _ => Function.update s p .dangling
  | heapReAlloc _ p _ => Function.update s p .dangling
  | _ => s

/-- `granted`: the call returned a block. -/
def Expected.step (granted : Bool) (e : Expected) : HeapOp → Expected
  | .assign x call =>
    if granted then { e with objs := Function.update (call.given e.objs) x (.live (call.contents e.objs)) }
    else { e with objs := Function.update e.objs x .null }
  | .free p => { e with objs := Function.update e.objs p .dangling }
  | .write p i v => { e with objs := Function.update e.objs p (.live ((e.objs p).contents.set i (some v))) }
  | .read p i => { e with reads := e.reads ++ [(e.objs p).contents.getD i none] }

/-- A size that does not overflow, and no dangling pointer. -/
def AllocCall.Allowed (s : Objects) : AllocCall → Prop
  | calloc nmemb size => nmemb.toNat * size.toNat < 2 ^ 32
  | realloc p _ => s p ≠ .dangling
  | heapReAlloc _ p _ => s p ≠ .dangling
  | _ => True

/-- What a correct program does: it touches only bytes of its objects, and the heap has room. -/
def HeapOp.Allowed (c : HeapClient) (e : Expected) : HeapOp → Prop
  | .assign _ call => call.Allowed e.objs ∧ NoWrap call.size c.heap
  | .free p => e.objs p ≠ .dangling
  | .write p i _ => ∃ d, e.objs p = .live d ∧ i < d.length
  | .read p i => ∃ d, e.objs p = .live d ∧ i < d.length

/-- Whether the step left a block in the variable it assigned. -/
def HeapOp.granted (c : HeapClient) : HeapOp → Bool
  | .assign x _ => c.ptr x ≠ 0
  | _ => false

/-- The program and its objects after some steps; at each the kernel moves the break or not. -/
inductive HeapClient.Runs (start : UInt32) (c₀ : HeapClient) (e₀ : Expected) :
    List HeapOp → HeapClient → Expected → Prop
  | refl : Runs start c₀ e₀ [] c₀ e₀
  | step {ops : List HeapOp} {c c' : HeapClient} {e : Expected} {op : HeapOp} {moves : Bool} :
      Runs start c₀ e₀ ops c e → op.Allowed c e → c.step start moves op = .ok c' →
        Runs start c₀ e₀ (ops ++ [op]) c' (e.step (op.granted c') op)

/-! ### Programs that can be run -/

theorem Cell.has_iff {cell : Cell} {i : Nat} :
    i < cell.contents.length ↔ ∃ d, cell = .live d ∧ i < d.length := by
  cases cell <;> simp [Cell.contents]

instance (s : Objects) (call : AllocCall) : Decidable (call.Allowed s) :=
  match call with
  | .malloc _ | .heapAlloc _ _ => inferInstanceAs (Decidable True)
  | .calloc nmemb size => inferInstanceAs (Decidable (nmemb.toNat * size.toNat < 2 ^ 32))
  | .realloc p _ | .heapReAlloc _ p _ => inferInstanceAs (Decidable (s p ≠ .dangling))

instance (c : HeapClient) (e : Expected) (op : HeapOp) : Decidable (op.Allowed c e) :=
  match op with
  | .assign _ call => inferInstanceAs (Decidable (call.Allowed e.objs ∧ NoWrap call.size c.heap))
  | .free p => inferInstanceAs (Decidable (e.objs p ≠ .dangling))
  | .write p i _ => decidable_of_iff (i < (e.objs p).contents.length) Cell.has_iff
  | .read p i => decidable_of_iff (i < (e.objs p).contents.length) Cell.has_iff

/-- The program `ops`, if each of its steps is allowed where it is taken. -/
def HeapClient.play (start : UInt32) (moves : Bool) :
    List HeapOp → HeapClient → Expected → Option (HeapClient × Expected)
  | [], c, e => some (c, e)
  | op :: ops, c, e =>
    if op.Allowed c e then
      match c.step start moves op with
      | .ok c' => play start moves ops c' (e.step (op.granted c') op)
      | _ => none
    else none

theorem HeapClient.Runs.play {start : UInt32} {moves : Bool} {c₀ c c' : HeapClient} {e₀ e e' : Expected}
    {ops₀ ops : List HeapOp} (hrun : Runs start c₀ e₀ ops₀ c e)
    (h : HeapClient.play start moves ops c e = some (c', e')) : Runs start c₀ e₀ (ops₀ ++ ops) c' e' := by
  induction ops generalizing ops₀ c e with
  | nil =>
    cases h
    rwa [List.append_nil]
  | cons op ops ih =>
    rw [HeapClient.play] at h
    split_ifs at h with hop
    cases hstep : c.step start moves op with
    | ok c₁ =>
      rw [hstep] at h
      have hrest := ih (hrun.step hop hstep) h
      rwa [List.append_assoc, List.singleton_append] at hrest
    | _ =>
      rw [hstep] at h
      cases h

/-! ### The allocator -/

theorem Heap.init_init (h : Heap) : h.init.init = h.init := by
  unfold Heap.init
  split
  · dsimp only
    split <;> rfl
  · rfl

theorem Heap.init_of_next_ne {h : Heap} (hne : h.next ≠ 0) : h.init = h := if_neg hne

/-- What a call that returns a block has done: the block `q` is at the end of the old heap, with the
contents `d`, and the memory before it is as it was. -/
structure Served (start : UInt32) (h : Heap) (m : Ram) (d : Contents) (h' : Heap) (q : UInt32) (m' : Ram) :
    Prop where
  heap : HeapInv start ⟨h', []⟩
  next_le : h.init.next.toNat ≤ h'.init.next.toNat
  frame : ∀ a : UInt32, a.toNat < h.init.next.toNat → m' a = m a
  object : q ≠ 0 → q = h.init.next ∧ Lies start.toNat h'.init.next.toNat m' q d

section alloc
variable {start n : UInt32} {h : Heap} {m : Ram}

/-- A block of the allocator, and room for it. -/
theorem shimHeapAlloc_served (hinv : HeapInv start ⟨h, []⟩) (hno : NoWrap n h) (moves : Bool) :
    Served start h m (List.replicate n.toNat none) (shimHeapAlloc moves n h).1 (shimHeapAlloc moves n h).2 m ∧
      ((shimHeapAlloc moves n h).2 ≠ 0 →
        h.init.next.toNat + n.toNat ≤ (shimHeapAlloc moves n h).1.limit.toNat) := by
  obtain ⟨hlo, hhi, hbrk, -⟩ := hinv.init
  dsimp only at hlo hhi hbrk
  rcases shimHeapAlloc_spec moves hno hbrk with hfail | ⟨h', hok, hnext, hlimit, hbrk'⟩
  · rw [hfail]
    refine ⟨⟨⟨.inr ⟨hlo, hhi, hbrk⟩, by simp, .nil⟩, ?_, fun _ _ => rfl, fun h => absurd rfl h⟩,
      fun h => absurd rfl h⟩
    rw [Heap.init_init]
  · rw [hok]
    obtain ⟨hsize, h16⟩ := heapRound_toNat hno.size
    have hne : h'.next ≠ 0 := by
      intro h0
      rw [h0, UInt32.toNat_zero] at hnext
      omega
    have hle : start ≤ h'.next := UInt32.le_iff_toNat_le.mpr (by omega)
    refine ⟨⟨⟨.inr ⟨hle, UInt32.le_iff_toNat_le.mpr hlimit, hbrk'⟩, by simp, .nil⟩, ?_, fun _ _ => rfl,
      fun hq => ⟨rfl, hq, hlo, ?_, .unset⟩⟩, fun _ => ?_⟩
    · rw [Heap.init_of_next_ne hne]
      omega
    · rw [Heap.init_of_next_ne hne, List.length_replicate]
      dsimp only
      omega
    · dsimp only
      omega

/-- The block is filled. -/
theorem Served.fill {h' : Heap} {q : UInt32} {d : Contents} {v : UInt8} {m₁ : Ram}
    (hs : Served start h m d h' q m₁) (hlen : d.length = n.toNat) (hq : q ≠ 0)
    (hroom : h.init.next.toNat + n.toNat ≤ h'.limit.toNat) :
    ∃ m', (fillBytes (inHeap start h'.limit) q v n.toNat m₁ : Res Empty Ram) = .ok m' ∧
      Served start h m (List.replicate n.toNat (some v)) h' q m' := by
  obtain ⟨rfl, hlies⟩ := hs.object hq
  have hend := hlies.end_le
  have hnext := h'.init.next.toNat_lt
  rw [hlen] at hend
  obtain ⟨m', hm'⟩ : ∃ m', (fillBytes (inHeap start h'.limit) h.init.next v n.toNat m₁ : Res Empty Ram) = .ok m' :=
    exists_storeFrom (i := 0) (fun _ _ _ => ⟨v, rfl⟩) fun j hj => inHeap_of_le hlies.lo_le hj (by omega)
  refine ⟨m', hm', hs.heap, hs.next_le, fun a ha => ?_, fun _ => ⟨rfl, hq, hlies.lo_le, ?_, ?_⟩⟩
  · rw [← hs.frame a ha]
    refine storeFrom_frame (fun j hj heq => ?_) hm'
    have haddr := congrArg UInt32.toNat heq
    rw [add_ofNat_toNat (by omega)] at haddr
    omega
  · rwa [List.length_replicate]
  · exact .filled fun i hi => fillBytes_filled hi hm'

/-- The contents of an object are copied into the block. -/
theorem Served.copy {h' : Heap} {q p : UInt32} {c d : Contents} (hs : Served start h m c h' q m)
    (hlen : c.length = n.toNat) (hq : q ≠ 0) (hroom : h.init.next.toNat + n.toNat ≤ h'.limit.toNat)
    (hp : Lies start.toNat h.init.next.toNat m p d) :
    ∃ m', (copyBytes (inHeap start h'.limit) q p n.toNat m : Res Empty Ram) = .ok m' ∧
      Served start h m (d.resize n.toNat) h' q m' := by
  obtain ⟨rfl, hlies⟩ := hs.object hq
  have hend := hlies.end_le
  have hpend := hp.end_le
  have hnext := h'.init.next.toNat_lt
  rw [hlen] at hend
  -- the object begins before the block, so as many bytes from it on end before the heap does
  obtain ⟨m', hm'⟩ : ∃ m', (copyBytes (inHeap start h'.limit) h.init.next p n.toNat m : Res Empty Ram) = .ok m' :=
    exists_copyBytes (fun j hj => inHeap_of_le hp.lo_le hj (by omega))
      fun j hj => inHeap_of_le hlies.lo_le hj (by omega)
  refine ⟨m', hm', hs.heap, hs.next_le, fun a ha => ?_, fun _ => ⟨rfl, hq, hlies.lo_le, ?_, ?_⟩⟩
  · refine copyBytes_frame (fun j hj heq => ?_) hm'
    have haddr := congrArg UInt32.toNat heq
    rw [add_ofNat_toNat (by omega)] at haddr
    omega
  · rwa [Contents.length_resize]
  · exact hp.known.resize (copyBytes_block hpend hm')

/-- The block joins the objects that are there. -/
theorem Served.objectsIn {d : Contents} {h' : Heap} {q : UInt32} {m' : Ram} {ptr : Nat → UInt32} {s : Objects}
    (hs : Served start h m d h' q m') (hq : q ≠ 0) (hobjs : ObjectsIn start.toNat h.init.next.toNat ptr s m)
    (x : Nat) : ObjectsIn start.toNat h'.init.next.toNat (Function.update ptr x q)
      (Function.update s x (.live d)) m' := by
  obtain ⟨hqeq, hlies⟩ := hs.object hq
  exact hobjs.assignNew (Nat.le_of_lt h.init.next.toNat_lt) (fun a _ => hs.frame a) hlies (by rw [hqeq]) x

end alloc

/-! ### The calls -/

section calls
variable {start : UInt32} {c : HeapClient} {e : Expected} {ptr : Nat → UInt32} {s : Objects} {h : Heap} {m : Ram}

/-- The call moves an object only if there is one. -/
theorem realloc_served (hinv : HeapInv start ⟨h, []⟩) (hobjs : ObjectsIn start.toNat h.init.next.toNat ptr s m)
    {p : Nat} {n : UInt32} (hno : NoWrap n h) (hp : s p ≠ .dangling) (moves : Bool) :
    ∃ h' q m', shimHeapRealloc (inHeap start (shimHeapAlloc moves n h).1.limit) moves (ptr p) n h m =
        .ok (h', q, m') ∧ h' = (shimHeapAlloc moves n h).1 ∧
      Served start h m ((s p).contents.resize n.toNat) h' q m' ∧
      (q ≠ 0 → h.init.next.toNat + n.toNat ≤ h'.limit.toNat) := by
  obtain ⟨hs, hroom⟩ := shimHeapAlloc_served (m := m) hinv hno moves
  rw [shimHeapRealloc]
  dsimp only
  split
  · rename_i hq
    refine ⟨_, _, _, rfl, rfl, ⟨hs.heap, hs.next_le, hs.frame, fun h => absurd rfl h⟩, fun h => absurd rfl h⟩
  rename_i hq
  cases hcell : s p with
  | null =>
    rw [hobjs.null p hcell, if_neg fun h => h rfl]
    exact ⟨_, _, _, rfl, rfl, by simpa [Contents.resize, Cell.contents] using hs, hroom⟩
  | dangling => exact absurd hcell hp
  | live d =>
    have hlive := hobjs.live p d hcell
    rw [if_pos hlive.ne_zero]
    obtain ⟨m', hm', hs'⟩ := hs.copy (List.length_replicate ..) hq (hroom hq) hlive
    rw [hm', Res.ok_bind]
    exact ⟨_, _, _, rfl, rfl, hs', hroom⟩

/-- A call that is allowed comes through, with a block of the contents expected or none. -/
theorem AllocCall.served (hinv : HeapInv start ⟨h, []⟩)
    (hobjs : ObjectsIn start.toNat h.init.next.toNat ptr s m) {call : AllocCall} (hcall : call.Allowed s)
    (hno : NoWrap call.size h) (moves : Bool) :
    ∃ h' q m', call.run (inHeap start (shimHeapAlloc moves call.size h).1.limit) moves ptr h m =
      .ok (h', q, m') ∧ Served start h m (call.contents s) h' q m' := by
  obtain ⟨hs, hroom⟩ := shimHeapAlloc_served (m := m) hinv hno moves
  cases call with
  | malloc size => exact ⟨_, _, _, rfl, hs⟩
  | calloc nmemb size =>
    have htotal : (nmemb * size).toNat = nmemb.toNat * size.toNat := by
      rw [UInt32.toNat_mul, Nat.mod_eq_of_lt hcall]
    rw [AllocCall.run, Msvcrt.calloc]
    dsimp only [AllocCall.size] at hs hroom ⊢
    split
    · rename_i hq
      obtain ⟨m', hm', hs'⟩ := hs.fill (v := 0) (List.length_replicate ..) hq (hroom hq)
      rw [hm', Res.ok_bind]
      rw [htotal] at hs'
      exact ⟨_, _, _, rfl, hs'⟩
    · rename_i hq
      exact ⟨_, _, _, rfl, hs.heap, hs.next_le, hs.frame, fun h => absurd h hq⟩
  | heapAlloc flags size =>
    rw [AllocCall.run, Kernel32.heapAlloc, AllocCall.contents]
    dsimp only [AllocCall.size] at hs hroom ⊢
    split
    · rename_i hq
      obtain ⟨m', hm', hs'⟩ := hs.fill (v := 0) (List.length_replicate ..) hq.1 (hroom hq.1)
      rw [hm', Res.ok_bind, if_neg hq.2]
      exact ⟨_, _, _, rfl, hs'⟩
    · rename_i hq
      refine ⟨_, _, _, rfl, hs.heap, hs.next_le, hs.frame, fun hne => ?_⟩
      rw [if_pos (not_not.mp fun hflag => hq ⟨hne, hflag⟩)]
      exact hs.object hne
  | realloc p size =>
    obtain ⟨h', q, m', hrun, -, hs', -⟩ := realloc_served hinv hobjs hno hcall moves
    exact ⟨h', q, m', hrun, hs'⟩
  | heapReAlloc flags p size =>
    obtain ⟨h', q, m₁, hrun, hheap, hs', hroom'⟩ := realloc_served hinv hobjs hno hcall moves
    rw [AllocCall.run, Kernel32.heapReAlloc, AllocCall.contents]
    dsimp only [AllocCall.size] at hrun hroom' ⊢
    rw [hrun, Res.ok_bind]
    dsimp only
    split
    · rename_i hq
      rw [if_neg hq.2]
      obtain ⟨m', hm', hs'⟩ := hs'.fill (v := 0) (Contents.length_resize ..) hq.1 (hroom' hq.1)
      subst hheap
      dsimp only [AllocCall.size] at hm' hs' ⊢
      rw [hm', Res.ok_bind]
      exact ⟨_, _, _, rfl, hs'⟩
    · rename_i hq
      refine ⟨_, _, _, rfl, hs'.heap, hs'.next_le, hs'.frame, fun hne => ?_⟩
      rw [if_pos (not_not.mp fun hflag => hq ⟨hne, hflag⟩)]
      exact hs'.object hne

end calls

/-! ### The program and its objects -/

structure Refines (start : UInt32) (c : HeapClient) (e : Expected) : Prop where
  heap : HeapInv start ⟨c.heap, []⟩
  objects : ObjectsIn start.toNat c.heap.init.next.toNat c.ptr e.objs c.ram
  reads : List.Forall₂ (fun v o => ∀ w, o = some w → v = w) c.reads e.reads

theorem Refines.start (start : UInt32) (m : Ram) :
    Refines start (.start start m) ⟨fun _ => .null, []⟩ :=
  ⟨⟨.inl ⟨rfl, rfl⟩, by simp, .nil⟩, .none _ _ m, .nil⟩

section refinement
variable {start : UInt32} {c c' c₀ : HeapClient} {e e₀ : Expected} {ops : List HeapOp}

/-- The bytes of objects are mapped. -/
theorem Refines.mapped (h : Refines start c e) {x i : Nat} {d : Contents} (hx : e.objs x = .live d)
    (hi : i < d.length) : inHeap start c.heap.limit (c.ptr x + UInt32.ofNat i) = true := by
  have hlive := h.objects.live x d hx
  have hlo := hlive.lo_le
  have hend := hlive.end_le
  refine inHeap_of_le hlo hi (Nat.le_trans hend ?_)
  rcases h.heap.fresh_or_set with ⟨hfresh, -⟩ | ⟨-, hlim, hbrk⟩
  · -- a heap that is not set up has no room for a byte
    dsimp only at hfresh
    have hinit : c.heap.init.next = start := by rw [hfresh, Heap.init]; rfl
    rw [hinit] at hend
    omega
  · unfold Heap.init
    split
    · exact Nat.le_of_eq (congrArg UInt32.toNat hbrk)
    · exact UInt32.le_iff_toNat_le.mp hlim

theorem Refines.assign (h : Refines start c e) {x : Nat} {call : AllocCall} (hcall : call.Allowed e.objs)
    (hno : NoWrap call.size c.heap) (moves : Bool) :
    ∃ c', c.step start moves (.assign x call) = .ok c' ∧
      Refines start c' (e.step ((HeapOp.assign x call).granted c') (.assign x call)) := by
  obtain ⟨h', q, m', hrun, hs⟩ := AllocCall.served h.heap h.objects hcall hno moves
  refine ⟨_, Res.bind_eq_ok.mpr ⟨_, hrun, rfl⟩, ?_⟩
  have hgranted : (HeapOp.assign x call).granted
      { c with heap := h', ram := m', ptr := Function.update c.ptr x q } = decide (q ≠ 0) := by
    simp [HeapOp.granted]
  rw [hgranted, Expected.step]
  by_cases hq : q = 0
  · rw [if_neg (by simp [hq]), hq]
    have hobjs := h.objects.congr (Nat.le_of_lt c.heap.init.next.toNat_lt) (fun a _ => hs.frame a) hs.next_le
    exact ⟨hs.heap, hobjs.assignNull x, h.reads⟩
  · rw [if_pos (decide_eq_true hq)]
    have hgiven : ObjectsIn start.toNat c.heap.init.next.toNat c.ptr (call.given e.objs) c.ram := by
      cases call with
      | realloc p _ => exact h.objects.giveUp p
      | heapReAlloc _ p _ => exact h.objects.giveUp p
      | _ => exact h.objects
    exact ⟨hs.heap, hs.objectsIn hq hgiven x, h.reads⟩

/-- A step that is allowed does not fault, and keeps the refinement. -/
theorem Refines.step (h : Refines start c e) {op : HeapOp} (hop : op.Allowed c e) (moves : Bool) :
    ∃ c', c.step start moves op = .ok c' ∧ Refines start c' (e.step (op.granted c') op) := by
  have hbound := c.heap.init.next.toNat_lt
  cases op with
  | assign x call => exact h.assign hop.1 hop.2 moves
  | free p => exact ⟨c, rfl, h.heap, h.objects.giveUp p, h.reads⟩
  | write p i v =>
    obtain ⟨d, hd, hi⟩ := hop
    refine ⟨_, Res.bind_eq_ok.mpr ⟨_, Ram.store_eq_ok.mpr ⟨h.mapped hd hi, rfl⟩, rfl⟩, h.heap, ?_, h.reads⟩
    rw [Expected.step, hd]
    exact h.objects.set (by omega) hd hi v
  | read p i =>
    obtain ⟨d, hd, hi⟩ := hop
    refine ⟨_, Res.bind_eq_ok.mpr ⟨_, Ram.load_eq_ok.mpr ⟨h.mapped hd hi, rfl⟩, rfl⟩, h.heap, h.objects, ?_⟩
    refine List.rel_append h.reads (.cons (fun w hw => ?_) .nil)
    rw [hd, Cell.contents, List.getD_eq_getElem?_getD, List.getElem?_eq_getElem hi, Option.getD_some] at hw
    exact (h.objects.live p d hd).known i w (by rw [List.getElem?_eq_getElem hi, hw])

theorem HeapClient.Runs.refines (hrun : HeapClient.Runs start c₀ e₀ ops c e) (h₀ : Refines start c₀ e₀) :
    Refines start c e := by
  induction hrun with
  | refl => exact h₀
  | @step ops c c' e op moves _ hop hstep ih =>
    obtain ⟨_, hstep', h⟩ := ih.step hop moves
    cases hstep.symm.trans hstep'
    exact h

/-- In every run from the start of the process the program finds its objects as it left them, and no step
of it faults. -/
theorem heap_refines_objects {m : Ram}
    (hrun : HeapClient.Runs start (.start start m) ⟨fun _ => .null, []⟩ ops c e) :
    Refines start c e ∧ ∀ op moves, op.Allowed c e → ∃ c', c.step start moves op = .ok c' := by
  have h := hrun.refines (.start start m)
  refine ⟨h, fun op moves hop => ?_⟩
  obtain ⟨c', hstep, -⟩ := h.step hop moves
  exact ⟨c', hstep⟩

end refinement

/-- Blocks of `malloc`, `calloc` and `HeapAlloc`; the first one is moved, the second one freed. -/
def sampleProgram : List HeapOp :=
  [.assign 0 (.malloc 3), .write 0 1 7, .assign 1 (.calloc 2 4), .write 1 0 9, .assign 2 (.realloc 0 20),
    .read 2 1, .free 1, .assign 3 (.heapAlloc 8 5), .read 3 4]

theorem heap_refines_objects_sample : ∃ c e,
    HeapClient.Runs 0x0F100000 (.start 0x0F100000 UInt32.toUInt8) ⟨fun _ => .null, []⟩ sampleProgram c e ∧
      c.reads = [7, 0] ∧ c.ptr 2 = 0x0F100020 ∧ c.ptr 3 = 0x0F100040 ∧
      (e.objs 0, e.objs 1) = (.dangling, .dangling) ∧
      e.objs 2 = .live (none :: some 7 :: List.replicate 18 none) ∧
      e.objs 3 = .live (List.replicate 5 (some 0)) ∧ Refines 0x0F100000 c e := by
  have hplay : (HeapClient.play 0x0F100000 true sampleProgram (.start 0x0F100000 UInt32.toUInt8)
      ⟨fun _ => .null, []⟩).any fun p => p.1.reads = [7, 0] ∧ p.1.ptr 2 = 0x0F100020 ∧
        p.1.ptr 3 = 0x0F100040 ∧ (p.2.objs 0, p.2.objs 1) = (.dangling, .dangling) ∧
        p.2.objs 2 = .live (none :: some 7 :: List.replicate 18 none) ∧
        p.2.objs 3 = .live (List.replicate 5 (some 0)) := by decide +kernel
  obtain ⟨⟨c, e⟩, hplay, hsample⟩ := (Option.any_eq_true ..).mp hplay
  have hrun := HeapClient.Runs.refl.play hplay
  obtain ⟨hreads, hptr, hptr', hgone, hmoved, hcleared⟩ := of_decide_eq_true hsample
  exact ⟨c, e, hrun, hreads, hptr, hptr', hgone, hmoved, hcleared, (heap_refines_objects hrun).1⟩

end Winlift

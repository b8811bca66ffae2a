import Winlift.HeapInv

/-!
# Moving a block

`realloc` copies as many bytes as the new block has, out of a block whose size it does not know. The
new block is at `heap_next`, behind every live block, so the copy runs over bytes behind the old block
and then over the new one, but never over a byte of the old block before it has read it.
`HeapReAlloc` clears the new block after that.
-/

namespace Winlift
open CSem

/-- The heaps that calls reach which do not wrap, with the blocks they returned. -/
def HeapReached (start : UInt32) (r : HeapRun) : Prop :=
  ∃ calls, NoWraps (.start start) calls ∧ (HeapRun.start start).run calls = r

namespace HeapReached
variable {start : UInt32} {r : HeapRun}

theorem inv (h : HeapReached start r) : HeapInv start r := by
  obtain ⟨calls, hno, rfl⟩ := h
  exact (HeapInv.start start).run hno

theorem addr_ne_zero (h : HeapReached start r) : ∀ b ∈ r.blocks, b.addr ≠ 0 := by
  obtain ⟨calls, -, rfl⟩ := h
  have hrun : ∀ r : HeapRun, (∀ b ∈ r.blocks, b.addr ≠ 0) → ∀ b ∈ (r.run calls).blocks, b.addr ≠ 0 := by
    induction calls with
    | nil => exact fun r hr => hr
    | cons c calls ih =>
      intro r hr
      refine ih (r.step c.1 c.2) ?_
      simp only [HeapRun.step]
      split
      · exact hr
      · rename_i hne
        exact List.forall_mem_cons.mpr ⟨hne, hr⟩
  exact hrun _ (by simp [HeapRun.start])

/-- Every live block ends before the place of the next one. -/
theorem block_end_le (h : HeapReached start r) {b : HeapBlock} (hb : b ∈ r.blocks) :
    b.addr.toNat + b.size.toNat ≤ r.heap.init.next.toNat := by
  obtain ⟨-, -, -, hin⟩ := h.inv.init
  exact (hin b hb).2

end HeapReached

theorem shimHeapAlloc_block (moves : Bool) (n : UInt32) (h : Heap) :
    (shimHeapAlloc moves n h).2 = 0 ∨ (shimHeapAlloc moves n h).2 = h.init.next := by
  simp only [shimHeapAlloc]
  split_ifs
  · exact .inl rfl
  · exact .inr rfl
  · exact .inr rfl

/-! ### The copy -/

section
variable {mapped : UInt32 → Bool} {moves : Bool} {p q n : UInt32} {h h' : Heap} {mem mem' : Ram}

theorem shimHeapRealloc_eq (hp : p ≠ 0) : shimHeapRealloc mapped moves p n h mem =
    if (shimHeapAlloc moves n h).2 = 0 then .ok ((shimHeapAlloc moves n h).1, 0, mem)
    else copyBytes mapped (shimHeapAlloc moves n h).2 p n.toNat mem >>= fun m =>
      .ok ((shimHeapAlloc moves n h).1, (shimHeapAlloc moves n h).2, m) := by
  simp only [shimHeapRealloc, ne_eq, hp, not_false_eq_true, if_true]

theorem shimHeapRealloc_eq_ok (hp : p ≠ 0) (hq : q ≠ 0)
    (hret : shimHeapRealloc mapped moves p n h mem = .ok (h', q, mem')) :
    q = h.init.next ∧ (copyBytes mapped q p n.toNat mem : Res Empty Ram) = .ok mem' := by
  rw [shimHeapRealloc_eq hp] at hret
  split_ifs at hret with hzero
  · cases hret
    exact absurd rfl hq
  · obtain ⟨m, hcopy, hret⟩ := Res.bind_eq_ok.mp hret
    cases hret
    exact ⟨(shimHeapAlloc_block ..).resolve_left hzero, hcopy⟩

/-- A byte of a block in front of `q` is not among the bytes from `q` on that come before it. -/
theorem ne_of_end_le {m j k : Nat} (hend : p.toNat + m ≤ q.toNat) (hk : k < m) (hj : j ≤ k) :
    p + UInt32.ofNat k ≠ q + UInt32.ofNat j := by
  intro heq
  have hnat := congrArg UInt32.toNat heq
  have hq := q.toNat_lt
  simp only [UInt32.toNat_add, UInt32.toNat_ofNat'] at hnat
  omega

/-- The copy keeps what fits of a block in front of the new one, even where addresses wrap. -/
theorem copyBytes_block {m : Nat} (hend : p.toNat + m ≤ q.toNat)
    (hcopy : (copyBytes mapped q p n.toNat mem : Res Empty Ram) = .ok mem') :
    ∀ i < min m n.toNat, mem' (q + UInt32.ofNat i) = mem (p + UInt32.ofNat i) := by
  intro i hi
  obtain ⟨him, hin⟩ := Nat.lt_min.mp hi
  exact copyBytes_copied (Nat.le_of_lt n.toNat_lt) hin
    (fun j hj => ne_of_end_le hend him (Nat.le_of_lt hj)) hcopy

end

/-! ### `shim_heap_realloc` -/

/-- The addresses of the heap. -/
def inHeap (start limit a : UInt32) : Bool := start ≤ a ∧ a < limit

/-- `mem'` holds at `q` what `mem` holds at `p`, as far as it fits. -/
def BytesKept (mem mem' : Ram) (p q : UInt32) (m n : Nat) : Prop :=
  ∀ i < min m n, mem' (q + UInt32.ofNat i) = mem (p + UInt32.ofNat i)

theorem inHeap_of_le {start limit a : UInt32} {j n : Nat} (hlo : start.toNat ≤ a.toNat) (hj : j < n)
    (hhi : a.toNat + n ≤ limit.toNat) : inHeap start limit (a + UInt32.ofNat j) = true := by
  have hlt := limit.toNat_lt
  have hadd : (a + UInt32.ofNat j).toNat = a.toNat + j := add_ofNat_toNat (by omega)
  simp only [inHeap, UInt32.le_iff_toNat_le, UInt32.lt_iff_toNat_lt, hadd, decide_eq_true_eq]
  omega

section
variable {start : UInt32} {r : HeapRun} {p m n : UInt32}

/-- With the heap alone mapped the call comes through; it moves the block, and leaves every live
block as it is. -/
theorem realloc_keeps (hr : HeapReached start r) (hlive : ⟨p, m⟩ ∈ r.blocks) (hno : NoWrap n r.heap)
    (moves : Bool) (mem : Ram) : ∃ h' q mem',
      shimHeapRealloc (inHeap start h'.limit) moves p n r.heap mem = .ok (h', q, mem') ∧
        (q ≠ 0 → BytesKept mem mem' p q m.toNat n.toNat ∧
          ∀ b ∈ r.blocks, BytesKept mem mem' b.addr b.addr b.size.toNat b.size.toNat) := by
  have hp : p ≠ 0 := hr.addr_ne_zero _ hlive
  obtain ⟨hlo, -, hbrk, hin⟩ := hr.inv.init
  rcases shimHeapAlloc_spec moves hno hbrk with hfail | ⟨h', hok, hnext, hlimit, -⟩
  · refine ⟨r.heap.init, 0, mem, ?_, fun h => absurd rfl h⟩
    rw [shimHeapRealloc_eq hp, hfail, if_pos rfl]
  rcases eq_or_ne r.heap.init.next 0 with hzero | hzero
  · refine ⟨h', 0, mem, ?_, fun h => absurd rfl h⟩
    rw [shimHeapRealloc_eq hp, hok, if_pos hzero]
  have hround := (heapRound_toNat hno.size).1
  obtain ⟨hpstart, hpend⟩ := hin _ hlive
  dsimp only at hpstart hpend
  -- the source begins before the new block, so it also ends before it
  obtain ⟨mem', hcopy⟩ : ∃ mem', (copyBytes (inHeap start h'.limit) r.heap.init.next p n.toNat mem :
      Res Empty Ram) = .ok mem' :=
    exists_copyBytes (fun j hj => inHeap_of_le hpstart hj (by omega))
      fun j hj => inHeap_of_le hlo hj (by omega)
  refine ⟨h', r.heap.init.next, mem', ?_, fun _ => ⟨copyBytes_block hpend hcopy, fun b hb i hi => ?_⟩⟩
  · rw [shimHeapRealloc_eq hp, hok, if_neg hzero]
    show copyBytes _ _ _ _ _ >>= _ = _
    rw [hcopy, Res.ok_bind]
  · have hbend := (hin b hb).2
    have hlim := h'.limit.toNat_lt
    have hi' := (Nat.lt_min.mp hi).1
    refine copyBytes_frame (fun j hj heq => ?_) hcopy
    have hnat := congrArg UInt32.toNat heq
    rw [add_ofNat_toNat (by omega), add_ofNat_toNat (by omega)] at hnat
    omega

/-- A heap with one block, of 40 bytes. -/
def fortyBytes : HeapRun := (HeapRun.start 0x0F100000).run [(.malloc 40, true)]

theorem fortyBytes_reached : HeapReached 0x0F100000 fortyBytes := by
  refine ⟨[(.malloc 40, true)], ⟨⟨?_, ?_, fun _ => ?_⟩, trivial⟩, rfl⟩ <;> decide

theorem realloc_keeps_fortyBytes : ∃ h' mem',
    shimHeapRealloc (inHeap 0x0F100000 h'.limit) true 0x0F100000 80 fortyBytes.heap UInt32.toUInt8 =
        .ok (h', 0x0F100030, mem') ∧
      BytesKept UInt32.toUInt8 mem' 0x0F100000 0x0F100030 40 80 ∧ ∀ b ∈ fortyBytes.blocks,
        BytesKept UInt32.toUInt8 mem' b.addr b.addr b.size.toNat b.size.toNat := by
  have hno : NoWrap 80 fortyBytes.heap :=
    ⟨by decide, by decide, fun hfull => absurd hfull (by decide)⟩
  have hlive : ⟨0x0F100000, 40⟩ ∈ fortyBytes.blocks := by decide
  obtain ⟨h', q, mem', hret, hkept⟩ := realloc_keeps fortyBytes_reached hlive hno true UInt32.toUInt8
  -- the heap has room for the new block
  have hblock : (shimHeapAlloc true 80 fortyBytes.heap).2 = 0x0F100030 := by decide
  have hq : q = 0x0F100030 := by
    have hp : (0x0F100000 : UInt32) ≠ 0 := by decide
    rw [shimHeapRealloc_eq hp, hblock, if_neg (by decide)] at hret
    obtain ⟨m, -, hret⟩ := Res.bind_eq_ok.mp hret
    cases hret
    rfl
  subst hq
  exact ⟨h', mem', hret, hkept (by decide)⟩

/-! ### `shim_HeapReAlloc` -/

/-- The data are kept and, if that is asked for, the bytes behind them cleared. -/
def DataKept (mem mem' : Ram) (p q : UInt32) (m n : Nat) (flags : UInt32) : Prop :=
  BytesKept mem mem' p q m n ∧
    (flags &&& 0x8 ≠ 0 → ∀ i, m ≤ i → i < n → mem' (q + UInt32.ofNat i) = 0)

variable {flags q : UInt32} {mapped : UInt32 → Bool} {moves : Bool} {h' : Heap} {mem mem' : Ram}

/-- `HEAP_ZERO_MEMORY` clears the data too. -/
theorem heapReAlloc_keeps_iff (hr : HeapReached start r) (hlive : ⟨p, m⟩ ∈ r.blocks)
    (hret : Kernel32.heapReAlloc mapped moves flags p n r.heap mem = .ok (h', q, mem')) (hq : q ≠ 0) :
    DataKept mem mem' p q m.toNat n.toNat flags ↔
      flags &&& 0x8 = 0 ∨ ∀ i < min m.toNat n.toNat, mem (p + UInt32.ofNat i) = 0 := by
  obtain ⟨⟨h₁, q₁, mem₁⟩, hmove, hret⟩ := Res.bind_eq_ok.mp hret
  dsimp only at hret
  rcases eq_or_ne (flags &&& 0x8) 0 with hflag | hflag
  · rw [if_neg fun h => h.2 hflag] at hret
    cases hret
    obtain ⟨rfl, hcopy⟩ := shimHeapRealloc_eq_ok (hr.addr_ne_zero _ hlive) hq hmove
    have hkept := copyBytes_block (hr.block_end_le hlive) hcopy
    exact ⟨fun _ => .inl hflag, fun _ => ⟨hkept, fun h => absurd hflag h⟩⟩
  · -- the old bytes were copied, and then cleared like the others
    have hzeroed : q₁ = q ∧ (fillBytes mapped q 0 n.toNat mem₁ : Res Empty Ram) = .ok mem' := by
      split_ifs at hret with hq₁
      · obtain ⟨m₂, hfill, hret⟩ := Res.bind_eq_ok.mp hret
        cases hret
        exact ⟨rfl, hfill⟩
      · cases hret
        exact absurd ⟨hq, hflag⟩ hq₁
    have hall : ∀ i < n.toNat, mem' (q + UInt32.ofNat i) = 0 := fun i hi =>
      fillBytes_filled hi hzeroed.2
    constructor
    · rintro ⟨hkept, -⟩
      exact .inr fun i hi => by rw [← hkept i hi, hall i (Nat.lt_min.mp hi).2]
    · intro hold
      refine ⟨fun i hi => ?_, fun _ i _ hi => hall i hi⟩
      rw [hall i (Nat.lt_min.mp hi).2, hold.resolve_left hflag i hi]

theorem heapReAlloc_keeps_iff_fortyBytes : ∃ h' q mem',
    Kernel32.heapReAlloc (fun _ => true) true 0 0x0F100000 2 fortyBytes.heap UInt32.toUInt8 =
        .ok (h', q, mem') ∧ q ≠ 0 ∧ DataKept UInt32.toUInt8 mem' 0x0F100000 q 40 2 0 := by
  have hrun : ((Kernel32.heapReAlloc (fun _ => true) true 0 0x0F100000 2 fortyBytes.heap
      UInt32.toUInt8).okAnd fun r => r.2.1 ≠ 0) = true := by decide
  obtain ⟨⟨h', q, mem'⟩, hret, hq⟩ := Res.okAnd_iff.mp hrun
  have hq := of_decide_eq_true hq
  exact ⟨h', q, mem', hret, hq,
    (heapReAlloc_keeps_iff (m := 40) fortyBytes_reached (by decide) hret hq).mpr (.inl rfl)⟩

/-- The block held 1 everywhere and was to grow to 48 bytes. -/
theorem heapReAlloc_loses : ¬ ∀ (start p m n q flags : UInt32) (r : HeapRun) (mapped : UInt32 → Bool)
    (moves : Bool) (mem mem' : Ram) (h' : Heap), HeapReached start r → ⟨p, m⟩ ∈ r.blocks →
      Kernel32.heapReAlloc mapped moves flags p n r.heap mem = .ok (h', q, mem') → q ≠ 0 →
        DataKept mem mem' p q m.toNat n.toNat flags := by
  intro h
  have hrun : ((Kernel32.heapReAlloc (fun _ => true) true 8 0x0F100000 48 fortyBytes.heap
      fun _ => 1).okAnd fun r => r.2.1 ≠ 0 ∧ r.2.2 r.2.1 = 0) = true := by decide
  obtain ⟨⟨h', q, mem'⟩, hret, hq⟩ := Res.okAnd_iff.mp hrun
  obtain ⟨hq, hzero⟩ := of_decide_eq_true hq
  have hkept := (h _ _ 40 _ _ _ _ _ _ _ _ _ fortyBytes_reached (by decide) hret hq).1 0 (by decide)
  dsimp only at hq hzero
  simp [hzero] at hkept

end

end Winlift

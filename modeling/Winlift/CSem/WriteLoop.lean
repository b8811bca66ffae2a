import Winlift.CSem.Loop
import Winlift.CSem.Word

/-!
# Writing with retries

`write` may take fewer bytes than it is offered. `writeAll` is the loop that offers the rest again
until everything is taken or a call takes nothing: what was sent is then a prefix of the buffer, and
the whole of it iff no call refuses while bytes are left (`writeAll_spec`).
-/

namespace CSem

/-- The results of calls to `write`: `result k n` is what call `k` returns when it is offered `n`
bytes. -/
structure WriteCalls where
  result : Nat → UInt32 → Int
  le_count : ∀ k n, result k n ≤ n.toNat
  fits_long : ∀ k n, result k n < 2 ^ 31

/-- The calls that take at most `bound k` bytes at a time, and all they are offered below that. -/
def WriteCalls.upTo (bound : Nat → Int) (hbound : ∀ k, bound k < 2 ^ 31) : WriteCalls where
  result k n := min (bound k) n.toNat
  le_count _ _ := min_le_right ..
  fits_long k _ := lt_of_le_of_lt (min_le_left ..) (hbound k)

/-- A call that took bytes. -/
structure Taken where
  fd : Int
  bytes : List UInt8
deriving DecidableEq, Repr

def sent (calls : List Taken) : List UInt8 := calls.flatMap (·.bytes)

/-- The `n` bytes of the buffer from `i` on. -/
def bytesFrom (buf : UInt32 → UInt8) (i : UInt32) (n : Nat) : List UInt8 :=
  (List.range n).map fun k => buf (i + UInt32.ofNat k)

structure WriteState where
  done : UInt32
  calls : List Taken
deriving DecidableEq, Repr

def writeStep (w : WriteCalls) (fd : Int) (buf : UInt32 → UInt8) (n : UInt32) (s : WriteState) :
    Step WriteState WriteState :=
  if s.done < n then
    let r := w.result s.calls.length (n - s.done)
    if r ≤ 0 then .done s
    else .more ⟨s.done + UInt32.ofInt r, s.calls ++ [⟨fd, bytesFrom buf s.done r.toNat⟩]⟩
  else .done s

def writeAll {ε : Type} (w : WriteCalls) (fuel : Nat) (fd : Int) (buf : UInt32 → UInt8) (n : UInt32) :
    Res ε WriteState :=
  loop (fun s => .ok (writeStep w fd buf n s)) fuel ⟨0, []⟩

/-! ### What the calls take -/

namespace WriteCalls
variable (w : WriteCalls) (n : UInt32)

/-- How many of `n` bytes the first `k` calls take. -/
def taken : Nat → Nat
  | 0 => 0
  | k + 1 => taken k + (w.result k (n - UInt32.ofNat (taken k))).toNat

/-- No call refuses while bytes are left. -/
def TakesAll : Prop := ∀ k, w.taken n k < n.toNat → 0 < w.result k (n - UInt32.ofNat (w.taken n k))

theorem taken_le (k : Nat) : w.taken n k ≤ n.toNat := by
  induction k with
  | zero => exact Nat.zero_le _
  | succ k ih =>
    have hle := w.le_count k (n - UInt32.ofNat (w.taken n k))
    rw [toNat_sub_ofNat ih] at hle
    rw [taken]
    omega

theorem upTo_takesAll {bound : Nat → Int} {hbound : ∀ k, bound k < 2 ^ 31} (hpos : ∀ k, 0 < bound k) :
    (upTo bound hbound).TakesAll n := by
  intro k hk
  refine lt_min (hpos k) ?_
  rw [toNat_sub_ofNat (Nat.le_of_lt hk)]
  omega

theorem taken_mono : Monotone (w.taken n) :=
  monotone_nat_of_le_succ fun _ => Nat.le_add_right _ _

end WriteCalls

theorem bytesFrom_add (buf : UInt32 → UInt8) (m n : Nat) :
    bytesFrom buf 0 (m + n) = bytesFrom buf 0 m ++ bytesFrom buf (UInt32.ofNat m) n := by
  simp [bytesFrom, List.range_add, Function.comp_def, UInt32.ofNat_add]

@[simp] theorem length_bytesFrom (buf : UInt32 → UInt8) (i : UInt32) (n : Nat) :
    (bytesFrom buf i n).length = n := by
  simp [bytesFrom]

/-! ### The loop -/

section
variable {ε : Type} {w : WriteCalls} {fd : Int} {buf : UInt32 → UInt8} {n : UInt32} {s s' : WriteState}

theorem writeStep_eq_more : writeStep w fd buf n s = .more s' ↔
    s.done < n ∧ 0 < w.result s.calls.length (n - s.done) ∧
      s' = ⟨s.done + UInt32.ofInt (w.result s.calls.length (n - s.done)),
        s.calls ++ [⟨fd, bytesFrom buf s.done (w.result s.calls.length (n - s.done)).toNat⟩]⟩ := by
  simp only [writeStep]
  split_ifs with hlt hr
  · simp [hlt, Int.not_lt.mpr hr]
  · simp only [Step.more.injEq, hlt, Int.not_le.mp hr, true_and]
    exact eq_comm
  · simp [hlt]

theorem writeStep_eq_done : writeStep w fd buf n s = .done s' ↔
    (s.done < n → w.result s.calls.length (n - s.done) ≤ 0) ∧ s' = s := by
  simp only [writeStep]
  split_ifs with hlt hr
  · simp only [Step.done.injEq, hr, implies_true, true_and]
    exact eq_comm
  · simp [hlt, hr]
  · simp only [Step.done.injEq, hlt, false_implies, true_and]
    exact eq_comm

/-- The state after `k` passes, in terms of what the calls take. -/
theorem writeStep_passes {k : Nat}
    (hp : Passes (ε := ε) (fun s => .ok (writeStep w fd buf n s)) k ⟨0, []⟩ s) :
    s.calls.length = k ∧ s.done = UInt32.ofNat (w.taken n k) ∧ (∀ c ∈ s.calls, c.fd = fd) ∧
      sent s.calls = bytesFrom buf 0 (w.taken n k) ∧
        ∀ j < k, 0 < w.result j (n - UInt32.ofNat (w.taken n j)) := by
  generalize hs₀ : (⟨0, []⟩ : WriteState) = s₀ at hp
  induction hp with
  | zero =>
    subst hs₀
    exact ⟨rfl, rfl, by simp, rfl, by simp⟩
  | @snoc k _ t _ _ hmore ih =>
    obtain ⟨hlen, hdone, hfd, hsent, hpos⟩ := ih hs₀
    obtain ⟨-, hr, rfl⟩ := writeStep_eq_more.mp (Res.ok.inj hmore)
    rw [hlen, hdone] at hr ⊢
    refine ⟨by simp [hlen], ?_, ?_, ?_, fun j hj => ?_⟩
    · rw [ofInt_of_nonneg (Int.le_of_lt hr), WriteCalls.taken, UInt32.ofNat_add]
    · rw [List.forall_mem_append, List.forall_mem_singleton]
      exact ⟨hfd, rfl⟩
    · rw [WriteCalls.taken, bytesFrom_add, ← hsent]
      simp [sent]
    · rcases Nat.lt_or_eq_of_le (Nat.le_of_lt_succ hj) with hlt | rfl
      · exact hpos j hlt
      · exact hr

/-- Every pass takes a byte. -/
theorem le_taken {k : Nat} (h : ∀ j < k, 0 < w.result j (n - UInt32.ofNat (w.taken n j))) :
    k ≤ w.taken n k := by
  induction k with
  | zero => exact Nat.zero_le _
  | succ k ih =>
    have hlast := h k (Nat.lt_succ_self k)
    have hle := ih fun j hj => h j (Nat.lt_succ_of_lt hj)
    rw [WriteCalls.taken]
    omega

theorem exists_writeAll {fuel : Nat} (hfuel : n.toNat < fuel) :
    ∃ s, (writeAll w fuel fd buf n : Res ε WriteState) = .ok s := by
  refine exists_loop fun s hp => ?_
  obtain ⟨-, -, -, -, hpos⟩ := writeStep_passes hp
  have hle := le_taken hpos
  have hmax := w.taken_le n fuel
  omega

/-- What was sent is what the buffer starts with; it is all of it iff no call refuses. -/
theorem writeAll_spec {fuel : Nat} (h : (writeAll w fuel fd buf n : Res ε WriteState) = .ok s) :
    s.done ≤ n ∧ (∀ c ∈ s.calls, c.fd = fd) ∧ sent s.calls = bytesFrom buf 0 s.done.toNat ∧
      (s.done = n ↔ w.TakesAll n) := by
  obtain ⟨k, t, -, hp, hdone⟩ := loop_eq_ok.mp h
  obtain ⟨hstop, rfl⟩ := writeStep_eq_done.mp (Res.ok.inj hdone)
  obtain ⟨hlen, hd, hfd, hsent, hpos⟩ := writeStep_passes hp
  have hle := w.taken_le n k
  have hnat : s.done.toNat = w.taken n k := by
    rw [hd, UInt32.toNat_ofNat_of_lt' (Nat.lt_of_le_of_lt hle n.toNat_lt)]
  refine ⟨UInt32.le_iff_toNat_le.mpr (hnat ▸ hle), hfd, hnat ▸ hsent, ?_⟩
  constructor
  · intro hall j hj
    rcases Nat.lt_or_ge j k with hjk | hkj
    · exact hpos j hjk
    · have hmono := w.taken_mono n hkj
      rw [hall] at hnat
      omega
  · intro hall
    by_contra hne
    have hlt : s.done < n := by
      rw [UInt32.lt_iff_toNat_lt]
      have hnat' : s.done.toNat ≠ n.toNat := fun heq => hne (UInt32.toNat_inj.mp heq)
      omega
    have hr := hall k (hnat ▸ UInt32.lt_iff_toNat_lt.mp hlt)
    rw [← hd, ← hlen] at hr
    exact absurd (hstop hlt) (Int.not_le.mpr hr)

/-- Where every call refuses nothing is sent. -/
theorem writeAll_of_refused {fuel : Nat} (hr : ∀ k n, w.result k n ≤ 0)
    (h : (writeAll w fuel fd buf n : Res ε WriteState) = .ok s) : s = ⟨0, []⟩ := by
  obtain ⟨k, t, -, hp, hdone⟩ := loop_eq_ok.mp h
  obtain ⟨-, rfl⟩ := writeStep_eq_done.mp (Res.ok.inj hdone)
  rcases Nat.eq_zero_or_pos k with rfl | hk
  · cases hp
    rfl
  · obtain ⟨-, -, -, -, hpos⟩ := writeStep_passes hp
    exact absurd (hpos 0 hk) (Int.not_lt.mpr (hr ..))

end

end CSem

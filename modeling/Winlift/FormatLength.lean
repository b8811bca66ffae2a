import Winlift.FormatGrammar

/-!
# Long renderings

The formatter counts what it puts out in 32 bits and returns the count as an `int`, so that it keeps its
promises for renderings shorter than `2^31` (`vformat_prefix_iff`). `vfprintf` puts a rendering into a
buffer of 1024 bytes, and what does not fit there is never written (`vfprintf_complete_iff`).
-/

namespace Winlift
open CSem

/-! ### `shim_vformat` -/

/-- The result is the length of the rendering, and the buffer holds what fits of it and a NUL. -/
structure PrefixOf (bufcap : UInt32) (text : List UInt8) (ret : Int) (buf : Buffer) : Prop where
  ret : ret = text.length
  buf : 0 < bufcap → buf.Has 0 (text.take (min text.length (bufcap.toNat - 1)) ++ [0])

/-- No run reads behind the format's NUL or writes behind the buffer; a run keeps its promises iff the
rendering is shorter than `2^31`. -/
theorem vformat_prefix_iff (bufcap : UInt32) (fmt : CStr) (va : VaList) (stack : Nat → UInt8) :
    ∃ ret buf', shimVformat bufcap fmt va ⟨bufcap.toNat, stack⟩ = .ok (ret, buf') ∧
      (PrefixOf bufcap (rendering fmt va) ret buf' ↔ (rendering fmt va).length < 2 ^ 31) := by
  obtain ⟨buf', hrun, hhas⟩ := shimVformat_spec fmt va (show (⟨bufcap.toNat, stack⟩ : Buffer).size = _ from rfl)
  refine ⟨_, buf', hrun, ?_⟩
  constructor
  · intro h
    have hret := h.ret
    unfold int32 at hret
    omega
  · intro hlen
    refine ⟨int32_of_nat_lt hlen, fun hcap => ?_⟩
    rw [Nat.min_comm, ← List.take_eq_take_min]
    exact hhas (by omega) hcap

/-- `%s%s`. -/
def twoStrings : List Piece := [.conv [] 0 .s (by simp), .conv [] 0 .s (by simp)]

theorem length_rendering_twoStrings {va : VaList} (hslot : ∀ k, va.slot k = 1) :
    (rendering (formatOf twoStrings) va).length = 2 * (va.str 1).bytes.length := by
  rw [rendering_plain (by decide), Nat.two_mul]
  simp [textOf, twoStrings, Piece.text, Conv.text, hslot]

theorem exists_longString (n : Nat) :
    ∃ va : VaList, (∀ k, va.slot k = 1) ∧ (va.str 1).bytes.length = n := by
  have hno : (0 : UInt8) ∉ List.replicate n 'a'.toUInt8 := fun h =>
    absurd (List.eq_of_mem_replicate h) (by decide)
  exact ⟨⟨fun _ => 1, fun _ => ⟨_, hno⟩⟩, fun _ => rfl, List.length_replicate⟩

/-- A string of `2^30` bytes is printed twice. -/
theorem vformat_length_wraps : ¬ ∀ (bufcap : UInt32) (fmt : CStr) (va : VaList) (stack : Nat → UInt8),
    ∃ ret buf', shimVformat bufcap fmt va ⟨bufcap.toNat, stack⟩ = .ok (ret, buf') ∧
      PrefixOf bufcap (rendering fmt va) ret buf' := by
  intro h
  obtain ⟨va, hslot, hlen⟩ := exists_longString (2 ^ 30)
  obtain ⟨ret, buf', hrun, hkept⟩ := h 16 (formatOf twoStrings) va fun _ => 0
  obtain ⟨buf'', hrun', -⟩ := shimVformat_spec (formatOf twoStrings) va
    (show (⟨UInt32.toNat 16, fun _ => 0⟩ : Buffer).size = _ from rfl)
  have hret : ret = int32 (rendering (formatOf twoStrings) va).length :=
    congrArg Prod.fst (Res.ok.inj (hrun.symm.trans hrun'))
  rw [hkept.ret, length_rendering_twoStrings hslot, hlen] at hret
  exact absurd hret (by decide)

/-! ### `shim_msvcrt_vfprintf` -/

/-- The stream's descriptor got the whole text, and the result is its length. -/
structure Printed (fd : Int) (text : List UInt8) (ret : Int) (calls : List Taken) : Prop where
  fd : ∀ c ∈ calls, c.fd = fd
  sent : sent calls = text
  ret : ret = text.length

/-- Every call takes at least one of the bytes it is offered. -/
def WritesSome (w : WriteCalls) : Prop := ∀ k n, 0 < n → 0 < w.result k n

theorem WritesSome.takesAll {w : WriteCalls} (h : WritesSome w) (n : UInt32) : w.TakesAll n := by
  intro k hk
  refine h k _ (UInt32.lt_iff_toNat_lt.mpr ?_)
  rw [toNat_sub_ofNat (Nat.le_of_lt hk), UInt32.toNat_zero]
  omega

section
variable {w : WriteCalls} {fuel : Nat} (iob stream : UInt32) (fmt : CStr) (va : VaList)
  (stack : Nat → UInt8)

/-- The number of bytes offered to `write`. -/
theorem clamp_toNat (len : Int) (n : UInt32) (hn : n = if len < 0 then 0 else UInt32.ofInt len)
    (hlen : len < 2 ^ 31) : (if 1024 - 1 < n then 1024 - 1 else n).toNat = min len.toNat 1023 := by
  have hn' : n.toNat = len.toNat := by
    rw [hn]
    split_ifs with hneg
    · rw [UInt32.toNat_zero]
      omega
    · rw [ofInt_of_nonneg (by omega), UInt32.toNat_ofNat_of_lt' (show len.toNat < 2 ^ 32 by omega)]
  have hmax : (1024 - 1 : UInt32).toNat = 1023 := rfl
  split_ifs with h
  · rw [UInt32.lt_iff_toNat_lt, hmax] at h
    omega
  · rw [UInt32.lt_iff_toNat_lt, hmax] at h
    omega

theorem bytesFrom_has {b : Buffer} {l : List UInt8} (h : b.Has 0 l) (hlen : l.length < 2 ^ 32) :
    bytesFrom (fun i => b.byte i.toNat) 0 l.length = l := by
  refine List.ext_getElem (length_bytesFrom ..) fun k _ hk => ?_
  have hof : (UInt32.ofNat k).toNat = k := UInt32.toNat_ofNat_of_lt' (Nat.lt_trans hk hlen)
  have hbyte := h k hk
  rw [Nat.zero_add] at hbyte
  simp only [bytesFrom, List.getElem_map, List.getElem_range, UInt32.zero_add, hof, hbyte]

/-- What is sent is at most what the buffer holds, and that is all of it when the rendering fits. -/
theorem vfprintf_spec (hw : WritesSome w) (hfuel : 1023 < fuel) :
    ∃ ret calls, Msvcrt.vfprintf w fuel iob stream fmt va stack = .ok (ret, calls) ∧
      (sent calls).length ≤ 1023 ∧ ((rendering fmt va).length ≤ 1023 →
        Printed (shimIobToFd iob stream) (rendering fmt va) ret calls) := by
  obtain ⟨buf', hrun, hhas⟩ := shimVformat_spec fmt va
    (show (⟨1024, stack⟩ : Buffer).size = UInt32.toNat 1024 from rfl)
  have hshort : int32 (rendering fmt va).length < 2 ^ 31 := by
    unfold int32
    omega
  generalize hn₀ : (if int32 (rendering fmt va).length < 0 then 0
    else UInt32.ofInt (int32 (rendering fmt va).length)) = n₀
  have hn := clamp_toNat _ n₀ hn₀.symm hshort
  generalize hn₁ : (if 1024 - 1 < n₀ then 1024 - 1 else n₀) = n at hn
  obtain ⟨s, hs⟩ : ∃ s, (writeAll w fuel (shimIobToFd iob stream) (fun i => buf'.byte i.toNat) n :
      Res Empty WriteState) = .ok s := exists_writeAll (by omega)
  obtain ⟨-, hfd, hsent, hall⟩ := writeAll_spec hs
  rw [hall.mpr (hw.takesAll n)] at hsent
  refine ⟨int32 n.toNat, s.calls, ?_, ?_, fun hle => ?_⟩
  · simp only [Msvcrt.vfprintf, hrun, Res.ok_bind, hn₀, hn₁, hs, hall.mpr (hw.takesAll n)]
  · rw [hsent, length_bytesFrom]
    omega
  · rw [int32_of_nat_lt (by omega)] at hn
    have hlen : n.toNat = (rendering fmt va).length := by omega
    have htext := hhas (by omega) (by decide)
    rw [List.take_of_length_le (show _ ≤ UInt32.toNat 1024 - 1 from hle)] at htext
    refine ⟨hfd, ?_, ?_⟩
    · rw [hsent, hlen]
      exact bytesFrom_has (Buffer.has_append.mp htext).1 (by omega)
    · rw [hlen, int32_of_nat_lt (by omega)]

/-- With every call of `write` taking something, a rendering gets out whole iff it and a NUL fit the
buffer. -/
theorem vfprintf_complete_iff (hw : WritesSome w) (hfuel : 1023 < fuel) :
    ∃ ret calls, Msvcrt.vfprintf w fuel iob stream fmt va stack = .ok (ret, calls) ∧
      (Printed (shimIobToFd iob stream) (rendering fmt va) ret calls ↔
        (rendering fmt va).length ≤ 1023) := by
  obtain ⟨ret, calls, hrun, hle, hprinted⟩ := vfprintf_spec iob stream fmt va stack hw hfuel
  refine ⟨ret, calls, hrun, fun h => ?_, hprinted⟩
  rw [← h.sent]
  exact hle

end

/-- Calls that take three bytes at a time. -/
def threes : WriteCalls := .upTo (fun _ => 3) fun _ => by decide

theorem threes_writesSome : WritesSome threes := fun _ n hn => by
  have hn' := UInt32.lt_iff_toNat_lt.mp hn
  rw [UInt32.toNat_zero] at hn'
  exact lt_min (show (0 : Int) < 3 by decide) (by omega)

theorem vfprintf_complete_sevens : ∃ ret calls,
    Msvcrt.vfprintf threes 1024 0x08000000 0x08000040 (formatOf [.conv [] 2 .d (by simp)]) sevens
        (fun _ => 0) = .ok (ret, calls) ∧ Printed 2 ['7'.toUInt8] ret calls := by
  have hplain : ∀ x ∈ [Piece.conv [] 2 .d (by simp)], x.Plain := by decide
  obtain ⟨ret, calls, hrun, hiff⟩ := vfprintf_complete_iff 0x08000000 0x08000040
    (formatOf [.conv [] 2 .d (by simp)]) sevens (fun _ => 0) threes_writesSome (show 1023 < 1024 by decide)
  rw [rendering_plain hplain] at hiff
  exact ⟨ret, calls, hrun, hiff.mpr (by decide)⟩

/-- A string of 512 bytes is printed twice. -/
theorem vfprintf_truncates : ¬ ∀ (w : WriteCalls) (fuel : Nat) (iob stream : UInt32) (fmt : CStr)
    (va : VaList) (stack : Nat → UInt8), WritesSome w → 1023 < fuel →
      ∃ ret calls, Msvcrt.vfprintf w fuel iob stream fmt va stack = .ok (ret, calls) ∧
        Printed (shimIobToFd iob stream) (rendering fmt va) ret calls := by
  intro h
  obtain ⟨va, hslot, hlen⟩ := exists_longString 512
  obtain ⟨ret, calls, hrun, hprinted⟩ := h threes 1024 0x08000000 0x08000020 (formatOf twoStrings) va
    (fun _ => 0) threes_writesSome (by decide)
  obtain ⟨ret', calls', hrun', hle, -⟩ := vfprintf_spec 0x08000000 0x08000020
    (formatOf twoStrings) va (fun _ => 0) threes_writesSome (show 1023 < 1024 by decide)
  cases hrun.symm.trans hrun'
  rw [hprinted.sent, length_rendering_twoStrings hslot, hlen] at hle
  exact absurd hle (by decide)

end Winlift

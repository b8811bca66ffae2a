import Mathlib.Data.Nat.Digits.Defs
import Winlift.ShimFormat

/-!
# What the formatter puts out

`text` says what a conversion is to put out; that does not depend on where it goes. A pass of the loop
then is a list of characters and a new position (`Puts`), whatever `put` is, and so is a whole run
(`vformatLoop_eq`). A bounded buffer and a list therefore get the same characters, and what the buffer
keeps of them is a fact about `outChar` alone (`shimVformat_spec`).
-/

namespace Winlift
open CSem

/-! ### Numbers -/

def digitText (upper : Bool) (d : Nat) : UInt8 := (digits upper).getD d 0

/-- `v` in base `base`, most significant digit first. -/
def uintText (base : Nat) (upper : Bool) (v : Nat) : List UInt8 :=
  if v = 0 then ['0'.toUInt8] else ((Nat.digits base v).reverse).map (digitText upper)

def intText (v : UInt32) : List UInt8 :=
  let n := int32 v.toNat
  if n < 0 then '-'.toUInt8 :: uintText 10 false n.natAbs else uintText 10 false n.natAbs

def Conv.text (str : UInt32 → CStr) (v : UInt32) : Conv → List UInt8
  | .d | .i => intText v
  | .u => uintText 10 false v.toNat
  | .x => uintText 16 false v.toNat
  | .X => uintText 16 true v.toNat
  | .p => cBytes "0x" ++ uintText 16 false v.toNat
  | .c => [v.toUInt8]
  | .s => if v = 0 then cBytes "(null)" else (str v).bytes
  | .percent => ['%'.toUInt8]

theorem length_digits (upper : Bool) : (digits upper).length = 16 := by
  cases upper <;> rfl

theorem uintDigits_eq {base : UInt32} (h₁ : 1 < base.toNat) (h₂ : base.toNat ≤ 16) (upper : Bool)
    {room : Nat} {v : UInt32} (hv : v.toNat < base.toNat ^ room) (tmp : List UInt8) :
    uintDigits base upper room v tmp =
      .ok (tmp ++ (Nat.digits base.toNat v.toNat).map (digitText upper)) := by
  induction room generalizing v tmp with
  | zero =>
    have hzero : v = 0 := UInt32.toNat_inj.mp (Nat.lt_one_iff.mp hv)
    simp [uintDigits, hzero]
  | succ room ih =>
    rw [uintDigits]
    split_ifs with hzero
    · simp [hzero]
    · have hpos : 0 < v.toNat := Nat.pos_of_ne_zero fun h => hzero (UInt32.toNat_inj.mp h)
      have hmod : v.toNat % base.toNat < (digits upper).length := by
        rw [length_digits]
        exact Nat.lt_of_lt_of_le (Nat.mod_lt _ (Nat.zero_lt_of_lt h₁)) h₂
      have hdiv : (v / base).toNat < base.toNat ^ room := by
        rw [UInt32.toNat_div]
        exact Nat.div_lt_of_lt_mul (by rwa [Nat.pow_succ'] at hv)
      rw [UInt32.toNat_mod, List.getElem?_eq_getElem hmod]
      dsimp only
      rw [ih hdiv, UInt32.toNat_div, Nat.digits_def' h₁ hpos, List.map_cons, List.append_assoc]
      simp [digitText, hmod]

section
variable {σ : Type} {put : σ → UInt8 → Res Empty σ} {o : σ}

theorem outUint_eq {base : UInt32} (h₁ : 1 < base.toNat) (h₂ : base.toNat ≤ 16) (v : UInt32)
    (upper : Bool) :
    outUint put o v base upper = (uintText base.toNat upper v.toNat).foldlM put o := by
  rw [outUint, uintText]
  rcases eq_or_ne v 0 with hzero | hzero
  · simp [hzero]
  · have hne : v.toNat ≠ 0 := fun h => hzero (UInt32.toNat_inj.mp h)
    have hfits : v.toNat < base.toNat ^ 32 :=
      Nat.lt_of_lt_of_le v.toNat_lt (Nat.pow_le_pow_left h₁ 32)
    rw [if_neg hzero, if_neg hne, uintDigits_eq h₁ h₂ upper hfits, Res.ok_bind, List.nil_append,
      List.map_reverse]

theorem outUint_dec (v : UInt32) :
    outUint put o v 10 false = (uintText 10 false v.toNat).foldlM put o :=
  outUint_eq (by decide) (by decide) v false

theorem outUint_hex (v : UInt32) (upper : Bool) :
    outUint put o v 16 upper = (uintText 16 upper v.toNat).foldlM put o :=
  outUint_eq (by decide) (by decide) v upper

theorem neg_toNat_of_neg {v : UInt32} (h : int32 v.toNat < 0) : (-v).toNat = (int32 v.toNat).natAbs := by
  have hv := v.toNat_lt
  rw [int32_natCast] at h ⊢
  rw [UInt32.toNat_neg, UInt32.size]
  split_ifs at h ⊢ <;> omega

theorem toNat_of_nonneg {v : UInt32} (h : ¬ int32 v.toNat < 0) : v.toNat = (int32 v.toNat).natAbs := by
  have hv := v.toNat_lt
  rw [int32_natCast] at h ⊢
  split_ifs at h ⊢ <;> omega

theorem outInt_eq (v : UInt32) : outInt put o v = (intText v).foldlM put o := by
  rw [outInt, intText]
  split_ifs with hneg
  · rw [List.foldlM_cons]
    refine bind_congr fun o => ?_
    rw [outUint_dec, neg_toNat_of_neg hneg]
  · rw [outUint_dec, ← toNat_of_nonneg hneg]

theorem Conv.out_eq (str : UInt32 → CStr) (v : UInt32) (k : Conv) :
    k.out put str v o = (k.text str v).foldlM put o := by
  cases k with
  | d => exact outInt_eq v
  | i => exact outInt_eq v
  | u => exact outUint_dec v
  | x => exact outUint_hex v false
  | X => exact outUint_hex v true
  | p =>
    rw [Conv.text, List.foldlM_append]
    exact bind_congr fun o => outUint_hex v false
  | c => exact (bind_pure _).symm
  | s =>
    rw [Conv.out, Conv.text, outStr]
    split_ifs <;> rfl
  | percent => exact (bind_pure _).symm

end

/-! ### One pass -/

section
variable (fmt : CStr) (va : VaList)

/-- At position `p`, with `arg` arguments taken, a pass puts out `bytes` and goes on at `p'`. -/
def Puts (p arg : Nat) (bytes : List UInt8) (p' arg' : Nat) : Prop :=
  ∀ (σ : Type) (put : σ → UInt8 → Res Empty σ) (o : σ), vformatStep put fmt va ⟨p, arg, o⟩ =
    bytes.foldlM put o >>= fun o => .ok (.more ⟨p', arg', o⟩)

variable {fmt va} {p q r arg : Nat}

theorem vformatStep_end {σ : Type} (put : σ → UInt8 → Res Empty σ) (o : σ) :
    vformatStep put fmt va ⟨fmt.bytes.length, arg, o⟩ = .ok (.done ⟨fmt.bytes.length, arg, o⟩) := by
  simp [vformatStep, CStr.read_end]

theorem puts_literal {c : UInt8} (hread : (fmt.read p : Res Empty UInt8) = .ok c) (hzero : c ≠ 0)
    (hc : c ≠ '%'.toUInt8) : Puts fmt va p arg [c] (p + 1) arg := by
  intro σ put o
  simp only [vformatStep, hread, Res.ok_bind, hzero, if_false, hc, ne_eq, not_false_eq_true, if_true,
    List.foldlM_cons, List.foldlM_nil, bind_pure]

section
variable (hpercent : (fmt.read p : Res Empty UInt8) = .ok '%'.toUInt8)
  (hlongs : (fmt.scan isLong (p + 1) : Res Empty Nat) = .ok q)
  (hflags : (fmt.scan isFlag q : Res Empty Nat) = .ok r)
include hpercent hlongs hflags

theorem puts_conv {k : Conv} (hr : (fmt.read r : Res Empty UInt8) = .ok k.label) :
    Puts fmt va p arg (k.text va.str (va.slot arg)) (r + 1) (arg + k.args) := by
  intro σ put o
  have hlabel : Conv.ofLabel k.label = some k := by cases k <;> decide
  simp only [vformatStep, hpercent, hlongs, hflags, hr, Res.ok_bind, hlabel, Conv.out_eq]
  rfl

theorem puts_other {c : UInt8} (hr : (fmt.read r : Res Empty UInt8) = .ok c) (hzero : c ≠ 0)
    (hother : Conv.ofLabel c = none) : Puts fmt va p arg ['%'.toUInt8, c] (r + 1) arg := by
  intro σ put o
  simp only [vformatStep, hpercent, hlongs, hflags, hr, Res.ok_bind, hother, hzero, if_false,
    List.foldlM_cons, bind_assoc]
  rfl

/-- A `%` with nothing but modifiers behind it puts out nothing and ends the format. -/
theorem puts_stray (hp : p < fmt.bytes.length) (hr : r = fmt.bytes.length) :
    Puts fmt va p arg [] fmt.bytes.length arg := by
  intro σ put o
  have hpos : fmt.bytes.length - 1 + 1 = fmt.bytes.length := by omega
  have hnul : Conv.ofLabel 0 = none := by decide
  simp only [vformatStep, hpercent, hlongs, hflags, hr, CStr.read_end, Res.ok_bind, hnul, if_true, hpos]
  rfl

end

theorem Conv.label_of_ofLabel {b : UInt8} {k : Conv} (h : Conv.ofLabel b = some k) : k.label = b :=
  of_decide_eq_true (List.find?_some (p := fun k => decide (Conv.label k = b)) h)

variable (va) in
/-- A pass moves on, and not behind the NUL. -/
theorem exists_puts (hp : p < fmt.bytes.length) (arg : Nat) :
    ∃ bytes p' arg', p < p' ∧ p' ≤ fmt.bytes.length ∧ Puts fmt va p arg bytes p' arg' := by
  have hread : (fmt.read p : Res Empty UInt8) = .ok fmt.bytes[p] := CStr.read_of_lt hp
  rcases eq_or_ne fmt.bytes[p] '%'.toUInt8 with hc | hc
  · rw [hc] at hread
    obtain ⟨q, hlongs, hpq, hq⟩ := CStr.exists_scan (ε := Empty) (s := fmt) (show isLong 0 = false by decide) hp
    obtain ⟨r, hflags, hqr, hr⟩ := CStr.exists_scan (ε := Empty) (s := fmt) (show isFlag 0 = false by decide) hq
    rcases Nat.lt_or_eq_of_le hr with hlt | heq
    · have hnext : (fmt.read r : Res Empty UInt8) = .ok fmt.bytes[r] := CStr.read_of_lt hlt
      cases hk : Conv.ofLabel fmt.bytes[r] with
      | some k =>
        rw [← Conv.label_of_ofLabel hk] at hnext
        exact ⟨_, _, _, by omega, hlt, puts_conv hread hlongs hflags hnext⟩
      | none => exact ⟨_, _, _, by omega, hlt, puts_other hread hlongs hflags hnext
          (CStr.getElem_ne_zero hlt) hk⟩
    · exact ⟨_, _, _, hp, Nat.le_refl _, puts_stray hread hlongs hflags hp heq⟩
  · exact ⟨_, _, _, Nat.lt_succ_self p, hp, puts_literal hread (CStr.getElem_ne_zero hp) hc⟩

/-! ### A run -/

theorem exists_run {fuel : Nat} (hp : p ≤ fmt.bytes.length) (hfuel : fmt.bytes.length < p + fuel) :
    ∃ (bytes : List UInt8) (arg' : Nat), ∀ {σ : Type} (put : σ → UInt8 → Res Empty σ) (o : σ),
      loop (vformatStep put fmt va) fuel ⟨p, arg, o⟩ =
        bytes.foldlM put o >>= fun o => .ok ⟨fmt.bytes.length, arg', o⟩ := by
  induction fuel generalizing p arg with
  | zero => omega
  | succ fuel ih =>
    rcases Nat.lt_or_eq_of_le hp with hlt | rfl
    · obtain ⟨bytes, p', arg₁, hpp, hp', hputs⟩ := exists_puts va hlt arg
      obtain ⟨rest, arg', hrest⟩ := @ih p' arg₁ hp' (by omega)
      refine ⟨bytes ++ rest, arg', fun put o => ?_⟩
      rw [loop_succ, hputs, bind_assoc, List.foldlM_append, bind_assoc]
      exact bind_congr fun o => hrest put o
    · exact ⟨[], arg, fun put o => loop_done (vformatStep_end put o)⟩

@[simp] theorem foldlM_collect (bytes o : List UInt8) : bytes.foldlM collect o = .ok (o ++ bytes) := by
  induction bytes generalizing o with
  | nil => rw [List.append_nil]; rfl
  | cons c bytes ih => rw [List.foldlM_cons, collect, Res.ok_bind, ih, List.append_assoc]; rfl

variable (fmt va) in
/-- What the formatter puts out, with room for everything. -/
def rendering : List UInt8 :=
  match vformatLoop collect fmt va [] with
  | .ok s => s.out
  | _ => []

/-- A run puts out the rendering, whatever it is put into. -/
theorem vformatLoop_eq (fmt : CStr) (va : VaList) : ∃ arg, ∀ {σ : Type} (put : σ → UInt8 → Res Empty σ)
    (o : σ), vformatLoop put fmt va o =
      (rendering fmt va).foldlM put o >>= fun o => .ok ⟨fmt.bytes.length, arg, o⟩ := by
  obtain ⟨bytes, arg, hrun⟩ : ∃ (bytes : List UInt8) (arg : Nat),
      ∀ {σ : Type} (put : σ → UInt8 → Res Empty σ) (o : σ), vformatLoop put fmt va o =
        bytes.foldlM put o >>= fun o => .ok ⟨fmt.bytes.length, arg, o⟩ :=
    exists_run (Nat.zero_le _) (by omega)
  have hbytes : rendering fmt va = bytes := by
    rw [rendering, hrun, foldlM_collect]
    rfl
  exact ⟨arg, fun put o => by rw [hbytes]; exact hrun put o⟩

end

/-! ### A bounded buffer -/

/-- `l` has been put out: the buffer holds what of it is below the capacity, as long as `pos` has not
wrapped. -/
structure OutHolds (bufcap : UInt32) (o : Out) (l : List UInt8) : Prop where
  pos : o.pos = UInt32.ofNat l.length
  size : o.buf.size = bufcap.toNat
  has : l.length ≤ 2 ^ 32 → o.buf.Has 0 (l.take bufcap.toNat)

section
variable {bufcap : UInt32} {o : Out} {l : List UInt8}

theorem outChar_holds (h : OutHolds bufcap o l) (c : UInt8) :
    ∃ o', outChar bufcap o c = .ok o' ∧ OutHolds bufcap o' (l ++ [c]) := by
  have hpos : o.pos + 1 = UInt32.ofNat (l ++ [c]).length := by
    rw [h.pos, List.length_append, List.length_singleton, UInt32.ofNat_add]
    rfl
  rw [outChar]
  split_ifs with hlt
  · have hlt' : o.pos.toNat < o.buf.size := h.size ▸ UInt32.lt_iff_toNat_lt.mp hlt
    refine ⟨⟨o.pos + 1, { o.buf with byte := Function.update o.buf.byte o.pos.toNat c }⟩,
      by rw [store8_of_lt c hlt', Res.ok_bind], ⟨hpos, h.size, fun hlen => ?_⟩⟩
    rw [List.length_append, List.length_singleton] at hlen
    have hlen' : o.pos.toNat = l.length := by
      rw [h.pos, UInt32.toNat_ofNat_of_lt' (show l.length < 2 ^ 32 by omega)]
    have hcap : l.length < bufcap.toNat := hlen' ▸ h.size ▸ hlt'
    have hold := h.has (by omega)
    rw [List.take_of_length_le (Nat.le_of_lt hcap)] at hold
    rw [List.take_of_length_le (by rw [List.length_append]; exact hcap), hlen']
    exact hold.store8 c
  · refine ⟨_, rfl, ⟨hpos, h.size, fun hlen => ?_⟩⟩
    rw [List.length_append, List.length_singleton] at hlen
    have hcap : bufcap.toNat ≤ l.length := by
      have hge := UInt32.le_iff_toNat_le.mp (UInt32.not_lt.mp hlt)
      rwa [h.pos, UInt32.toNat_ofNat_of_lt' (show l.length < 2 ^ 32 by omega)] at hge
    rw [List.take_append_of_le_length hcap]
    exact h.has (by omega)

theorem putAll_holds (h : OutHolds bufcap o l) (bytes : List UInt8) :
    ∃ o', bytes.foldlM (outChar bufcap) o = .ok o' ∧ OutHolds bufcap o' (l ++ bytes) := by
  induction bytes generalizing o l with
  | nil => exact ⟨o, rfl, by rwa [List.append_nil]⟩
  | cons c bytes ih =>
    obtain ⟨o₁, hput, h₁⟩ := outChar_holds h c
    obtain ⟨o', hrest, h'⟩ := ih h₁
    exact ⟨o', by rw [List.foldlM_cons, hput, Res.ok_bind, hrest], by simpa using h'⟩

theorem has_take {b : Buffer} {l : List UInt8} {n : Nat} (h : b.Has 0 l) : b.Has 0 (l.take n) := by
  intro k hk
  rw [h k (Nat.lt_of_lt_of_le hk (List.length_take_le' n l)), List.getElem_take]

/-- The NUL goes behind what the buffer keeps. -/
theorem store_nul (h : OutHolds bufcap o l) (hcap : 0 < bufcap) :
    ∃ buf', (store8 o.buf (if o.pos < bufcap then o.pos else bufcap - 1).toNat 0 : Res Empty Buffer) =
      .ok buf' ∧ (l.length < 2 ^ 32 → buf'.Has 0 (l.take (bufcap.toNat - 1) ++ [0])) := by
  have hcap' := UInt32.lt_iff_toNat_lt.mp hcap
  have hlast : (bufcap - 1).toNat = bufcap.toNat - 1 := toNat_sub_of_le hcap'
  rw [UInt32.toNat_zero] at hcap'
  split_ifs with hlt
  · have hlt' := UInt32.lt_iff_toNat_lt.mp hlt
    refine ⟨_, store8_of_lt 0 (h.size ▸ hlt'), fun hlen => ?_⟩
    have hpos : o.pos.toNat = l.length := by rw [h.pos, UInt32.toNat_ofNat_of_lt' hlen]
    have hall := h.has (Nat.le_of_lt hlen)
    rw [List.take_of_length_le (by omega)] at hall
    rw [List.take_of_length_le (by omega), hpos]
    exact hall.store8 0
  · have hge := UInt32.le_iff_toNat_le.mp (UInt32.not_lt.mp hlt)
    refine ⟨_, store8_of_lt 0 (by rw [h.size, hlast]; omega), fun hlen => ?_⟩
    rw [h.pos, UInt32.toNat_ofNat_of_lt' hlen] at hge
    have hkept := has_take (n := bufcap.toNat - 1) (h.has (Nat.le_of_lt hlen))
    rw [List.take_take, Nat.min_eq_left (Nat.sub_le _ _)] at hkept
    have hlen' : (l.take (bufcap.toNat - 1)).length = (bufcap - 1).toNat := by
      rw [List.length_take, hlast, Nat.min_eq_left (by omega)]
    rw [← hlen']
    exact hkept.store8 0

theorem int32_mod (n : Nat) : int32 ((n % 2 ^ 32 : Nat) : Int) = int32 n := by
  unfold int32
  omega

/-- On a buffer of the given capacity the formatter returns; it returns the length of the rendering as
an `int`, and the buffer holds what fits, as long as `pos` has not wrapped. -/
theorem shimVformat_spec (fmt : CStr) (va : VaList) {buf : Buffer} (hsize : buf.size = bufcap.toNat) :
    ∃ buf', shimVformat bufcap fmt va buf = .ok (int32 (rendering fmt va).length, buf') ∧
      ((rendering fmt va).length < 2 ^ 32 → 0 < bufcap →
        buf'.Has 0 ((rendering fmt va).take (bufcap.toNat - 1) ++ [0])) := by
  obtain ⟨arg, hrun⟩ := vformatLoop_eq fmt va
  have hstart : OutHolds bufcap ⟨0, buf⟩ [] := ⟨rfl, hsize, fun _ k hk => by simp at hk⟩
  obtain ⟨o, hput, ho⟩ := putAll_holds hstart (rendering fmt va)
  rw [List.nil_append] at ho
  have hret : int32 o.pos.toNat = int32 (rendering fmt va).length := by
    rw [ho.pos, UInt32.toNat_ofNat', int32_mod]
  by_cases hcap : 0 < bufcap
  · obtain ⟨buf', hstore, hhas⟩ := store_nul ho hcap
    refine ⟨buf', ?_, fun hlen _ => hhas hlen⟩
    simp only [shimVformat, hrun, hput, Res.ok_bind, hret, if_pos hcap, hstore]
  · refine ⟨o.buf, ?_, fun _ h => absurd h hcap⟩
    simp only [shimVformat, hrun, hput, Res.ok_bind, hret, if_neg hcap]

end

end Winlift

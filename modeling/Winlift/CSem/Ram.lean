import Mathlib.Logic.Function.Basic
import Winlift.CSem.Res
import Winlift.CSem.Word

/-!
# A 32-bit address space

A `Ram` gives every address a byte; a program may touch the addresses that are `mapped`, and faults
elsewhere. `storeFrom` is the loop that stores one byte an iteration to consecutive addresses, and
`copyBytes` and `fillBytes` are the two common cases. Addresses wrap, so a loop may run over its own
source: `copyBytes_copied` asks only that the bytes it is about were not overwritten before they were
read.
-/

namespace CSem

abbrev Ram := UInt32 → UInt8

variable {ε : Type} {mapped : UInt32 → Bool}

namespace Ram

def load (m : Ram) (mapped : UInt32 → Bool) (a : UInt32) : Res ε UInt8 :=
  if mapped a then .ok (m a) else .fault .outsideRead

def store (m : Ram) (mapped : UInt32 → Bool) (a : UInt32) (v : UInt8) : Res ε Ram :=
  if mapped a then .ok (Function.update m a v) else .fault .outsideStore

theorem load_eq_ok {m : Ram} {a : UInt32} {v : UInt8} :
    (m.load mapped a : Res ε UInt8) = .ok v ↔ mapped a = true ∧ m a = v := by
  unfold load
  split <;> simp [*]

theorem store_eq_ok {m m' : Ram} {a : UInt32} {v : UInt8} :
    (m.store mapped a v : Res ε Ram) = .ok m' ↔ mapped a = true ∧ Function.update m a v = m' := by
  unfold store
  split <;> simp [*]

end Ram

/-! ### Indices -/

theorem add_ofNat_inj {a : UInt32} {j k : Nat} (hj : j < 2 ^ 32) (hk : k < 2 ^ 32) :
    a + UInt32.ofNat j = a + UInt32.ofNat k ↔ j = k := by
  refine ⟨fun h => ?_, fun h => h ▸ rfl⟩
  have hnat := congrArg UInt32.toNat ((UInt32.add_right_inj a).mp h)
  rwa [UInt32.toNat_ofNat_of_lt' hj, UInt32.toNat_ofNat_of_lt' hk] at hnat

theorem add_ofNat_toNat {a : UInt32} {j : Nat} (h : a.toNat + j < 2 ^ 32) :
    (a + UInt32.ofNat j).toNat = a.toNat + j := by
  have hj : (UInt32.ofNat j).toNat = j := UInt32.toNat_ofNat_of_lt' (show j < 2 ^ 32 by omega)
  rw [toNat_add_of_lt (by omega), hj]

/-! ### The loop -/

/-- `for (; i < size; i++) dst[i] = …;`, with `n` iterations left. `val` is the right-hand side. -/
def storeFrom (mapped : UInt32 → Bool) (val : Ram → UInt32 → Res ε UInt8) (dst : UInt32) :
    Nat → UInt32 → Ram → Res ε Ram
  | 0, _, m => .ok m
  | n + 1, i, m => do
    let v ← val m i
    let m ← m.store mapped (dst + i) v
    storeFrom mapped val dst n (i + 1) m

section
variable {val : Ram → UInt32 → Res ε UInt8} {dst : UInt32} {m m' : Ram}

/-- The rule for an invariant `I` that is indexed by the number of bytes stored. -/
theorem storeFrom_induct {I : Nat → Ram → Prop} {n i : Nat}
    (step : ∀ j m v, j < i + n → I j m → val m (UInt32.ofNat j) = .ok v →
      mapped (dst + UInt32.ofNat j) = true → I (j + 1) (Function.update m (dst + UInt32.ofNat j) v))
    (hinit : I i m) (h : storeFrom mapped val dst n (UInt32.ofNat i) m = .ok m') : I (i + n) m' := by
  induction n generalizing i m with
  | zero =>
    cases h
    exact hinit
  | succ n ih =>
    obtain ⟨v, hv, h⟩ := Res.bind_eq_ok.mp h
    obtain ⟨m₁, hstore, h⟩ := Res.bind_eq_ok.mp h
    obtain ⟨hmapped, rfl⟩ := Ram.store_eq_ok.mp hstore
    have hrest := ih (i := i + 1) (fun j m v hj => step j m v (by omega))
      (step i m v (by omega) hinit hv hmapped) (by rwa [UInt32.ofNat_add])
    rwa [Nat.add_right_comm] at hrest

theorem exists_storeFrom {n i : Nat}
    (hval : ∀ j < i + n, ∀ m, ∃ v, val m (UInt32.ofNat j) = .ok v)
    (hmapped : ∀ j < i + n, mapped (dst + UInt32.ofNat j) = true) :
    ∃ m', storeFrom mapped val dst n (UInt32.ofNat i) m = .ok m' := by
  induction n generalizing i m with
  | zero => exact ⟨m, rfl⟩
  | succ n ih =>
    obtain ⟨v, hv⟩ := hval i (by omega) m
    obtain ⟨m', hm'⟩ := ih (i := i + 1) (m := Function.update m (dst + UInt32.ofNat i) v)
      (fun j hj => hval j (by omega)) (fun j hj => hmapped j (by omega))
    refine ⟨m', Res.bind_eq_ok.mpr ⟨v, hv, Res.bind_eq_ok.mpr
      ⟨_, Ram.store_eq_ok.mpr ⟨hmapped i (by omega), rfl⟩, ?_⟩⟩⟩
    rwa [UInt32.ofNat_add] at hm'

/-- Bytes the loop does not store to are kept. -/
theorem storeFrom_frame {n : Nat} {a : UInt32} (ha : ∀ j < n, a ≠ dst + UInt32.ofNat j)
    (h : storeFrom mapped val dst n 0 m = .ok m') : m' a = m a := by
  have hrule := storeFrom_induct (I := fun _ m₁ => m₁ a = m a) (i := 0) (fun j m₁ v hj hm₁ _ _ => by
    rw [Function.update_of_ne (ha j (by omega)), hm₁]) rfl h
  exact hrule

end

/-! ### Copying -/

/-- `for (i = 0; i < n; i++) dst[i] = src[i];` -/
def copyBytes (mapped : UInt32 → Bool) (dst src : UInt32) (n : Nat) (m : Ram) : Res ε Ram :=
  storeFrom mapped (fun m i => m.load mapped (src + i)) dst n 0 m

section
variable {dst src : UInt32} {m m' : Ram} {n : Nat}

/-- What the loop stored at byte `k` is what the source held there, if byte `k` of the source had not
been overwritten by then. -/
theorem copyBytes_copied {k : Nat} (hn : n ≤ 2 ^ 32) (hk : k < n)
    (hsrc : ∀ j < k, src + UInt32.ofNat k ≠ dst + UInt32.ofNat j)
    (h : (copyBytes mapped dst src n m : Res ε Ram) = .ok m') :
    m' (dst + UInt32.ofNat k) = m (src + UInt32.ofNat k) := by
  have hrule := storeFrom_induct (i := 0) (I := fun j m₁ =>
      (k < j → m₁ (dst + UInt32.ofNat k) = m (src + UInt32.ofNat k)) ∧
        (j ≤ k → m₁ (src + UInt32.ofNat k) = m (src + UInt32.ofNat k))) ?_ ⟨by omega, fun _ => rfl⟩ h
  · exact hrule.1 (by omega)
  · rintro j m₁ v hj ⟨hdone, hleft⟩ hv -
    obtain ⟨-, rfl⟩ := Ram.load_eq_ok.mp hv
    refine ⟨fun hkj => ?_, fun hjk => ?_⟩
    · rcases Nat.lt_or_eq_of_le (Nat.le_of_lt_succ hkj) with hlt | rfl
      · have hne : dst + UInt32.ofNat k ≠ dst + UInt32.ofNat j := fun heq =>
          Nat.ne_of_lt hlt ((add_ofNat_inj (by omega) (by omega)).mp heq)
        rw [Function.update_of_ne hne, hdone hlt]
      · rw [Function.update_self, hleft (Nat.le_refl k)]
    · rw [Function.update_of_ne (hsrc j (by omega)), hleft (by omega)]

theorem copyBytes_frame {a : UInt32} (ha : ∀ j < n, a ≠ dst + UInt32.ofNat j)
    (h : (copyBytes mapped dst src n m : Res ε Ram) = .ok m') : m' a = m a :=
  storeFrom_frame ha h

theorem exists_copyBytes (hsrc : ∀ j < n, mapped (src + UInt32.ofNat j) = true)
    (hdst : ∀ j < n, mapped (dst + UInt32.ofNat j) = true) :
    ∃ m', (copyBytes mapped dst src n m : Res ε Ram) = .ok m' :=
  exists_storeFrom (i := 0) (fun j hj m => ⟨_, Ram.load_eq_ok.mpr ⟨hsrc j (by omega), rfl⟩⟩)
    fun j hj => hdst j (by omega)

end

/-! ### Filling -/

/-- `for (i = 0; i < n; i++) dst[i] = v;` -/
def fillBytes (mapped : UInt32 → Bool) (dst : UInt32) (v : UInt8) (n : Nat) (m : Ram) : Res ε Ram :=
  storeFrom mapped (fun _ _ => .ok v) dst n 0 m

theorem fillBytes_filled {dst : UInt32} {v : UInt8} {m m' : Ram} {n k : Nat} (hk : k < n)
    (h : (fillBytes mapped dst v n m : Res ε Ram) = .ok m') : m' (dst + UInt32.ofNat k) = v := by
  have hrule := storeFrom_induct (i := 0) (I := fun j m₁ => k < j → m₁ (dst + UInt32.ofNat k) = v)
    (fun j m₁ w hj hm₁ hw _ hkj => ?_) (by omega) h
  · exact hrule (by omega)
  · cases hw
    rcases eq_or_ne (dst + UInt32.ofNat k) (dst + UInt32.ofNat j) with heq | heq
    · rw [heq, Function.update_self]
    · have hne : k ≠ j := fun hkj => heq (hkj ▸ rfl)
      rw [Function.update_of_ne heq, hm₁ (by omega)]

end CSem

import Winlift.CSem.Res

/-!
# C strings

A `CStr` is the bytes of a string without the NUL that ends it. It can be read up to the NUL; a read
behind it faults. `scan` is the loop that skips characters, whose test the NUL must not pass, and
`putFrom` the one that puts them somewhere.
-/

namespace CSem

structure CStr where
  bytes : List UInt8
  no_nul : 0 ∉ bytes
deriving DecidableEq

namespace CStr
variable {ε : Type} (s : CStr)

def read (i : Nat) : Res ε UInt8 :=
  if i ≤ s.bytes.length then .ok (s.bytes.getD i 0) else .fault .outsideRead

/-- `while (test(s[i])) i++;`, with `room` bytes left to read. -/
def scanFrom (test : UInt8 → Bool) : Nat → Nat → Res ε Nat
  | 0, _ => .fault .outsideRead
  | room + 1, i => do
    let c ← s.read i
    if test c then scanFrom test room (i + 1) else .ok i

def scan (test : UInt8 → Bool) (i : Nat) : Res ε Nat :=
  s.scanFrom test (s.bytes.length + 1 - i) i

/-- `for (; j < l; j++) put(s[j]);`, with `n` characters left. -/
def putFrom {σ : Type} (put : σ → UInt8 → Res ε σ) : Nat → Nat → σ → Res ε σ
  | 0, _, o => .ok o
  | n + 1, j, o => do
    let c ← s.read j
    let o ← put o c
    putFrom put n (j + 1) o

variable {s}

theorem read_of_lt {i : Nat} (h : i < s.bytes.length) : (s.read i : Res ε UInt8) = .ok s.bytes[i] := by
  simp [read, Nat.le_of_lt h, h]

theorem read_append {pre post : List UInt8} {c : UInt8} (hs : s.bytes = pre ++ (c :: post)) :
    (s.read pre.length : Res ε UInt8) = .ok c := by
  rw [read_of_lt (by simp [hs])]
  simp [hs]

theorem read_end : (s.read s.bytes.length : Res ε UInt8) = .ok 0 := by simp [read]

theorem getElem_ne_zero {i : Nat} (h : i < s.bytes.length) : s.bytes[i] ≠ 0 := fun hzero =>
  s.no_nul (hzero ▸ List.getElem_mem h)

theorem scanFrom_eq {test : UInt8 → Bool} (htest : test 0 = false) {room i : Nat}
    (hroom : s.bytes.length + 1 = i + room) (hi : i ≤ s.bytes.length) : (s.scanFrom test room i : Res ε Nat) =
      .ok (i + ((s.bytes.drop i).takeWhile test).length) := by
  induction room generalizing i with
  | zero => omega
  | succ room ih =>
    rw [scanFrom]
    rcases Nat.lt_or_eq_of_le hi with hlt | rfl
    · rw [read_of_lt hlt, Res.ok_bind, List.drop_eq_getElem_cons hlt, List.takeWhile_cons]
      split
      · rw [ih (i := i + 1) (by omega) hlt, List.length_cons, Nat.add_right_comm, Nat.add_assoc]
      · rfl
    · simp [read_end, htest]

theorem scan_eq {test : UInt8 → Bool} (htest : test 0 = false) {i : Nat} (hi : i ≤ s.bytes.length) :
    (s.scan test i : Res ε Nat) = .ok (i + ((s.bytes.drop i).takeWhile test).length) :=
  scanFrom_eq htest (by omega) hi

/-- A scan ends in the string. -/
theorem exists_scan {test : UInt8 → Bool} (htest : test 0 = false) {i : Nat} (hi : i ≤ s.bytes.length) :
    ∃ j, (s.scan test i : Res ε Nat) = .ok j ∧ i ≤ j ∧ j ≤ s.bytes.length := by
  have hle := (List.takeWhile_sublist (l := s.bytes.drop i) test).length_le
  rw [List.length_drop] at hle
  exact ⟨_, scan_eq htest hi, Nat.le_add_right _ _, by omega⟩

/-- Over a stretch of characters that pass, up to one that does not. -/
theorem scan_append {test : UInt8 → Bool} (htest : test 0 = false) {pre mid post : List UInt8}
    (hs : s.bytes = pre ++ (mid ++ post)) (hmid : ∀ c ∈ mid, test c = true)
    (hpost : ∀ c ∈ post.head?, test c = false) :
    (s.scan test pre.length : Res ε Nat) = .ok (pre.length + mid.length) := by
  rw [scan_eq htest (by simp [hs]), hs, List.drop_left, List.takeWhile_append_of_pos hmid]
  have hstop : post.takeWhile test = [] := by
    cases post with
    | nil => rfl
    | cons c post => rw [List.takeWhile_cons, hpost c rfl]; rfl
  simp [hstop]

theorem putFrom_eq {σ : Type} {put : σ → UInt8 → Res ε σ} {n j : Nat} (hj : j + n = s.bytes.length)
    (o : σ) : s.putFrom put n j o = (s.bytes.drop j).foldlM put o := by
  induction n generalizing j o with
  | zero =>
    rw [putFrom, List.drop_of_length_le (by omega)]
    rfl
  | succ n ih =>
    have hlt : j < s.bytes.length := by omega
    rw [putFrom, read_of_lt hlt, Res.ok_bind, List.drop_eq_getElem_cons hlt, List.foldlM_cons]
    exact bind_congr fun o => ih (j := j + 1) (by omega) o

end CStr

end CSem

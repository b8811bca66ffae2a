import Winlift.CSem.Strings

/-!
# Objects in a memory

What a C program may know of its heap: the *objects* it got from an allocator, each of a size, each byte
set by the program or not set yet (`none`). It names an object by the variable that holds its address,
so `Objects` have no addresses. `ObjectsIn lo hi ptr s m` says how they lie in a memory: the objects are
apart from each other between `lo` and `hi`, at the addresses `ptr`, and `m` has the bytes that were set.
The rules are what the operations of an allocator and its client need: a new object behind the others, an
object given up, a byte set.
-/

namespace CSem

abbrev Contents := List (Option UInt8)

/-- What a pointer variable stands for. A pointer to an object that was given up is dangling. -/
inductive Cell where
  | null
  | dangling
  | live (d : Contents)
deriving DecidableEq, Repr

def Cell.contents : Cell → Contents
  | live d => d
  | _ => []

abbrev Objects := Nat → Cell

/-- The contents of a new object of `n` bytes that takes over those of another, as far as they fit. -/
def Contents.resize (d : Contents) (n : Nat) : Contents := d.take n ++ List.replicate (n - d.length) none

@[simp] theorem Contents.length_resize (d : Contents) (n : Nat) : (d.resize n).length = n := by
  simp only [resize, List.length_append, List.length_take, List.length_replicate]
  omega

/-! ### Contents at an address -/

/-- From `a` on `m` has the bytes of `d` that were set. -/
def Ram.Known (m : Ram) (a : UInt32) (d : Contents) : Prop :=
  ∀ i v, d[i]? = some (some v) → m (a + UInt32.ofNat i) = v

namespace Ram.Known
variable {m m' : Ram} {a b : UInt32} {d : Contents} {n : Nat}

theorem unset : m.Known a (List.replicate n none) := by
  intro i v h
  simp [List.getElem?_replicate] at h

theorem filled {v : UInt8} (h : ∀ i < n, m (a + UInt32.ofNat i) = v) :
    m.Known a (List.replicate n (some v)) := by
  intro i w hw
  rw [List.getElem?_replicate] at hw
  split at hw
  · cases hw
    exact h i ‹_›
  · cases hw

theorem of_holds {l : List UInt8} (h : m.Holds a l) : m.Known a (l.map some) := by
  intro i v hv
  rw [List.getElem?_map, Option.map_eq_some_iff] at hv
  obtain ⟨w, hw, hwv⟩ := hv
  obtain ⟨hi, rfl⟩ := List.getElem?_eq_some_iff.mp hw
  cases hwv
  exact h i hi

theorem holds {l : List UInt8} (h : m.Known a (l.map some)) : m.Holds a l := by
  intro i hi
  refine h i _ ?_
  rw [List.getElem?_map, List.getElem?_eq_getElem hi]
  rfl

theorem resize (h : m.Known a d)
    (hcopy : ∀ i < min d.length n, m' (b + UInt32.ofNat i) = m (a + UInt32.ofNat i)) :
    m'.Known b (d.resize n) := by
  intro i v hv
  rw [Contents.resize, List.getElem?_append] at hv
  split at hv
  · rename_i hi
    rw [List.length_take, Nat.min_comm] at hi
    rw [List.getElem?_take_of_lt (by omega)] at hv
    rw [hcopy i hi, h i v hv]
  · simp [List.getElem?_replicate] at hv

theorem congr (h : m.Known a d) (hm : ∀ i < d.length, m' (a + UInt32.ofNat i) = m (a + UInt32.ofNat i)) :
    m'.Known a d := by
  intro i v hv
  obtain ⟨hi, -⟩ := List.getElem?_eq_some_iff.mp hv
  rw [hm i hi, h i v hv]

theorem set {i : Nat} {v : UInt8} (h : m.Known a d) (hlen : d.length ≤ 2 ^ 32) (hi : i < d.length) :
    Ram.Known (Function.update m (a + UInt32.ofNat i) v) a (d.set i (some v)) := by
  intro j w hw
  obtain ⟨hj, -⟩ := List.getElem?_eq_some_iff.mp hw
  rw [List.length_set] at hj
  rcases eq_or_ne i j with rfl | hij
  · rw [List.getElem?_set_self hi] at hw
    cases hw
    exact Function.update_self ..
  · rw [List.getElem?_set_ne hij] at hw
    have hne : a + UInt32.ofNat j ≠ a + UInt32.ofNat i := fun heq =>
      hij ((add_ofNat_inj (by omega) (by omega)).mp heq).symm
    rw [Function.update_of_ne hne, h j w hw]

end Ram.Known

/-! ### Placement -/

/-- An object with the contents `d` lies at `a`, between `lo` and `hi`. -/
structure Lies (lo hi : Nat) (m : Ram) (a : UInt32) (d : Contents) : Prop where
  ne_zero : a ≠ 0
  lo_le : lo ≤ a.toNat
  end_le : a.toNat + d.length ≤ hi
  known : m.Known a d

structure ObjectsIn (lo hi : Nat) (ptr : Nat → UInt32) (s : Objects) (m : Ram) : Prop where
  null : ∀ x, s x = .null → ptr x = 0
  live : ∀ x d, s x = .live d → Lies lo hi m (ptr x) d
  apart : ∀ x y d d', s x = .live d → s y = .live d' → x ≠ y →
    (ptr x).toNat + d.length ≤ (ptr y).toNat ∨ (ptr y).toNat + d'.length ≤ (ptr x).toNat

theorem Lies.addr {lo hi : Nat} {m : Ram} {a : UInt32} {d : Contents} (h : Lies lo hi m a d)
    (hhi : hi ≤ 2 ^ 32) {i : Nat} (hlt : i < d.length) : (a + UInt32.ofNat i).toNat = a.toNat + i :=
  add_ofNat_toNat (by have := h.end_le; omega)

namespace ObjectsIn
variable {lo hi : Nat} {ptr : Nat → UInt32} {s : Objects} {m m' : Ram}

theorem none (lo hi : Nat) (m : Ram) : ObjectsIn lo hi (fun _ => 0) (fun _ => .null) m where
  null _ _ := rfl
  live := nofun
  apart := nofun

/-- A memory that is the same between `lo` and `hi`, which may move up. -/
theorem congr (h : ObjectsIn lo hi ptr s m) (hhi : hi ≤ 2 ^ 32)
    (hm : ∀ a, lo ≤ a.toNat → a.toNat < hi → m' a = m a) {hi' : Nat} (hle : hi ≤ hi') :
    ObjectsIn lo hi' ptr s m' where
  null := h.null
  apart := h.apart
  live x d hx := by
    have hd := h.live x d hx
    refine ⟨hd.ne_zero, hd.lo_le, Nat.le_trans hd.end_le hle, hd.known.congr fun i hlt => ?_⟩
    have haddr := hd.addr hhi hlt
    have hlo := hd.lo_le
    have hend := hd.end_le
    exact hm _ (by omega) (by omega)

/-- Fewer objects, and those where they were. -/
theorem fewer (h : ObjectsIn lo hi ptr s m) {ptr' : Nat → UInt32} {s' : Objects}
    (hnull : ∀ x, s' x = .null → ptr' x = 0)
    (hlive : ∀ x d, s' x = .live d → s x = .live d ∧ ptr' x = ptr x) : ObjectsIn lo hi ptr' s' m where
  null := hnull
  live x d hx := by
    obtain ⟨hs, hptr⟩ := hlive x d hx
    rw [hptr]
    exact h.live x d hs
  apart x y d d' hx hy hxy := by
    obtain ⟨hsx, hptrx⟩ := hlive x d hx
    obtain ⟨hsy, hptry⟩ := hlive y d' hy
    rw [hptrx, hptry]
    exact h.apart x y d d' hsx hsy hxy

/-- The null pointer is assigned to the variable `x`. -/
theorem assignNull (h : ObjectsIn lo hi ptr s m) (x : Nat) :
    ObjectsIn lo hi (Function.update ptr x 0) (Function.update s x .null) m := by
  refine h.fewer (fun y hy => ?_) fun y d hy => ?_
  · rcases eq_or_ne y x with rfl | hne
    · exact Function.update_self ..
    · rw [Function.update_of_ne hne] at hy ⊢
      exact h.null y hy
  · rcases eq_or_ne y x with rfl | hne
    · rw [Function.update_self] at hy
      cases hy
    · rw [Function.update_of_ne hne] at hy ⊢
      exact ⟨hy, rfl⟩

/-- The object that `x` points to is given up. -/
theorem giveUp (h : ObjectsIn lo hi ptr s m) (x : Nat) :
    ObjectsIn lo hi ptr (Function.update s x .dangling) m := by
  refine h.fewer (fun y hy => ?_) fun y d hy => ?_
  · rcases eq_or_ne y x with rfl | hne
    · rw [Function.update_self] at hy
      cases hy
    · rw [Function.update_of_ne hne] at hy
      exact h.null y hy
  · rcases eq_or_ne y x with rfl | hne
    · rw [Function.update_self] at hy
      cases hy
    · rw [Function.update_of_ne hne] at hy
      exact ⟨hy, rfl⟩

/-- The address of a new object, behind all others, is assigned to the variable `x`. -/
theorem assignNew (h : ObjectsIn lo hi ptr s m) (hhi : hi ≤ 2 ^ 32)
    (hm : ∀ a, lo ≤ a.toNat → a.toNat < hi → m' a = m a) {hi' : Nat} {q : UInt32} {c : Contents}
    (hc : Lies lo hi' m' q c) (hq : hi ≤ q.toNat) (x : Nat) :
    ObjectsIn lo hi' (Function.update ptr x q) (Function.update s x (.live c)) m' := by
  have hend := hc.end_le
  have h' : ObjectsIn lo hi' ptr s m' := h.congr hhi hm (by omega)
  refine ⟨fun y hy => ?_, fun y d hy => ?_, fun y z d d' hy hz hyz => ?_⟩
  · rcases eq_or_ne y x with rfl | hne
    · rw [Function.update_self] at hy
      cases hy
    · rw [Function.update_of_ne hne] at hy ⊢
      exact h'.null y hy
  · rcases eq_or_ne y x with rfl | hne
    · rw [Function.update_self] at hy ⊢
      cases hy
      exact hc
    · rw [Function.update_of_ne hne] at hy ⊢
      exact h'.live y d hy
  · rcases eq_or_ne y x with rfl | hne
    · rw [Function.update_of_ne hyz.symm] at hz
      rw [Function.update_self, Function.update_of_ne hyz.symm]
      exact .inr (Nat.le_trans (h.live z d' hz).end_le hq)
    · rw [Function.update_of_ne hne] at hy ⊢
      rcases eq_or_ne z x with rfl | hne'
      · rw [Function.update_self]
        exact .inl (Nat.le_trans (h.live y d hy).end_le hq)
      · rw [Function.update_of_ne hne'] at hz ⊢
        exact h.apart y z d d' hy hz hyz

/-- A byte of the object that `x` points to is set. -/
theorem set (h : ObjectsIn lo hi ptr s m) (hhi : hi ≤ 2 ^ 32) {x i : Nat} {d : Contents} (hx : s x = .live d)
    (hlt : i < d.length) (v : UInt8) :
    ObjectsIn lo hi ptr (Function.update s x (.live (d.set i (some v))))
      (Function.update m (ptr x + UInt32.ofNat i) v) := by
  have hd := h.live x d hx
  have haddr := hd.addr hhi hlt
  refine ⟨fun y hy => ?_, fun y e hy => ?_, fun y z e e' hy hz hyz => ?_⟩
  · rcases eq_or_ne y x with rfl | hne
    · rw [Function.update_self] at hy
      cases hy
    · rw [Function.update_of_ne hne] at hy
      exact h.null y hy
  · rcases eq_or_ne y x with rfl | hne
    · rw [Function.update_self] at hy
      cases hy
      have hend := hd.end_le
      exact ⟨hd.ne_zero, hd.lo_le, by rwa [List.length_set], hd.known.set (by omega) hlt⟩
    · -- another object, which the stored byte is not part of
      rw [Function.update_of_ne hne] at hy
      have he := h.live y e hy
      refine ⟨he.ne_zero, he.lo_le, he.end_le, he.known.congr fun j hj => Function.update_of_ne ?_ _ _⟩
      intro heq
      have hnat := congrArg UInt32.toNat heq
      rw [he.addr hhi hj, haddr] at hnat
      have := h.apart y x e d hy hx hne
      omega
  · have hlen : ∀ w c, Function.update s x (.live (d.set i (some v))) w = .live c →
        ∃ c', s w = .live c' ∧ c'.length = c.length := by
      intro w c hw
      rcases eq_or_ne w x with rfl | hne
      · rw [Function.update_self] at hw
        cases hw
        exact ⟨d, hx, (List.length_set ..).symm⟩
      · rw [Function.update_of_ne hne] at hw
        exact ⟨c, hw, rfl⟩
    obtain ⟨c, hc, hlenc⟩ := hlen y e hy
    obtain ⟨c', hc', hlenc'⟩ := hlen z e' hz
    have := h.apart y z c c' hc hc' hyz
    omega

end ObjectsIn

end CSem

import Winlift.CSem.Ram

/-!
# Strings in a 32-bit address space

C code fills a buffer from front to back through `p[pos++] = c`: that is a `Cursor`, and what it has
written so far the buffer `Holds`. `Ram.cstr` reads a string up to its NUL, `Ram.strings` one string
after the other up to the empty one; `strings_packed` says what it makes of a list of strings with a NUL
behind each.
-/

namespace CSem

/-- The `n` addresses from `p` on. -/
def inBlock (p : UInt32) (n : Nat) (a : UInt32) : Bool := (a - p).toNat < n

theorem inBlock_add {p : UInt32} {n k : Nat} (hk : k < n) (hn : n ≤ 2 ^ 32) :
    inBlock p n (p + UInt32.ofNat k) = true := by
  have hsub : p + UInt32.ofNat k - p = UInt32.ofNat k := by
    rw [UInt32.add_comm, UInt32.add_sub_cancel]
  rw [inBlock, hsub, UInt32.toNat_ofNat_of_lt' (show k < 2 ^ 32 by omega)]
  exact decide_eq_true hk

namespace Ram
variable {m : Ram} {p : UInt32}

/-- From `p` on the memory holds the bytes `l`. -/
def Holds (m : Ram) (p : UInt32) (l : List UInt8) : Prop :=
  ∀ k (h : k < l.length), m (p + UInt32.ofNat k) = l[k]

theorem holds_cons {c : UInt8} {l : List UInt8} :
    m.Holds p (c :: l) ↔ m p = c ∧ m.Holds (p + 1) l := by
  have hshift : ∀ k, p + UInt32.ofNat (k + 1) = p + 1 + UInt32.ofNat k := fun k => by
    rw [UInt32.ofNat_add, UInt32.add_comm (UInt32.ofNat k), ← UInt32.add_assoc]
    rfl
  constructor
  · intro h
    refine ⟨by simpa using h 0 (Nat.zero_lt_succ _), fun k hk => ?_⟩
    rw [← hshift]
    exact h (k + 1) (Nat.succ_lt_succ hk)
  · rintro ⟨hc, hl⟩ k hk
    cases k with
    | zero => simpa using hc
    | succ k =>
      rw [hshift]
      exact hl k (Nat.lt_of_succ_lt_succ hk)

theorem holds_append {l l' : List UInt8} :
    m.Holds p (l ++ l') ↔ m.Holds p l ∧ m.Holds (p + UInt32.ofNat l.length) l' := by
  induction l generalizing p with
  | nil => simp [Holds]
  | cons c l ih =>
    rw [List.cons_append, holds_cons, ih, holds_cons, and_assoc, List.length_cons, UInt32.ofNat_add,
      UInt32.add_comm (UInt32.ofNat l.length), ← UInt32.add_assoc]
    rfl

end Ram

/-! ### Writing -/

structure Cursor where
  pos : UInt32
  mem : Ram

namespace Cursor
variable {ε : Type} {mapped : UInt32 → Bool} {p : UInt32} {c : Cursor} {l : List UInt8}

/-- `p[pos++] = v;` -/
def put (mapped : UInt32 → Bool) (p : UInt32) (c : Cursor) (v : UInt8) : Res ε Cursor := do
  let mem ← c.mem.store mapped (p + c.pos) v
  .ok ⟨c.pos + 1, mem⟩

/-- The bytes `l` have been put to `p`. -/
structure Filled (p : UInt32) (c : Cursor) (l : List UInt8) : Prop where
  pos : c.pos = UInt32.ofNat l.length
  holds : c.mem.Holds p l

theorem put_filled (h : c.Filled p l) (v : UInt8) (hlen : l.length < 2 ^ 32)
    (hmapped : mapped (p + UInt32.ofNat l.length) = true) :
    ∃ c', (c.put mapped p v : Res ε Cursor) = .ok c' ∧ c'.Filled p (l ++ [v]) := by
  refine ⟨⟨c.pos + 1, Function.update c.mem (p + UInt32.ofNat l.length) v⟩, ?_, ?_, fun k hk => ?_⟩
  · rw [put, Ram.store_eq_ok.mpr ⟨h.pos ▸ hmapped, rfl⟩, Res.ok_bind, h.pos]
  · rw [h.pos, List.length_append, UInt32.ofNat_add]
    rfl
  · rw [List.length_append, List.length_singleton] at hk
    rcases Nat.lt_or_eq_of_le (Nat.le_of_lt_succ hk) with hlt | rfl
    · have hne : p + UInt32.ofNat k ≠ p + UInt32.ofNat l.length := fun heq =>
        Nat.ne_of_lt hlt ((add_ofNat_inj (by omega) hlen).mp heq)
      rw [List.getElem_append_left hlt]
      exact (Function.update_of_ne hne _ _).trans (h.holds k hlt)
    · rw [List.getElem_concat_length rfl]
      exact Function.update_self _ _ _

/-- A block of `n` bytes takes up to `n` bytes. -/
theorem putAll_filled {n : Nat} (h : c.Filled p l) {bytes : List UInt8} (hn : n ≤ 2 ^ 32)
    (hlen : l.length + bytes.length ≤ n) :
    ∃ c', (bytes.foldlM (put (inBlock p n) p) c : Res ε Cursor) = .ok c' ∧ c'.Filled p (l ++ bytes) := by
  induction bytes generalizing c l with
  | nil => exact ⟨c, rfl, by rwa [List.append_nil]⟩
  | cons v bytes ih =>
    rw [List.length_cons] at hlen
    have hroom : l.length < n := by omega
    obtain ⟨c₁, hput, h₁⟩ := put_filled h v (Nat.lt_of_lt_of_le hroom hn) (inBlock_add hroom hn)
    obtain ⟨c', hrest, h'⟩ := ih h₁ (by rw [List.length_append, List.length_singleton]; omega)
    exact ⟨c', by rw [List.foldlM_cons, hput, Res.ok_bind, hrest], by simpa using h'⟩

end Cursor

/-! ### Joining -/

theorem intercalate_cons {α : Type} (sep : α) (l : List α) (ls : List (List α)) :
    [sep].intercalate (l :: ls) = l ++ ls.flatMap (sep :: ·) := by
  induction ls generalizing l with
  | nil => simp
  | cons l' ls ih => simp [List.intercalate_cons_cons, ih]

/-! ### Reading -/

namespace Ram
variable {m : Ram} {p : UInt32}

/-- The string at `p`, if its NUL is among the next bytes. -/
def cstr (m : Ram) : Nat → UInt32 → Option (List UInt8)
  | 0, _ => none
  | fuel + 1, p => if m p = 0 then some [] else (m.cstr fuel (p + 1)).map (m p :: ·)

/-- The strings from `p` on, up to an empty one. -/
def strings (m : Ram) (room : Nat) : Nat → UInt32 → Option (List (List UInt8))
  | 0, _ => none
  | fuel + 1, p => do
    let s ← m.cstr room p
    if s = [] then some []
    else do
      let rest ← m.strings room fuel (p + UInt32.ofNat (s.length + 1))
      some (s :: rest)

theorem cstr_of_holds {l : List UInt8} (h : m.Holds p (l ++ [0])) (hnul : 0 ∉ l) {fuel : Nat}
    (hfuel : l.length < fuel) : m.cstr fuel p = some l := by
  induction l generalizing p fuel with
  | nil =>
    obtain ⟨fuel, rfl⟩ := Nat.exists_eq_add_of_lt hfuel
    rw [List.nil_append, holds_cons] at h
    rw [cstr, if_pos h.1]
  | cons c l ih =>
    obtain ⟨fuel, rfl⟩ := Nat.exists_eq_succ_of_ne_zero (Nat.ne_zero_of_lt hfuel)
    rw [List.cons_append, holds_cons] at h
    rw [List.mem_cons, not_or] at hnul
    rw [List.length_cons] at hfuel
    rw [cstr, if_neg (by rw [h.1]; exact Ne.symm hnul.1), ih h.2 hnul.2 (by omega), h.1, Option.map_some]

/-- The strings, each with a NUL behind it, and one more NUL. -/
def packed (ls : List (List UInt8)) : List UInt8 := ls.flatMap (· ++ [0]) ++ [0]

/-- The walk gives the strings back up to the first empty one. -/
theorem strings_packed {ls : List (List UInt8)} (h : m.Holds p (packed ls)) (hnul : ∀ l ∈ ls, 0 ∉ l)
    {room fuel : Nat} (hroom : ∀ l ∈ ls, l.length < room) (hpos : 0 < room) (hfuel : ls.length < fuel) :
    m.strings room fuel p = some (ls.takeWhile (· ≠ [])) := by
  induction ls generalizing p fuel with
  | nil =>
    obtain ⟨fuel, rfl⟩ := Nat.exists_eq_succ_of_ne_zero (Nat.ne_zero_of_lt hfuel)
    have hend : m.cstr room p = some [] := cstr_of_holds h List.not_mem_nil hpos
    rw [strings, hend]
    rfl
  | cons l ls ih =>
    obtain ⟨fuel, rfl⟩ := Nat.exists_eq_succ_of_ne_zero (Nat.ne_zero_of_lt hfuel)
    rw [List.forall_mem_cons] at hnul hroom
    rw [packed, List.flatMap_cons, List.append_assoc, holds_append] at h
    have hread : m.cstr room p = some l := cstr_of_holds h.1 hnul.1 hroom.1
    rw [List.length_cons] at hfuel
    rw [strings, hread, List.takeWhile_cons]
    rcases eq_or_ne l [] with hempty | hempty
    · simp [hempty]
    · have hwalk := ih h.2 hnul.2 hroom.2 (show ls.length < fuel by omega)
      rw [List.length_append, List.length_singleton] at hwalk
      rw [Option.bind_eq_bind, Option.bind_some, if_neg hempty, hwalk, if_pos (by simpa using hempty)]
      rfl

end Ram

end CSem

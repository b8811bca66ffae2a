import Winlift.CSem.Res
import Mathlib.Data.Fintype.Pigeonhole

/-!
# Loops

`loop step n s` runs a C loop from the state `s` for at most `n` iterations; `step` is one pass
through the condition and the body, and either goes on with a new state or leaves the loop with a
value. `wp_loop` is the invariant rule. Whether a loop ends is a question about the orbit of the part
of its state that decides how it goes on: `loop_timeout_iff` reduces it to that orbit, and over a
finite type an orbit ends exactly when it never comes back to a value (`orbit_ends_iff`).
-/

namespace CSem

/-- One pass through a loop: go on with a new state, or leave the loop with a value. -/
inductive Step (σ β : Type) where
  | more (s : σ)
  | done (b : β)
deriving Repr

variable {ε σ β κ : Type}

def loop (step : σ → Res ε (Step σ β)) : Nat → σ → Res ε β
  | 0, _ => .timeout
  | n + 1, s =>
    match step s with
    | .ok (.more s') => loop step n s'
    | .ok (.done b) => .ok b
    | .err e => .err e
    | .fault f => .fault f
    | .timeout => .timeout

/-! ### A pass over an entry

It reads an entry, leaves the loop at one of a kind, and goes on behind any other. -/

section entries
variable {α : Type} {o : Option α} {e : ε} {isEnd : α → Prop} [DecidablePred isEnd] {b : β}
  {body : α → Res ε σ}

theorem entry_eq_more {s : σ} :
    (Res.orReject o e >>= fun a => if isEnd a then .ok (.done b) else body a >>= fun s => .ok (.more s)) =
      (.ok (.more s) : Res ε (Step σ β)) ↔ ∃ a, o = some a ∧ ¬ isEnd a ∧ body a = .ok s := by
  rw [Res.bind_eq_ok]
  refine exists_congr fun a => and_congr Res.orReject_eq_ok ?_
  by_cases hend : isEnd a
  · simp [hend]
  · simp [hend, Res.bind_eq_ok]

theorem entry_eq_done {b' : β} :
    (Res.orReject o e >>= fun a => if isEnd a then .ok (.done b) else body a >>= fun s => .ok (.more s)) =
      (.ok (.done b') : Res ε (Step σ β)) ↔ (∃ a, o = some a ∧ isEnd a) ∧ b' = b := by
  rw [Res.bind_eq_ok]
  constructor
  · rintro ⟨a, ha, h⟩
    split_ifs at h with hend
    · cases h
      exact ⟨⟨a, Res.orReject_eq_ok.mp ha, hend⟩, rfl⟩
    · simp [Res.bind_eq_ok] at h
  · rintro ⟨⟨a, ha, hend⟩, rfl⟩
    exact ⟨a, Res.orReject_eq_ok.mpr ha, if_pos hend⟩

end entries

section rules
variable {step : σ → Res ε (Step σ β)}

theorem loop_succ (n : Nat) (s : σ) : loop step (n + 1) s = step s >>= fun r =>
    match r with
    | .more s' => loop step n s'
    | .done b => .ok b := by
  rw [loop]
  rcases step s with (_ | _) | _ | _ | _ <;> rfl

theorem loop_more {n : Nat} {s s' : σ} (h : step s = .ok (.more s')) :
    loop step (n + 1) s = loop step n s' := by
  rw [loop, h]

theorem loop_done {n : Nat} {s : σ} {b : β} (h : step s = .ok (.done b)) :
    loop step (n + 1) s = .ok b := by
  rw [loop, h]

theorem loop_err {n : Nat} {s : σ} {e : ε} (h : step s = .err e) :
    loop step (n + 1) s = .err e := by
  rw [loop, h]

theorem wp_loop {F : Fault → Prop} {I : σ → Prop} {Q : β → Prop}
    (hstep : ∀ s, I s → Res.wp F (step s) fun r =>
      match r with
      | .more s' => I s'
      | .done b => Q b)
    (n : Nat) (s : σ) (hs : I s) : Res.wp F (loop step n s) Q := by
  induction n generalizing s with
  | zero => exact Res.wp_timeout
  | succ n ih =>
    have h := hstep s hs
    rw [loop]
    split
    · rename_i s' heq; rw [heq] at h; exact ih s' h
    · rename_i b heq; rw [heq] at h; exact h
    · exact Res.wp_err _
    · rename_i f heq; rw [heq] at h; exact h
    · exact Res.wp_timeout

/-- More iterations, each with more fuel, do not change a run that has ended. -/
theorem loop_le {step' : σ → Res ε (Step σ β)} (hstep : ∀ s, Res.Le (step s) (step' s)) {m n : Nat}
    (hmn : m ≤ n) (s : σ) : Res.Le (loop step m s) (loop step' n s) := by
  induction m generalizing n s with
  | zero => exact .inl rfl
  | succ m ih =>
    cases n with
    | zero => exact absurd hmn (Nat.not_succ_le_zero m)
    | succ n =>
      rcases hstep s with h | h
      · exact .inl (by rw [loop, h])
      · rw [loop, loop, h]
        split
        · exact ih (Nat.le_of_succ_le_succ hmn) _
        all_goals exact .refl _

theorem loop_mono {n : Nat} {s : σ} (h : loop step n s ≠ .timeout) (k : Nat) :
    loop step (n + k) s = loop step n s :=
  (loop_le (fun _ => .refl _) (Nat.le_add_right n k) s).eq_of_ne h

/-- `n` passes lead from the first state to the second. -/
inductive Passes (step : σ → Res ε (Step σ β)) : Nat → σ → σ → Prop
  | zero (s : σ) : Passes step 0 s s
  | snoc {n : Nat} {s t u : σ} : Passes step n s t → step t = .ok (.more u) → Passes step (n + 1) s u

namespace Passes

theorem cons {n : Nat} {s t u : σ} (h : step s = .ok (.more t)) (hp : Passes step n t u) :
    Passes step (n + 1) s u := by
  induction hp with
  | zero => exact .snoc (.zero s) h
  | snoc _ hlast ih => exact .snoc (ih h) hlast

theorem append {m n : Nat} {s t u : σ} (hp : Passes step m s t) (hq : Passes step n t u) :
    Passes step (m + n) s u := by
  induction hq with
  | zero => exact hp
  | snoc _ hlast ih => exact .snoc (ih hp) hlast

theorem unique {n : Nat} {s t t' : σ} (hp : Passes step n s t) (hp' : Passes step n s t') : t = t' := by
  induction hp generalizing t' with
  | zero => cases hp'; rfl
  | snoc _ hlast ih =>
    cases hp' with
    | snoc hp' hlast' =>
      cases ih hp'
      cases hlast.symm.trans hlast'
      rfl

theorem split {m n : Nat} {s u : σ} (hp : Passes step (m + n) s u) :
    ∃ t, Passes step m s t ∧ Passes step n t u := by
  induction n generalizing u with
  | zero => exact ⟨u, hp, .zero u⟩
  | succ n ih =>
    cases hp with
    | snoc hp hlast =>
      obtain ⟨t, hm, hn⟩ := ih hp
      exact ⟨t, hm, hn.snoc hlast⟩

/-- Of two states that a loop passes through one comes from the other. -/
theorem total {m n : Nat} {s t u : σ} (ht : Passes step m s t) (hu : Passes step n s u) :
    (∃ k, Passes step k t u) ∨ ∃ k, Passes step k u t := by
  rcases Nat.le_total m n with h | h
  · obtain ⟨k, rfl⟩ := Nat.exists_eq_add_of_le h
    obtain ⟨t', ht', hk⟩ := hu.split
    exact .inl ⟨k, ht.unique ht' ▸ hk⟩
  · obtain ⟨k, rfl⟩ := Nat.exists_eq_add_of_le h
    obtain ⟨u', hu', hk⟩ := ht.split
    exact .inr ⟨k, hu.unique hu' ▸ hk⟩

/-- No pass starts in a state the loop leaves from. -/
theorem eq_of_done {n : Nat} {b : β} {s t : σ} (hp : Passes step n s t) (hs : step s = .ok (.done b)) :
    t = s := by
  induction hp with
  | zero => rfl
  | snoc _ hlast ih =>
    cases ih hs
    cases hs.symm.trans hlast

/-- Only one state can be left from. -/
theorem end_unique {m n : Nat} {a b : β} {s t u : σ} (ht : Passes step m s t)
    (ha : step t = .ok (.done a)) (hu : Passes step n s u) (hb : step u = .ok (.done b)) : t = u := by
  rcases ht.total hu with ⟨k, hk⟩ | ⟨k, hk⟩
  · exact (hk.eq_of_done ha).symm
  · exact hk.eq_of_done hb

theorem loop_add {k : Nat} {s t : σ} (hp : Passes step k s t) (n : Nat) :
    loop step (k + n) s = loop step n t := by
  induction hp generalizing n with
  | zero => rw [Nat.zero_add]
  | snoc _ hlast ih => rw [Nat.add_assoc, Nat.add_comm 1 n, ih (n + 1), loop_more hlast]

end Passes

/-- A loop returns iff some number of passes leads to a state it leaves from. -/
theorem loop_eq_ok {n : Nat} {s : σ} {b : β} : loop step n s = .ok b ↔
    ∃ k t, k < n ∧ Passes step k s t ∧ step t = .ok (.done b) := by
  constructor
  · intro h
    induction n generalizing s with
    | zero => cases h
    | succ n ih =>
      rw [loop] at h
      split at h
      · rename_i s' hs
        obtain ⟨k, t, hk, hp, ht⟩ := ih h
        exact ⟨k + 1, t, Nat.succ_lt_succ hk, hp.cons hs, ht⟩
      · rename_i hs
        cases h
        exact ⟨0, s, Nat.succ_pos n, .zero s, hs⟩
      all_goals cases h
  · rintro ⟨k, t, hk, hp, ht⟩
    obtain ⟨m, rfl⟩ := Nat.exists_eq_add_of_lt hk
    rw [Nat.add_assoc, hp.loop_add, loop_done ht]

/-- A loop whose passes all end returns once no further pass is possible. -/
theorem exists_loop {f : σ → Step σ β} {n : Nat} {s : σ}
    (h : ∀ t, ¬ Passes (ε := ε) (fun s => .ok (f s)) n s t) :
    ∃ b, loop (ε := ε) (fun s => .ok (f s)) n s = .ok b := by
  induction n generalizing s with
  | zero => exact absurd (.zero s) (h s)
  | succ n ih =>
    rw [loop]
    cases hs : f s with
    | done b => exact ⟨b, rfl⟩
    | more s' => exact ih fun t hp => h t (hp.cons (congrArg Res.ok hs))

/-- A loop is still running after `n` passes iff `n` passes are possible, or a pass before does not
end. -/
theorem loop_eq_timeout {n : Nat} {s : σ} : loop step n s = .timeout ↔
    (∃ t, Passes step n s t) ∨ ∃ k t, k < n ∧ Passes step k s t ∧ step t = .timeout := by
  constructor
  · intro h
    induction n generalizing s with
    | zero => exact .inl ⟨s, .zero s⟩
    | succ n ih =>
      rw [loop] at h
      split at h
      · rename_i s' hs
        rcases ih h with ⟨t, hp⟩ | ⟨k, t, hk, hp, ht⟩
        · exact .inl ⟨t, hp.cons hs⟩
        · exact .inr ⟨k + 1, t, Nat.succ_lt_succ hk, hp.cons hs, ht⟩
      any_goals cases h
      rename_i hs
      exact .inr ⟨0, s, Nat.succ_pos n, .zero s, hs⟩
  · rintro (⟨t, hp⟩ | ⟨k, t, hk, hp, ht⟩)
    · exact hp.loop_add 0
    · obtain ⟨m, rfl⟩ := Nat.exists_eq_add_of_lt hk
      rw [Nat.add_assoc, hp.loop_add, loop, ht]

end rules

/-! ### Orbits -/

/-- The value after `n` steps of the partial function `f`, if it gets that far. -/
def orbit (f : κ → Option κ) : Nat → κ → Option κ
  | 0, a => some a
  | n + 1, a => (f a).bind (orbit f n)

variable {f : κ → Option κ} {a : κ}

theorem orbit_add (m n : Nat) : orbit f (m + n) a = (orbit f m a).bind (orbit f n) := by
  induction m generalizing a with
  | zero => simp [orbit]
  | succ m ih =>
    rw [Nat.add_right_comm, orbit, orbit, Option.bind_assoc]
    congr 1; funext b; exact ih

theorem orbit_none_mono {m : Nat} (h : orbit f m a = none) (n : Nat) : orbit f (m + n) a = none := by
  rw [orbit_add, h]; rfl

theorem orbit_cycle {m : Nat} (h : orbit f m a = some a) (k : Nat) : orbit f (k * m) a = some a := by
  induction k with
  | zero => simp [orbit]
  | succ k ih => rw [Nat.succ_mul, orbit_add, ih]; exact h

theorem orbit_ne_none_of_cycle {m : Nat} (hm : 0 < m) (h : orbit f m a = some a) (n : Nat) :
    orbit f n a ≠ none := by
  intro hn
  obtain ⟨k, hk⟩ := Nat.exists_eq_add_of_le (Nat.le_mul_of_pos_right n hm)
  have hback := orbit_cycle h n
  rw [hk, orbit_none_mono hn k] at hback
  cases hback

/-- Over a finite type an orbit ends iff it never comes back to a value it already had. -/
theorem orbit_ends_iff [Finite κ] :
    (∃ n, orbit f n a = none) ↔
      ∀ i m x, 0 < m → orbit f i a = some x → orbit f m x ≠ some x := by
  constructor
  · rintro ⟨n, hn⟩ i m x hm hi hx
    have hgoes : orbit f (i + n) a ≠ none := by
      rw [orbit_add, hi]; exact orbit_ne_none_of_cycle hm hx n
    rw [Nat.add_comm] at hgoes
    exact hgoes (orbit_none_mono hn i)
  · intro hno
    by_contra hall
    have hsome : ∀ n, ∃ x, orbit f n a = some x := fun n =>
      Option.ne_none_iff_exists'.1 fun h => hall ⟨n, h⟩
    choose x hx using hsome
    obtain ⟨i, j, hij, hxij⟩ := Finite.exists_ne_map_eq_of_infinite x
    wlog hlt : i < j generalizing i j
    · exact this j i (Ne.symm hij) hxij.symm (Nat.lt_of_le_of_ne (Nat.not_lt.1 hlt) (Ne.symm hij))
    obtain ⟨m, rfl⟩ := Nat.exists_eq_add_of_lt hlt
    have h := hx (i + (m + 1))
    rw [orbit_add, hx i, Option.bind_some, ← Nat.add_assoc, ← hxij] at h
    exact hno i (m + 1) (x i) (Nat.succ_pos m) (hx i) h

/-- A loop whose passes go on as the partial function `f` does on `key`, and never time out
themselves, is still running after `n` iterations iff the orbit of `f` gets that far. -/
theorem loop_timeout_iff {step : σ → Res ε (Step σ β)} (key : σ → κ) (f : κ → Option κ)
    (hmore : ∀ s s', step s = .ok (.more s') → f (key s) = some (key s'))
    (hstop : ∀ s, (∀ s', step s ≠ .ok (.more s')) → f (key s) = none ∧ step s ≠ .timeout)
    (n : Nat) (s : σ) : loop step n s = .timeout ↔ orbit f n (key s) ≠ none := by
  induction n generalizing s with
  | zero => simp [loop, orbit]
  | succ n ih =>
    by_cases h : ∃ s', step s = .ok (.more s')
    · obtain ⟨s', hs'⟩ := h
      rw [loop_more hs', orbit, hmore s s' hs', Option.bind_some]
      exact ih s'
    · obtain ⟨hnone, hto⟩ := hstop s fun s' hs' => h ⟨s', hs'⟩
      rw [orbit, hnone, loop]
      cases hs : step s with
      | ok r =>
        cases r with
        | more s' => exact absurd ⟨s', hs⟩ h
        | done b => simp
      | err e => simp
      | fault f => simp
      | timeout => exact absurd hs hto

end CSem

/-!
# Runs of C code

`Res ε α` is the result of a run of C code that returns an `α` or rejects its input with an error
`ε`. A run can also leave the defined behaviour of the language (`fault`), or still be inside a loop
when the iterations it was granted are used up (`timeout`). `wp F r Q` reads: `r` returns only values
satisfying `Q`, and the only faults it can end in satisfy `F`.
-/

namespace CSem

inductive Fault where
  | nullRead
  | outsideRead
  | outsideStore
deriving DecidableEq, Repr

inductive Res (ε α : Type) where
  | ok (a : α)
  | err (e : ε)
  | fault (f : Fault)
  | timeout
deriving Repr

namespace Res
variable {ε α β : Type}

def bind (r : Res ε α) (f : α → Res ε β) : Res ε β :=
  match r with
  | ok a => f a
  | err e => err e
  | fault f => fault f
  | timeout => timeout

instance : Monad (Res ε) where
  pure := ok
  bind := bind

def rejectIf (c : Prop) [Decidable c] (e : ε) : Res ε Unit := if c then err e else ok ()

def orReject (o : Option α) (e : ε) : Res ε α :=
  match o with
  | some a => ok a
  | none => err e

/-- The run returns, and what it returns passes the test `p`. -/
def okAnd (r : Res ε α) (p : α → Bool) : Bool :=
  match r with
  | ok a => p a
  | _ => false

@[simp] theorem ok_bind (a : α) (f : α → Res ε β) : (ok a >>= f) = f a := rfl
@[simp] theorem err_bind (e : ε) (f : α → Res ε β) : (err e >>= f) = err e := rfl
@[simp] theorem fault_bind (x : Fault) (f : α → Res ε β) : (fault x >>= f) = fault x := rfl
@[simp] theorem timeout_bind (f : α → Res ε β) : ((timeout : Res ε α) >>= f) = timeout := rfl

@[simp] theorem rejectIf_of {c : Prop} [Decidable c] (e : ε) (h : c) : rejectIf c e = err e := by
  simp [rejectIf, h]

@[simp] theorem rejectIf_of_not {c : Prop} [Decidable c] (e : ε) (h : ¬ c) : rejectIf c e = ok () := by
  simp [rejectIf, h]

instance lawfulMonad : LawfulMonad (Res ε) :=
  LawfulMonad.mk' _ (fun r => by cases r <;> rfl) (fun _ _ => rfl) fun r _ _ => by cases r <;> rfl

theorem bind_eq_ok {r : Res ε α} {f : α → Res ε β} {b : β} :
    (r >>= f) = ok b ↔ ∃ a, r = ok a ∧ f a = ok b := by
  cases r <;> simp

theorem bind_eq_err {r : Res ε α} {f : α → Res ε β} {e : ε} :
    (r >>= f) = err e ↔ r = err e ∨ ∃ a, r = ok a ∧ f a = err e := by
  cases r <;> simp

theorem bind_eq_timeout {r : Res ε α} {f : α → Res ε β} :
    (r >>= f) = timeout ↔ r = timeout ∨ ∃ a, r = ok a ∧ f a = timeout := by
  cases r <;> simp

@[simp] theorem rejectIf_ne_timeout {c : Prop} [Decidable c] (e : ε) : rejectIf c e ≠ timeout := by
  unfold rejectIf; split <;> simp

@[simp] theorem orReject_ne_timeout (o : Option α) (e : ε) : orReject o e ≠ timeout := by
  cases o <;> simp [orReject]

theorem rejectIf_eq_ok {c : Prop} [Decidable c] {e : ε} {u : Unit} : rejectIf c e = ok u ↔ ¬ c := by
  unfold rejectIf; split <;> simp [*]

theorem okAnd_iff {r : Res ε α} {p : α → Bool} : r.okAnd p = true ↔ ∃ a, r = ok a ∧ p a = true := by
  cases r <;> simp [okAnd]

theorem orReject_eq_ok {o : Option α} {e : ε} {a : α} : orReject o e = ok a ↔ o = some a := by
  cases o <;> simp [orReject]

/-! ### More fuel -/

/-- The run `r'` goes on where `r` timed out, and is the same otherwise. -/
def Le (r r' : Res ε α) : Prop := r = timeout ∨ r' = r

namespace Le

@[refl] theorem refl (r : Res ε α) : Le r r := .inr rfl

theorem bind {r r' : Res ε α} {f f' : α → Res ε β} (h : Le r r') (hf : ∀ a, Le (f a) (f' a)) :
    Le (r >>= f) (r' >>= f') := by
  rcases h with rfl | rfl
  · exact .inl rfl
  · cases r' with
    | ok a => exact hf a
    | _ => exact .refl _

theorem eq_of_ne {r r' : Res ε α} (h : Le r r') (hr : r ≠ timeout) : r' = r := h.resolve_left hr

end Le

/-! ### Weakest preconditions -/

def wp (F : Fault → Prop) (r : Res ε α) (Q : α → Prop) : Prop :=
  match r with
  | ok a => Q a
  | err _ => True
  | fault f => F f
  | timeout => True

section wp
variable {F : Fault → Prop} {Q : α → Prop}

@[simp] theorem wp_ok (a : α) : wp F (ok a : Res ε α) Q ↔ Q a := Iff.rfl
@[simp] theorem wp_err (e : ε) : wp F (err e : Res ε α) Q := trivial
@[simp] theorem wp_timeout : wp F (timeout : Res ε α) Q := trivial

theorem wp_bind {Q : β → Prop} (r : Res ε α) (f : α → Res ε β) :
    wp F (r >>= f) Q ↔ wp F r fun a => wp F (f a) Q := by
  cases r <;> exact Iff.rfl

theorem wp_mono {P : α → Prop} {r : Res ε α} (h : wp F r P) (hPQ : ∀ a, P a → Q a) : wp F r Q := by
  cases r with
  | ok a => exact hPQ a h
  | _ => exact h

theorem wp_rejectIf {c : Prop} [Decidable c] {e : ε} {Q : Unit → Prop} :
    wp F (rejectIf c e) Q ↔ (¬ c → Q ()) := by
  unfold rejectIf; split <;> simp [*]

theorem wp_orReject {o : Option α} {e : ε} : wp F (orReject o e) Q ↔ ∀ a, o = some a → Q a := by
  cases o <;> simp [orReject]

theorem wp.of_ok {r : Res ε α} {a : α} (h : wp F r Q) (hr : r = ok a) : Q a := by
  subst hr; exact h

theorem wp.of_fault {r : Res ε α} {f : Fault} (h : wp F r Q) (hr : r = fault f) : F f := by
  subst hr; exact h

end wp

end Res

end CSem

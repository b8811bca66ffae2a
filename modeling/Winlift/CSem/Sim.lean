import Winlift.CSem.Loop
import Winlift.CSem.Memory

/-!
# Forward simulation

`Sim R r r'` reads: whenever `r` returns, `r'` returns as well, and the two values are related by `R`.
Nothing is said of an `r` that rejects, faults or does not end, so the second run may do more than the
first. The rules follow the way runs are put together; `loop_sim` is the rule for loops. The use made
of it here is two runs over buffers of which the second goes on where the first ends
(`Buffer.Extends`).
-/

namespace CSem

namespace Res
variable {ε ε' α α' β β' : Type} {R : α → α' → Prop} {S : β → β' → Prop}

def Sim (R : α → α' → Prop) (r : Res ε α) (r' : Res ε' α') : Prop :=
  ∀ a, r = ok a → ∃ a', r' = ok a' ∧ R a a'

namespace Sim

theorem ok {a : α} {a' : α'} (h : R a a') : Sim R (.ok a : Res ε α) (.ok a' : Res ε' α') := by
  rintro _ ⟨⟩
  exact ⟨a', rfl, h⟩

theorem err {e : ε} {r' : Res ε' α'} : Sim R (.err e) r' := nofun

theorem fault {f : Fault} {r' : Res ε' α'} : Sim R (.fault f : Res ε α) r' := nofun

theorem bind {r : Res ε α} {r' : Res ε' α'} {f : α → Res ε β} {f' : α' → Res ε' β'} (h : Sim R r r')
    (hf : ∀ a a', R a a' → Sim S (f a) (f' a')) : Sim S (r >>= f) (r' >>= f') := by
  intro b hb
  obtain ⟨a, ha, hb⟩ := bind_eq_ok.mp hb
  obtain ⟨a', ha', hR⟩ := h a ha
  obtain ⟨b', hb', hS⟩ := hf a a' hR b hb
  exact ⟨b', bind_eq_ok.mpr ⟨a', ha', hb'⟩, hS⟩

/-- The second run gets the same value to go on with. -/
theorem bind_eq {r r' : Res ε α} {f : α → Res ε β} {f' : α → Res ε β'} (h : Sim Eq r r')
    (hf : ∀ a, Sim S (f a) (f' a)) : Sim S (r >>= f) (r' >>= f') :=
  h.bind fun a _ ha => ha ▸ hf a

/-- Both runs start with one that is the same. -/
theorem bind_same {r : Res ε α} {f : α → Res ε β} {f' : α → Res ε β'}
    (hf : ∀ a, r = .ok a → Sim S (f a) (f' a)) : Sim S (r >>= f) (r >>= f') := by
  intro b hb
  obtain ⟨a, ha, hb⟩ := bind_eq_ok.mp hb
  obtain ⟨b', hb', hS⟩ := hf a ha b hb
  exact ⟨b', bind_eq_ok.mpr ⟨a, ha, hb'⟩, hS⟩

/-- What the second run rejects the first rejects too. -/
theorem rejectIf {c c' : Prop} [Decidable c] [Decidable c'] {e : ε} {e' : ε'} {f : Unit → Res ε β}
    {f' : Unit → Res ε' β'} (hc : ¬ c → ¬ c') (hf : ¬ c → Sim S (f ()) (f' ())) :
    Sim S (Res.rejectIf c e >>= f) (Res.rejectIf c' e' >>= f') := by
  by_cases h : c
  · rw [rejectIf_of e h, err_bind]
    exact err
  · rw [rejectIf_of_not e h, rejectIf_of_not e' (hc h), ok_bind, ok_bind]
    exact hf h

theorem orReject {o : Option α} {o' : Option α'} {e : ε} {e' : ε'}
    (h : ∀ a, o = some a → ∃ a', o' = some a' ∧ R a a') :
    Sim R (Res.orReject o e) (Res.orReject o' e') := by
  intro a ha
  obtain ⟨a', ha', hR⟩ := h a (orReject_eq_ok.mp ha)
  exact ⟨a', orReject_eq_ok.mpr ha', hR⟩

/-- The second run gets as far as the first, with the same value. -/
theorem orReject_eq {o o' : Option α} {e : ε} {e' : ε'} {f : α → Res ε β} {f' : α → Res ε' β'}
    (h : ∀ a, o = some a → o' = some a) (hf : ∀ a, o = some a → Sim S (f a) (f' a)) :
    Sim S (Res.orReject o e >>= f) (Res.orReject o' e' >>= f') := by
  cases o with
  | none => exact err
  | some a =>
    rw [h a rfl]
    exact hf a rfl

theorem mono {R' : α → α' → Prop} {r : Res ε α} {r' : Res ε' α'} (h : Sim R r r')
    (hR : ∀ a a', R a a' → R' a a') : Sim R' r r' := by
  intro a ha
  obtain ⟨a', ha', h⟩ := h a ha
  exact ⟨a', ha', hR a a' h⟩

end Sim

end Res

open Res

section loops
variable {ε ε' σ σ' β β' : Type} {R : σ → σ' → Prop} {S : β → β' → Prop}

/-- Both passes go on, from related states, or both leave their loop, with related values. -/
inductive Step.Rel (R : σ → σ' → Prop) (S : β → β' → Prop) : Step σ β → Step σ' β' → Prop
  | more {s : σ} {s' : σ'} : R s s' → Rel R S (.more s) (.more s')
  | done {b : β} {b' : β'} : S b b' → Rel R S (.done b) (.done b')

/-- A loop is simulated pass by pass, by one that is granted no fewer iterations. -/
theorem loop_sim {step : σ → Res ε (Step σ β)} {step' : σ' → Res ε' (Step σ' β')}
    (hstep : ∀ s s', R s s' → Sim (Step.Rel R S) (step s) (step' s')) {m n : Nat} (hmn : m ≤ n)
    {s : σ} {s' : σ'} (hs : R s s') : Sim S (loop step m s) (loop step' n s') := by
  induction m generalizing n s s' with
  | zero => exact nofun
  | succ m ih =>
    obtain ⟨n, rfl⟩ := Nat.exists_eq_add_one_of_ne_zero (Nat.ne_of_gt (Nat.lt_of_lt_of_le m.succ_pos hmn))
    rw [loop_succ, loop_succ]
    refine Sim.bind (hstep s s' hs) fun r r' hr => ?_
    cases hr with
    | more hs => exact ih (Nat.le_of_succ_le_succ hmn) hs
    | done hb => exact .ok hb

theorem loop_sim_eq {step step' : σ → Res ε (Step σ β)}
    (hstep : ∀ s, Sim (Step.Rel Eq Eq) (step s) (step' s)) {m n : Nat} (hmn : m ≤ n) (s : σ) :
    Sim Eq (loop step m s) (loop step' n s) :=
  loop_sim (fun s _ hs => hs ▸ hstep s) hmn rfl

/-- The second loop only has to follow the first to the ends that satisfy `P`. -/
theorem loop_agree {step step' : σ → Res ε (Step σ β)} {P : β → Prop}
    (hmore : ∀ s t, step s = .ok (.more t) → step' s = .ok (.more t))
    (hdone : ∀ s b, P b → step s = .ok (.done b) → step' s = .ok (.done b)) {m n : Nat} (hmn : m ≤ n)
    {s : σ} {b : β} (hb : P b) (h : loop step m s = .ok b) : loop step' n s = .ok b := by
  induction m generalizing n s with
  | zero => cases h
  | succ m ih =>
    obtain ⟨n, rfl⟩ := Nat.exists_eq_add_one_of_ne_zero (Nat.ne_of_gt (Nat.lt_of_lt_of_le m.succ_pos hmn))
    rw [loop_succ] at h
    obtain ⟨r, hr, h⟩ := bind_eq_ok.mp h
    cases r with
    | more t =>
      rw [loop_more (hmore s t hr)]
      exact ih (Nat.le_of_succ_le_succ hmn) h
    | done b' =>
      cases h
      exact loop_done (hdone s b hb hr)

end loops

/-! ### Buffers that go on -/

namespace Buffer

/-- `b'` starts with the bytes of `b`. -/
structure Extends (b b' : Buffer) : Prop where
  size_le : b.size ≤ b'.size
  byte_eq : ∀ i < b.size, b'.byte i = b.byte i

namespace Extends
variable {b b' : Buffer} {i n : Nat}

@[refl] theorem refl (b : Buffer) : b.Extends b := ⟨Nat.le_refl _, fun _ _ => rfl⟩

theorem ofList (l m : List UInt8) : (Buffer.ofList l).Extends (.ofList (l ++ m)) := by
  refine ⟨by simp, fun i hi => ?_⟩
  have hi : i < l.length := hi
  rw [byte_ofList hi, byte_ofList (by rw [List.length_append]; omega), List.getElem_append_left hi]

variable (h : b.Extends b')
include h

theorem le16 (hi : i + 2 ≤ b.size) : b'.le16 i = b.le16 i := by
  rw [Buffer.le16, Buffer.le16, h.byte_eq i (by omega), h.byte_eq (i + 1) (by omega)]

theorem le32 (hi : i + 4 ≤ b.size) : b'.le32 i = b.le32 i := by
  rw [Buffer.le32, Buffer.le32, h.byte_eq i (by omega), h.byte_eq (i + 1) (by omega),
    h.byte_eq (i + 2) (by omega), h.byte_eq (i + 3) (by omega)]

theorem slice (hi : i + n ≤ b.size) : b'.slice i n = b.slice i n := by
  refine List.map_congr_left fun k hk => h.byte_eq (i + k) ?_
  have := List.mem_range.mp hk
  omega

theorem patch32 (v : UInt32) : (b.patch32 i v).Extends (b'.patch32 i v) := by
  refine ⟨h.size_le, fun k hk => ?_⟩
  have hbyte := h.byte_eq k hk
  rcases Decidable.em (i ≤ k ∧ k < i + 4) with hin | hout
  · rw [patch32_inside _ _ _ hin.1 hin.2, patch32_inside _ _ _ hin.1 hin.2]
  · rw [patch32_outside b' i v (by omega), patch32_outside b i v (by omega), hbyte]

variable {ε ε' β β' : Type} {S : β → β' → Prop} {f : Nat → Res ε β} {f' : Nat → Res ε' β'}

theorem readable {p : Option Nat} (hf : ∀ i, p = some i → i + n ≤ b.size → Sim S (f i) (f' i)) :
    Sim S (CSem.readable b p n >>= f) (CSem.readable b' p n >>= f') := by
  intro c hc
  obtain ⟨i, hi, hnext⟩ := bind_eq_ok.mp hc
  obtain ⟨rfl, hle⟩ := readable_eq_ok.mp hi
  rw [readable_of_le (Nat.le_trans hle h.size_le)]
  exact hf i rfl hle c hnext

theorem readableAt {p : Int} (hf : 0 ≤ p → p + n ≤ b.size → Sim S (f p.toNat) (f' p.toNat)) :
    Sim S (CSem.readableAt b p n >>= f) (CSem.readableAt b' p n >>= f') := by
  have hsize := h.size_le
  unfold CSem.readableAt
  by_cases hp : 0 ≤ p ∧ p + n ≤ b.size
  · rw [if_pos hp, if_pos (by omega)]
    exact hf hp.1 hp.2
  · rw [if_neg hp]
    exact Sim.fault

theorem store32 {o : Nat} {v : UInt32} :
    Sim Extends (CSem.store32 b o v : Res ε Buffer) (CSem.store32 b' o v : Res ε' Buffer) := by
  intro c hc
  obtain ⟨hle, rfl⟩ := store32_eq_ok.mp hc
  exact ⟨b'.patch32 o v, store32_eq_ok.mpr ⟨Nat.le_trans hle h.size_le, rfl⟩, h.patch32 v⟩

end Extends

end Buffer

end CSem

import Mathlib.Logic.Function.Basic
import Mathlib.Data.List.Basic

/-!
# Traces of a stack

A trace is what was done to a stack, in order: pushes, pops, and observations that it is empty. An
element is named by the position of its push. `LastIn tr src` says that every pop takes the last element
pushed that is still there, `src` giving the element each pop takes; no element is then taken twice, and
all of them have been when the stack is seen empty. `StackRun.lastIn` gets that from a run.
-/

namespace CSem

inductive StackEvent (α : Type) where
  | push (a : α)
  | pop (a : α)
  | empty
deriving DecidableEq, Repr

namespace StackEvent
variable {α : Type}

def isPush : StackEvent α → Bool
  | push _ => true
  | _ => false

def isPop : StackEvent α → Bool
  | pop _ => true
  | _ => false

end StackEvent

variable {α : Type} {tr : List (StackEvent α)} {st : List (Nat × α)} {e : StackEvent α}

/-- The trace leads from the empty stack to `st`, whose elements come with their positions. -/
inductive StackRun : List (StackEvent α) → List (Nat × α) → Prop
  | nil : StackRun [] []
  | push {tr : List (StackEvent α)} {st : List (Nat × α)} (a : α) :
      StackRun tr st → StackRun (tr ++ [.push a]) ((tr.length, a) :: st)
  | pop {tr : List (StackEvent α)} {st : List (Nat × α)} {r : Nat} {a : α} :
      StackRun tr ((r, a) :: st) → StackRun (tr ++ [.pop a]) st
  | empty {tr : List (StackEvent α)} : StackRun tr [] → StackRun (tr ++ [.empty]) []

/-- The element pushed at `r` has been popped before `n`. -/
def Popped (tr : List (StackEvent α)) (src : Nat → Nat) (r n : Nat) : Prop :=
  ∃ c < n, (∃ a, tr[c]? = some (.pop a)) ∧ src c = r

structure LastIn (tr : List (StackEvent α)) (src : Nat → Nat) : Prop where
  pushed : ∀ c a, tr[c]? = some (.pop a) → src c < c ∧ tr[src c]? = some (.push a)
  once : ∀ c c' a a', tr[c]? = some (.pop a) → tr[c']? = some (.pop a') → src c = src c' → c = c'
  newest : ∀ c a r b, tr[c]? = some (.pop a) → src c < r → r < c → tr[r]? = some (.push b) →
    Popped tr src r c
  emptied : ∀ d r b, tr[d]? = some .empty → r < d → tr[r]? = some (.push b) → Popped tr src r d

/-! ### One more event -/

theorem getElem?_snoc {i : Nat} {x : StackEvent α} :
    (tr ++ [e])[i]? = some x ↔ tr[i]? = some x ∨ i = tr.length ∧ x = e := by
  rcases Nat.lt_trichotomy i tr.length with hlt | rfl | hgt
  · rw [List.getElem?_append_left hlt]
    simp [Nat.ne_of_lt hlt]
  · simp [eq_comm]
  · rw [List.getElem?_eq_none (by rw [List.length_append]; exact hgt),
      List.getElem?_eq_none (Nat.le_of_lt hgt)]
    simp [Nat.ne_of_gt hgt]

theorem lt_of_getElem? {i : Nat} {x : StackEvent α} (h : tr[i]? = some x) : i < tr.length :=
  (List.getElem?_eq_some_iff.mp h).1

section
variable {src : Nat → Nat} {r : Nat}

theorem popped_snoc {r' n : Nat} (h : Popped tr src r' n) :
    Popped (tr ++ [e]) (Function.update src tr.length r) r' n := by
  obtain ⟨c, hc, ⟨a, ha⟩, rfl⟩ := h
  exact ⟨c, hc, ⟨a, getElem?_snoc.mpr (.inl ha)⟩,
    Function.update_of_ne (Nat.ne_of_lt (lt_of_getElem? ha)) ..⟩

/-- What has been popped with the last event. -/
theorem popped_snoc_iff {r' : Nat} :
    Popped (tr ++ [e]) (Function.update src tr.length r) r' (tr ++ [e]).length ↔
      Popped tr src r' tr.length ∨ (∃ a, e = .pop a) ∧ r = r' := by
  constructor
  · rintro ⟨c, -, ⟨a, ha⟩, rfl⟩
    rcases getElem?_snoc.mp ha with ha | ⟨rfl, rfl⟩
    · have hc := lt_of_getElem? ha
      rw [Function.update_of_ne (Nat.ne_of_lt hc)]
      exact .inl ⟨c, hc, ⟨a, ha⟩, rfl⟩
    · rw [Function.update_self]
      exact .inr ⟨⟨a, rfl⟩, rfl⟩
  · rintro (h | ⟨⟨a, rfl⟩, rfl⟩)
    · obtain ⟨c, hc, hpop, hsrc⟩ := popped_snoc (e := e) (r := r) h
      exact ⟨c, by rw [List.length_append]; exact Nat.lt_succ_of_lt hc, hpop, hsrc⟩
    · exact ⟨tr.length, by simp, ⟨a, getElem?_snoc.mpr (.inr ⟨rfl, rfl⟩)⟩, Function.update_self ..⟩

/-- What the last event of a trace has to satisfy. -/
def LastEvent (tr : List (StackEvent α)) (src : Nat → Nat) (r : Nat) : StackEvent α → Prop
  | .push _ => True
  | .pop a => tr[r]? = some (.push a) ∧ ¬ Popped tr src r tr.length ∧
      ∀ r' b, r < r' → tr[r']? = some (.push b) → Popped tr src r' tr.length
  | .empty => ∀ r' b, tr[r']? = some (.push b) → Popped tr src r' tr.length

theorem LastIn.snoc (h : LastIn tr src) (hlast : LastEvent tr src r e) :
    LastIn (tr ++ [e]) (Function.update src tr.length r) := by
  have hself : Function.update src tr.length r tr.length = r := Function.update_self ..
  have hsame : ∀ {c x}, tr[c]? = some x → Function.update src tr.length r c = src c := fun hc =>
    Function.update_of_ne (Nat.ne_of_lt (lt_of_getElem? hc)) ..
  constructor
  · intro c a hc
    rcases getElem?_snoc.mp hc with hc | ⟨rfl, rfl⟩
    · rw [hsame hc]
      exact ⟨(h.pushed c a hc).1, getElem?_snoc.mpr (.inl (h.pushed c a hc).2)⟩
    · rw [hself]
      exact ⟨lt_of_getElem? hlast.1, getElem?_snoc.mpr (.inl hlast.1)⟩
  · intro c c' a a' hc hc' heq
    rcases getElem?_snoc.mp hc with hold | ⟨rfl, rfl⟩
    · rcases getElem?_snoc.mp hc' with hold' | ⟨rfl, rfl⟩
      · rw [hsame hold, hsame hold'] at heq
        exact h.once c c' a a' hold hold' heq
      · rw [hsame hold, hself] at heq
        exact absurd ⟨c, lt_of_getElem? hold, ⟨a, hold⟩, heq⟩ hlast.2.1
    · rcases getElem?_snoc.mp hc' with hold' | ⟨rfl, -⟩
      · rw [hsame hold', hself] at heq
        exact absurd ⟨c', lt_of_getElem? hold', ⟨a', hold'⟩, heq.symm⟩ hlast.2.1
      · rfl
  · intro c a r' b hc hlt hrc hr
    have hle := lt_of_getElem? hc
    rw [List.length_append, List.length_singleton] at hle
    obtain hpush | ⟨rfl, -⟩ := getElem?_snoc.mp hr
    · rcases getElem?_snoc.mp hc with hold | ⟨rfl, rfl⟩
      · rw [hsame hold] at hlt
        exact popped_snoc (h.newest c a r' b hold hlt hrc hpush)
      · rw [hself] at hlt
        exact popped_snoc (hlast.2.2 r' b hlt hpush)
    · omega
  · intro d r' b hd hrd hr
    have hle := lt_of_getElem? hd
    rw [List.length_append, List.length_singleton] at hle
    obtain hpush | ⟨rfl, -⟩ := getElem?_snoc.mp hr
    · rcases getElem?_snoc.mp hd with hold | ⟨rfl, rfl⟩
      · exact popped_snoc (h.emptied d r' b hold hrd hpush)
      · exact popped_snoc (hlast r' b hpush)
    · omega

end

/-! ### A run -/

/-- What holds of a trace and the stack it leads to. -/
structure StackInv (tr : List (StackEvent α)) (st : List (Nat × α)) (src : Nat → Nat) : Prop where
  lastIn : LastIn tr src
  held : ∀ p ∈ st, tr[p.1]? = some (.push p.2) ∧ ¬ Popped tr src p.1 tr.length
  others : ∀ r a, tr[r]? = some (.push a) → (r, a) ∈ st ∨ Popped tr src r tr.length
  sorted : st.Pairwise fun p q => q.1 < p.1

theorem not_popped_length {src : Nat → Nat} (h : LastIn tr src) : ¬ Popped tr src tr.length tr.length := by
  rintro ⟨c, hc, ⟨a, ha⟩, hsrc⟩
  have hlt := (h.pushed c a ha).1
  omega

namespace StackInv
variable {src : Nat → Nat} {r : Nat} {a : α}

theorem push (h : StackInv tr st src) (a : α) :
    StackInv (tr ++ [.push a]) ((tr.length, a) :: st) (Function.update src tr.length 0) where
  lastIn := h.lastIn.snoc trivial
  held := by
    simp only [popped_snoc_iff, List.forall_mem_cons, getElem?_snoc, reduceCtorEq, exists_false,
      false_and, or_false]
    exact ⟨⟨.inr ⟨trivial, trivial⟩, not_popped_length h.lastIn⟩, fun p hp => ⟨.inl (h.held p hp).1, (h.held p hp).2⟩⟩
  others r b hr := by
    simp only [popped_snoc_iff, reduceCtorEq, exists_false, false_and, or_false]
    rcases getElem?_snoc.mp hr with hr | ⟨rfl, hb⟩
    · exact (h.others r b hr).imp_left (List.mem_cons_of_mem _)
    · cases hb
      exact .inl List.mem_cons_self
  sorted := List.pairwise_cons.mpr ⟨fun p hp => lt_of_getElem? (h.held p hp).1, h.sorted⟩

/-- The elements pushed after the last one of the stack have been popped. -/
theorem popped_of_lt (h : StackInv tr ((r, a) :: st) src) {r' : Nat} {b : α} (hlt : r < r')
    (hr : tr[r']? = some (.push b)) : Popped tr src r' tr.length := by
  refine (h.others r' b hr).resolve_left fun hmem => ?_
  rcases List.mem_cons.mp hmem with heq | hmem
  · cases heq
    exact Nat.lt_irrefl _ hlt
  · exact Nat.lt_asymm hlt ((List.pairwise_cons.mp h.sorted).1 _ hmem)

theorem pop (h : StackInv tr ((r, a) :: st) src) :
    StackInv (tr ++ [.pop a]) st (Function.update src tr.length r) where
  lastIn := h.lastIn.snoc ⟨(h.held _ List.mem_cons_self).1, (h.held _ List.mem_cons_self).2,
    fun _ _ => h.popped_of_lt⟩
  held p hp := by
    rw [popped_snoc_iff, getElem?_snoc]
    obtain ⟨hpush, hnot⟩ := h.held p (List.mem_cons_of_mem _ hp)
    have hlt := (List.pairwise_cons.mp h.sorted).1 p hp
    exact ⟨.inl hpush, fun hpop => hpop.elim hnot fun hlast => Nat.ne_of_gt hlt hlast.2⟩
  others r' b hr := by
    rw [popped_snoc_iff]
    rcases getElem?_snoc.mp hr with hr | ⟨-, hb⟩
    · rcases h.others r' b hr with hmem | hpop
      · rcases List.mem_cons.mp hmem with heq | hmem
        · cases heq
          exact .inr (.inr ⟨⟨_, rfl⟩, rfl⟩)
        · exact .inl hmem
      · exact .inr (.inl hpop)
    · cases hb
  sorted := (List.pairwise_cons.mp h.sorted).2

theorem empty (h : StackInv tr [] src) : StackInv (tr ++ [.empty]) [] (Function.update src tr.length 0) where
  lastIn := h.lastIn.snoc fun r b hr => (h.others r b hr).resolve_left List.not_mem_nil
  held p hp := absurd hp List.not_mem_nil
  others r b hr := by
    rw [popped_snoc_iff]
    rcases getElem?_snoc.mp hr with hr | ⟨-, hb⟩
    · exact .inr (.inl ((h.others r b hr).resolve_left List.not_mem_nil))
    · cases hb
  sorted := .nil

end StackInv

theorem StackRun.inv (h : StackRun tr st) : ∃ src, StackInv tr st src := by
  induction h with
  | nil => exact ⟨id, ⟨by simp, by simp, by simp, by simp⟩, by simp, by simp, .nil⟩
  | push a _ ih =>
    obtain ⟨src, h⟩ := ih
    exact ⟨_, h.push a⟩
  | pop _ ih =>
    obtain ⟨src, h⟩ := ih
    exact ⟨_, h.pop⟩
  | empty _ ih =>
    obtain ⟨src, h⟩ := ih
    exact ⟨_, h.empty⟩

theorem StackRun.lastIn (h : StackRun tr st) : ∃ src, LastIn tr src := by
  obtain ⟨src, h⟩ := h.inv
  exact ⟨src, h.lastIn⟩

end CSem

import Mathlib.Data.List.Basic

/-!
# Labelled runs

`Runs step s ls t`: steps with the labels `ls` lead from `s` to `t`. What a step keeps holds along every
run (`Runs.invariant`, and `Runs.traced` where it speaks of the labels so far too), and a step that one
system can follow in another carries over to runs (`Runs.map`).
-/

namespace CSem

inductive Runs {σ ℓ : Type} (step : σ → ℓ → σ → Prop) (s : σ) : List ℓ → σ → Prop
  | nil : Runs step s [] s
  | snoc {ls : List ℓ} {l : ℓ} {t u : σ} : Runs step s ls t → step t l u → Runs step s (ls ++ [l]) u

namespace Runs
variable {σ τ ℓ : Type} {step : σ → ℓ → σ → Prop} {s t : σ} {ls : List ℓ}

/-- What holds with no label and is kept by a step, holds of the labels and the state of every run. -/
theorem traced {I : List ℓ → σ → Prop} (h : Runs step s ls t) (hs : I [] s)
    (hstep : ∀ ls l t u, I ls t → step t l u → I (ls ++ [l]) u) : I ls t := by
  induction h with
  | nil => exact hs
  | snoc _ hlast ih => exact hstep _ _ _ _ ih hlast

theorem invariant {I : σ → Prop} (h : Runs step s ls t) (hs : I s)
    (hstep : ∀ l t u, I t → step t l u → I u) : I t :=
  h.traced (I := fun _ t => I t) hs fun _ => hstep

/-- A view of the state that turns steps into steps turns runs into runs. -/
theorem map {step' : τ → ℓ → τ → Prop} (view : σ → τ) (h : Runs step s ls t)
    (hstep : ∀ t l u, step t l u → step' (view t) l (view u)) : Runs step' (view s) ls (view t) := by
  induction h with
  | nil => exact .nil
  | snoc _ hlast ih => exact ih.snoc (hstep _ _ _ hlast)

/-- So does a view of the labels, given of each label of the run. -/
theorem relabel {κ : Type} {step' : σ → κ → σ → Prop} (f : ℓ → κ) (h : Runs step s ls t)
    (hstep : ∀ l ∈ ls, ∀ t u, step t l u → step' t (f l) u) : Runs step' s (ls.map f) t := by
  induction h with
  | nil => exact .nil
  | snoc _ hlast ih =>
    rw [List.forall_mem_append, List.forall_mem_singleton] at hstep
    rw [List.map_append]
    exact (ih hstep.1).snoc (hstep.2 _ _ hlast)

theorem append {ms : List ℓ} {u : σ} (h : Runs step s ls t) (h' : Runs step t ms u) :
    Runs step s (ls ++ ms) u := by
  induction h' with
  | nil =>
    rw [List.append_nil]
    exact h
  | snoc _ hlast ih =>
    rw [← List.append_assoc]
    exact ih.snoc hlast

end Runs

end CSem

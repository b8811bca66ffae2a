import Winlift.CSem.Extent
import Winlift.CSem.Runs

/-!
# Access rights of memory

What the pages of an address space may be used for (`Rights`), how the segments of a program set them
up (`Rights.setAll`), and how requests to change them do (`Protects`). A request that is refused may have
been carried out in part, so after a run an address has the rights of one of its `candidates`: the last
request that was granted there, or a refused one since (`exists_candidate`).
-/

namespace CSem

structure Access where
  read : Bool
  write : Bool
  exec : Bool
deriving DecidableEq, Repr

/-- The access that a system really gives where some is asked for. It may give more than that, but never
to write. -/
structure AccessPolicy where
  grants : Access → Access
  read : ∀ a, a.read = true → (grants a).read = true
  exec : ∀ a, a.exec = true → (grants a).exec = true
  write : ∀ a, (grants a).write = a.write

def AccessPolicy.exact : AccessPolicy where
  grants := id
  read _ := id
  exec _ := id
  write _ := rfl

/-- The rights at every address, `none` where nothing is mapped. -/
abbrev Rights := Nat → Option Access

namespace Rights

def set (m : Rights) (range : Extent) (a : Access) : Rights :=
  fun x => if x ∈ range then some a else m x

variable {m : Rights} {range : Extent} {a : Access} {x : Nat}

theorem set_of_mem (h : x ∈ range) : m.set range a x = some a := if_pos h

theorem set_of_not_mem (h : x ∉ range) : m.set range a x = m x := if_neg h

/-- Each part with its access, a later one over an earlier one. -/
def setAll (policy : AccessPolicy) (m : Rights) (parts : List (Extent × Access)) : Rights :=
  parts.foldl (fun m p => m.set p.1 (policy.grants p.2)) m

variable {policy : AccessPolicy} {parts : List (Extent × Access)}

theorem setAll_of_not_mem (h : ∀ p ∈ parts, x ∉ p.1) : setAll policy m parts x = m x := by
  induction parts generalizing m with
  | nil => rfl
  | cons p parts ih =>
    rw [List.forall_mem_cons] at h
    exact (ih h.2).trans (set_of_not_mem h.1)

/-- Parts that are apart keep their own. -/
theorem setAll_of_apart (h : (parts.map Prod.fst).Pairwise Extent.Apart) {p : Extent × Access}
    (hp : p ∈ parts) (hx : x ∈ p.1) : setAll policy m parts x = some (policy.grants p.2) := by
  obtain ⟨l₁, l₂, rfl⟩ := List.append_of_mem hp
  rw [List.map_append, List.pairwise_append, List.map_cons, List.pairwise_cons] at h
  have hlast : ∀ q ∈ l₂, x ∉ q.1 := fun q hq => (h.2.1.1 _ (List.mem_map_of_mem hq)).not_mem hx
  rw [setAll, List.foldl_append, List.foldl_cons]
  exact (setAll_of_not_mem hlast).trans (set_of_mem hx)

end Rights

/-- A request to change the rights of a range, and whether it was granted. -/
structure RightsRequest where
  range : Extent
  access : Access
  granted : Bool

/-- What a system may do with a request. To grant it the whole range must be mapped; refused, it may have been
carried out on any part of the range. -/
inductive Protects (policy : AccessPolicy) (m : Rights) : RightsRequest → Rights → Prop where
  | granted {range : Extent} {a : Access} (hmapped : ∀ x ∈ range, m x ≠ none) :
      Protects policy m ⟨range, a, true⟩ (m.set range (policy.grants a))
  | refused {range : Extent} {a : Access} {m' : Rights}
      (h : ∀ x, m' x = m x ∨ x ∈ range ∧ m x ≠ none ∧ m' x = some (policy.grants a)) :
      Protects policy m ⟨range, a, false⟩ m'

/-- What the rights at `x` may have been set to: by the last request granted there, or by a refused one
since. -/
def candidates (x : Nat) (initial : Access) (reqs : List RightsRequest) : List Access :=
  reqs.foldl (fun as r => if x ∈ r.range then if r.granted then [r.access] else as ++ [r.access] else as)
    [initial]

section
variable {policy : AccessPolicy} {m m' : Rights} {x : Nat} {a initial : Access} {r : RightsRequest}
  {reqs : List RightsRequest}

theorem candidates_append : candidates x initial (reqs ++ [r]) =
    if x ∈ r.range then if r.granted then [r.access] else candidates x initial reqs ++ [r.access]
    else candidates x initial reqs := List.foldl_concat ..

theorem Protects.exists_candidate (h : Protects policy m r m')
    (hm : ∃ a ∈ candidates x initial reqs, m x = some (policy.grants a)) :
    ∃ a ∈ candidates x initial (reqs ++ [r]), m' x = some (policy.grants a) := by
  obtain ⟨b, hb, hm⟩ := hm
  rw [candidates_append]
  rcases h with @⟨range, a, hmapped⟩ | @⟨range, a, m', h⟩
  · by_cases hx : x ∈ range
    · rw [if_pos hx, if_pos rfl]
      exact ⟨a, List.mem_singleton_self _, Rights.set_of_mem hx⟩
    · rw [if_neg hx]
      exact ⟨b, hb, (Rights.set_of_not_mem hx).trans hm⟩
  · rcases h x with heq | ⟨hx, -, heq⟩
    · refine ⟨b, ?_, heq.trans hm⟩
      split_ifs with hx hgranted
      · cases hgranted
      · exact List.mem_append_left _ hb
      · exact hb
    · rw [if_pos hx, if_neg Bool.false_ne_true]
      exact ⟨a, List.mem_append_right _ (List.mem_singleton_self _), heq⟩

theorem exists_candidate (h : Runs (Protects policy) m reqs m') (hm : m x = some (policy.grants initial)) :
    ∃ a ∈ candidates x initial reqs, m' x = some (policy.grants a) :=
  h.traced (I := fun reqs m' => ∃ a ∈ candidates x initial reqs, m' x = some (policy.grants a))
    ⟨initial, List.mem_singleton_self _, hm⟩ fun _ _ _ _ hm hstep => hstep.exists_candidate hm

/-- Nothing is a candidate but the initial rights and what a request has asked for there. -/
theorem of_mem_candidates (h : a ∈ candidates x initial reqs) :
    a = initial ∨ ∃ r ∈ reqs, x ∈ r.range ∧ a = r.access := by
  induction reqs using List.reverseRecOn with
  | nil => exact .inl (List.mem_singleton.mp h)
  | append_singleton reqs r ih =>
    rw [candidates_append] at h
    have hlast : x ∈ r.range → a = r.access → ∃ r' ∈ reqs ++ [r], x ∈ r'.range ∧ a = r'.access :=
      fun hx ha => ⟨r, List.mem_append_right _ (List.mem_singleton_self _), hx, ha⟩
    have hearlier : a ∈ candidates x initial reqs →
        a = initial ∨ ∃ r' ∈ reqs ++ [r], x ∈ r'.range ∧ a = r'.access := by
      intro h
      rcases ih h with ha | ⟨r', hr', h⟩
      · exact .inl ha
      · exact .inr ⟨r', List.mem_append_left _ hr', h⟩
    split_ifs at h with hx hgranted
    · exact .inr (hlast hx (List.mem_singleton.mp h))
    · rcases List.mem_append.mp h with h | h
      · exact hearlier h
      · exact .inr (hlast hx (List.mem_singleton.mp h))
    · exact hearlier h

end

end CSem

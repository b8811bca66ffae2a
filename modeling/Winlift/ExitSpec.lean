import Winlift.ShimExit
import Mathlib.Data.List.Induction

/-!
# Exit callbacks run once, the newest first

Seen from outside the list is a stack, as long as a registration never finds it full
(`exitRun_stack`): a callback that registers another reuses the slot it was taken from, and a nested
drain takes elements the outer one would have taken. A registration that does find the list full is
dropped, and reported as successful (`registrations_kept_iff`).
-/

namespace Winlift
open CSem

/-! ### The list -/

section
variable {l : AtexitList} {fn : UInt32}

theorem pending_register (h : l.count < maxAtexit) :
    (shimOnexitRegister fn l).pending = fn :: l.pending := by
  rw [shimOnexitRegister, if_pos h]
  simp only [AtexitList.pending, List.range_succ, List.reverse_append, List.reverse_singleton,
    List.singleton_append, List.map_cons, Function.update_self]
  refine congrArg (fn :: ·) (List.map_congr_left fun i hi => Function.update_of_ne ?_ ..)
  exact Nat.ne_of_lt (List.mem_range.mp (List.mem_reverse.mp hi))

theorem register_full (h : ¬ l.count < maxAtexit) : shimOnexitRegister fn l = l := if_neg h

theorem pending_pop (h : 0 < l.count) :
    l.pending = l.fns (l.count - 1) :: AtexitList.pending ⟨l.fns, l.count - 1⟩ := by
  obtain ⟨n, hn⟩ := Nat.exists_eq_succ_of_ne_zero (Nat.ne_of_gt h)
  simp [AtexitList.pending, hn, List.range_succ]

theorem pending_eq_nil : l.pending = [] ↔ l.count = 0 := by simp [AtexitList.pending]

@[simp] theorem length_pending : l.pending.length = l.count := by simp [AtexitList.pending]

end

/-! ### Steps -/

theorem drainStep_cases {s s' : ExitState} {d : Drain} {ds : List Drain} {es : List ExitEvent}
    (h : drainStep s d ds = (s', es)) :
    (∃ fn, s.list.pending = fn :: s'.list.pending ∧ es = [.pop fn]) ∨
      (s.list.pending = [] ∧ s'.list = s.list ∧ es = [.empty]) := by
  unfold drainStep at h
  by_cases hpos : 0 < s.list.count
  · rw [if_pos hpos] at h
    cases h
    exact .inl ⟨_, pending_pop hpos, rfl⟩
  · rw [if_neg hpos] at h
    have hnil : s.list.pending = [] := pending_eq_nil.mpr (Nat.eq_zero_of_not_pos hpos)
    rcases d with _ | code
    · cases h
      exact .inr ⟨hnil, rfl, rfl⟩
    · cases h
      exact .inr ⟨hnil, rfl, rfl⟩

/-- What a step does to the list, and reports. -/
theorem exitStep_cases {s s' : ExitState} {a : ExitAct} {es : List ExitEvent}
    (h : exitStep s a = some (s', es)) :
    (∃ fn, s'.list = shimOnexitRegister fn s.list ∧ es = [.push fn]) ∨
      (s'.list = s.list ∧ es = []) ∨
      (∃ fn, s.list.pending = fn :: s'.list.pending ∧ es = [.pop fn]) ∨
      (s.list.pending = [] ∧ s'.list = s.list ∧ es = [.empty]) := by
  obtain ⟨l, ds, running, exited⟩ := s
  rcases exited with _ | code
  swap
  · cases h
  cases a with
  | atexit fn | onexit fn =>
    cases running <;> cases ds <;> cases h <;> exact .inl ⟨_, rfl, rfl⟩
  | cexit | exit code | exitProcess code | ret =>
    cases running <;> cases ds <;> cases h <;> exact .inr (.inl ⟨rfl, rfl⟩)
  | drain =>
    cases running with
    | true => cases ds <;> cases h
    | false =>
      rcases ds with _ | ⟨d, ds⟩
      · cases h
      · exact .inr (.inr (drainStep_cases (Option.some.inj h)))

/-- What has been taken off the list is called: program code runs, and returns to the drain. A null one is not,
and the drain goes on. -/
theorem pop_calls {s s' : ExitState} {a : ExitAct} {es : List ExitEvent} {fn : UInt32}
    (h : exitStep s a = some (s', es)) (hpop : .pop fn ∈ es) :
    s.running = false ∧ (s'.running = true ↔ fn ≠ 0) ∧ s'.drains = s.drains ∧ s'.exited = none := by
  obtain ⟨l, ds, running, exited⟩ := s
  rcases exited with _ | code
  swap
  · cases h
  cases a with
  | atexit _ | onexit _ | cexit | exit _ | exitProcess _ | ret =>
    cases running <;> cases ds <;> cases h <;> simp at hpop
  | drain =>
    cases running with
    | true => cases ds <;> cases h
    | false =>
      rcases ds with _ | ⟨d, ds⟩
      · cases h
      have hstep : drainStep ⟨l, d :: ds, false, none⟩ d ds = (s', es) := Option.some.inj h
      unfold drainStep at hstep
      split_ifs at hstep with hpos
      · cases hstep
        obtain rfl : fn = l.fns (l.count - 1) := by simpa using hpop
        exact ⟨rfl, decide_eq_true_iff, rfl, rfl⟩
      · cases d <;> cases hstep <;> simp at hpop

/-! ### Runs -/

/-- At any time at most 32 registrations are pending, null ones included. -/
def FewPending (tr : List ExitEvent) : Prop :=
  ∀ tr', tr' <+: tr → tr'.countP StackEvent.isPush ≤ tr'.countP StackEvent.isPop + maxAtexit

theorem FewPending.of_append {tr es : List ExitEvent} (h : FewPending (tr ++ es)) : FewPending tr :=
  fun _ htr => h _ (htr.trans (List.prefix_append tr es))

theorem fewPending_of_le {tr : List ExitEvent} (h : tr.countP StackEvent.isPush ≤ maxAtexit) :
    FewPending tr := fun _ htr =>
  Nat.le_trans (htr.sublist.countP_le) (Nat.le_trans h (Nat.le_add_left ..))

/-- The list is a stack as long as no registration finds it full. -/
theorem exitRun_stack {tr : List ExitEvent} {s : ExitState} (hrun : ExitRun .start tr s)
    (hfew : FewPending tr) : ∃ st, StackRun tr st ∧ st.map Prod.snd = s.list.pending ∧
      tr.countP StackEvent.isPush = tr.countP StackEvent.isPop + s.list.count := by
  induction hrun with
  | nil => exact ⟨[], .nil, rfl, rfl⟩
  | @snoc tr es s s' a _ hstep ih =>
    obtain ⟨st, hst, hlist, hcount⟩ := ih hfew.of_append
    rcases exitStep_cases hstep with ⟨fn, hl, rfl⟩ | ⟨hl, rfl⟩ | ⟨fn, hl, rfl⟩ | ⟨hnil, hl, rfl⟩
    · -- the count of registrations and pops says that there is room
      have hroom : s.list.count < maxAtexit := by
        have hle := hfew _ (List.prefix_refl _)
        simp only [List.countP_append, List.countP_singleton, StackEvent.isPush, StackEvent.isPop, if_true,
          Bool.false_eq_true, if_false] at hle
        omega
      refine ⟨_, hst.push fn, ?_, ?_⟩
      · rw [hl, pending_register hroom, List.map_cons, hlist]
      · rw [hl, shimOnexitRegister, if_pos hroom]
        simp [hcount, StackEvent.isPush, StackEvent.isPop]
        omega
    · rw [List.append_nil, hl]
      exact ⟨st, hst, hlist, hcount⟩
    · rw [hl] at hlist
      obtain ⟨⟨r, b⟩, st', rfl, hb, hlist'⟩ := List.map_eq_cons_iff.mp hlist
      cases hb
      refine ⟨st', hst.pop, hlist', ?_⟩
      have hlen := congrArg List.length hl
      rw [length_pending, List.length_cons, length_pending] at hlen
      simp [hcount, StackEvent.isPush, StackEvent.isPop]
      omega
    · rw [hnil] at hlist
      obtain rfl := List.map_eq_nil_iff.mp hlist
      refine ⟨[], hst.empty, by rw [hl, hnil]; rfl, ?_⟩
      rw [hl]
      simp [hcount, StackEvent.isPush, StackEvent.isPop]

/-- Every callback taken off the list is the last one registered that is still there; none is taken
twice, and all of them have been when a drain completes. -/
theorem exit_callbacks_once {tr : List ExitEvent} {s : ExitState} (hrun : ExitRun .start tr s)
    (hfew : FewPending tr) : ∃ src, LastIn tr src := by
  obtain ⟨st, hst, -⟩ := exitRun_stack hrun hfew
  exact hst.lastIn

/-- The callback at 2 registers another one and then calls `exit`, which runs that one and the rest. -/
theorem exit_callbacks_once_nested : ∃ tr s src, ExitRun .start tr s ∧ s.exited = some 7 ∧
    tr = [.push 1, .push 2, .pop 2, .push 3, .pop 3, .pop 1, .empty] ∧ LastIn tr src := by
  have hrun : ExitRun .start _ _ := ExitRun.nil
    |>.snoc (a := .atexit 1) rfl |>.snoc (a := .onexit 2) rfl |>.snoc (a := .cexit) rfl
    |>.snoc (a := .drain) rfl |>.snoc (a := .atexit 3) rfl |>.snoc (a := .exit 7) rfl
    |>.snoc (a := .drain) rfl |>.snoc (a := .ret) rfl |>.snoc (a := .drain) rfl
    |>.snoc (a := .ret) rfl |>.snoc (a := .drain) rfl
  obtain ⟨src, hsrc⟩ := exit_callbacks_once hrun (fewPending_of_le (by decide))
  exact ⟨_, _, src, hrun, rfl, rfl, hsrc⟩

/-! ### Registrations that are dropped -/

inductive RegCall where
  | atexit (fn : UInt32)
  | onexit (fn : UInt32)
deriving DecidableEq, Repr

namespace RegCall

def fn : RegCall → UInt32
  | atexit fn => fn
  | onexit fn => fn

/-- The list after the call. -/
def list (l : AtexitList) : RegCall → AtexitList
  | atexit fn => (Msvcrt.atexit fn l).1
  | onexit fn => (Msvcrt.onexit fn l).1

/-- The call reports that it registered the function. -/
def Reported (l : AtexitList) : RegCall → Prop
  | atexit fn => (Msvcrt.atexit fn l).2 = 0
  | onexit fn => (Msvcrt.onexit fn l).2 = fn

theorem reported (l : AtexitList) (c : RegCall) : c.Reported l := by cases c <;> rfl

end RegCall

def registerAll (calls : List RegCall) : AtexitList := calls.foldl RegCall.list ⟨fun _ => 0, 0⟩

/-- The first 32 functions are on the list. -/
theorem pending_registerAll (calls : List RegCall) :
    (registerAll calls).pending = ((calls.map RegCall.fn).take maxAtexit).reverse := by
  induction calls using List.reverseRecOn with
  | nil => rfl
  | append_singleton calls c ih =>
    have hlen : (registerAll calls).count = min maxAtexit calls.length := by
      rw [← length_pending, ih, List.length_reverse, List.length_take, List.length_map]
    have hlast : registerAll (calls ++ [c]) = shimOnexitRegister c.fn (registerAll calls) := by
      rw [registerAll, List.foldl_append]
      cases c <;> rfl
    rw [hlast, List.map_append]
    rcases Nat.lt_or_ge calls.length maxAtexit with hroom | hroom
    · rw [pending_register (by omega), ih, List.take_of_length_le (by simpa using Nat.le_of_lt hroom),
        List.take_of_length_le (by simpa using Nat.succ_le_of_lt hroom)]
      simp
    · rw [register_full (by omega), ih, List.take_append_of_le_length (by simpa using hroom)]

theorem mem_pending_registerAll {calls : List RegCall} {fn : UInt32} :
    fn ∈ (registerAll calls).pending ↔ fn ∈ (calls.map RegCall.fn).take maxAtexit := by
  rw [pending_registerAll, List.mem_reverse]

/-- Once it is full the list does not change. -/
theorem pending_of_full {pre : List RegCall} (hfull : maxAtexit ≤ pre.length) (post : List RegCall) :
    (registerAll (pre ++ post)).pending = (registerAll pre).pending := by
  rw [pending_registerAll, pending_registerAll, List.map_append,
    List.take_append_of_le_length (by rwa [List.length_map])]

theorem pending_subset (pre post : List RegCall) :
    (registerAll pre).pending ⊆ (registerAll (pre ++ post)).pending := by
  intro fn hfn
  rw [mem_pending_registerAll] at hfn ⊢
  rw [List.map_append, List.take_append]
  exact List.mem_append_left _ hfn

/-- What is on the list has been taken off it when a drain completes. -/
theorem taken_of_pending {s s' : ExitState} {tr : List ExitEvent} {fn : UInt32} (hrun : ExitRun s tr s')
    (hfn : fn ∈ s.list.pending) : (fn ∈ s'.list.pending ∨ .pop fn ∈ tr) ∧
      (.empty ∈ tr → .pop fn ∈ tr) := by
  induction hrun with
  | nil => exact ⟨.inl hfn, fun h => absurd h List.not_mem_nil⟩
  | @snoc tr es s₁ s₂ a _ hstep ih =>
    obtain ⟨hpending, hempty⟩ := ih
    rcases exitStep_cases hstep with ⟨g, hl, rfl⟩ | ⟨hl, rfl⟩ | ⟨g, hl, rfl⟩ | ⟨hnil, hl, rfl⟩
    · have hkept : fn ∈ s₁.list.pending → fn ∈ s₂.list.pending := by
        intro h
        rw [hl]
        by_cases hroom : s₁.list.count < maxAtexit
        · rw [pending_register hroom]
          exact List.mem_cons_of_mem _ h
        · rwa [register_full hroom]
      simpa using ⟨hpending.imp_left hkept, hempty⟩
    · rw [List.append_nil, hl]
      exact ⟨hpending, hempty⟩
    · rw [hl] at hpending
      simp only [List.mem_append, List.mem_singleton, StackEvent.pop.injEq, reduceCtorEq, or_false]
      rcases hpending with h | h
      · rcases List.mem_cons.mp h with rfl | h
        · exact ⟨.inr (.inr rfl), fun _ => .inr rfl⟩
        · exact ⟨.inl h, fun he => .inl (hempty he)⟩
      · exact ⟨.inr (.inl h), fun _ => .inl h⟩
    · rw [hnil] at hpending
      have hpop := hpending.resolve_left List.not_mem_nil
      simp [hpop]

/-- Every function whose registration is reported is on the list then, and called by the time a drain
completes that follows the calls. -/
def RegistrationsKept (calls : List RegCall) : Prop :=
  ∀ pre c post, calls = pre ++ c :: post → c.fn ≠ 0 → c.Reported (registerAll pre) →
    c.fn ∈ (registerAll (pre ++ [c])).pending ∧
      ∀ s tr s', s.list = registerAll calls → ExitRun s tr s' → .empty ∈ tr → .pop c.fn ∈ tr

/-- So it is exactly when no call after the first 32 registers a function that none of those did. -/
theorem registrations_kept_iff (calls : List RegCall) :
    RegistrationsKept calls ↔ ∀ fn ∈ (calls.map RegCall.fn).drop maxAtexit, fn ≠ 0 →
      fn ∈ (calls.map RegCall.fn).take maxAtexit := by
  constructor
  · intro hkept fn hfn hne
    rw [← List.map_drop, List.mem_map] at hfn
    obtain ⟨c, hc, rfl⟩ := hfn
    obtain ⟨as, bs, hdrop⟩ := List.append_of_mem hc
    have hcalls : calls = (calls.take maxAtexit ++ as) ++ c :: bs := by
      rw [List.append_assoc, ← hdrop, List.take_append_drop]
    have hfull : maxAtexit ≤ (calls.take maxAtexit).length := by
      have hlen := congrArg List.length hdrop
      rw [List.length_drop, List.length_append, List.length_cons] at hlen
      rw [List.length_take]
      omega
    have hmem := (hkept _ c bs hcalls hne (c.reported _)).1
    rw [List.append_assoc, pending_of_full hfull] at hmem
    have hsub := pending_subset (calls.take maxAtexit) (calls.drop maxAtexit) hmem
    rwa [List.take_append_drop, mem_pending_registerAll] at hsub
  · rintro hnew pre c post rfl hne -
    have hmem : c.fn ∈ (registerAll (pre ++ [c])).pending := by
      rcases Nat.lt_or_ge pre.length maxAtexit with hroom | hfull
      · rw [mem_pending_registerAll, List.take_of_length_le (by simpa using Nat.succ_le_of_lt hroom)]
        simp
      · have hlate : c.fn ∈ ((pre ++ c :: post).map RegCall.fn).drop maxAtexit := by
          rw [List.map_append, List.drop_append_of_le_length (by rwa [List.length_map])]
          exact List.mem_append_right _ List.mem_cons_self
        have hearly := mem_pending_registerAll.mpr (hnew c.fn hlate hne)
        rwa [pending_of_full hfull] at hearly ⊢
    refine ⟨hmem, fun s tr s' hs hrun hempty => (taken_of_pending hrun ?_).2 hempty⟩
    rw [hs, List.append_cons]
    exact pending_subset _ _ hmem

/-- The 33rd of 33 registrations is reported like the others, and dropped. -/
theorem registrations_dropped :
    ¬ RegistrationsKept ((List.range 33).map fun k => .atexit (UInt32.ofNat (k + 1))) := by
  intro h
  have hmem := (h ((List.range 32).map fun k => .atexit (UInt32.ofNat (k + 1))) (.atexit 33) [] rfl
    (by decide) rfl).1
  rw [pending_registerAll] at hmem
  exact absurd hmem (by decide)

end Winlift

import Winlift.CSem.I386

/-!
# The first instructions (`shim_entry.S`)

The kernel starts a program with the argument count, the pointers of `argv` and those of `envp` on its
stack, each list with a null pointer behind it. `_start` finds the three arguments of
`shim_startup_init` there, calls it, and jumps to the word at `shim_pe_entry_target`
(`start_enters_program`). Where the assembler put the instructions does not matter: the code is a listing
with labels, intact as long as only the stack is stored to.
-/

namespace Winlift
open CSem I386 Machine

/-- `_start`. -/
def startCode (shimStartupInit shimPeEntryTarget : UInt32) : List Instr :=
  [.xor .ebp .ebp,
    .mov .eax { disp := 0, base := some .esp },
    .lea .ebx { disp := 4, base := some .esp },
    .lea .ecx { disp := 4, base := some .ebx, index := some .eax, scale := 4 },
    .push .ecx,
    .push .ebx,
    .push .eax,
    .call shimStartupInit,
    .add .esp 12,
    .mov .eax { disp := shimPeEntryTarget },
    .jmp .eax]

/-- What the kernel leaves at `esp`. -/
def initialStack (argv envp : List UInt32) : List UInt32 :=
  UInt32.ofNat argv.length :: (argv ++ [0]) ++ (envp ++ [0])

/-- The words `ws` are at `a`. -/
def WordsAt (m : Ram) (a : UInt32) (ws : List UInt32) : Prop := m.Holds a (ws.flatMap le32Bytes)

theorem length_wordBytes (ws : List UInt32) : (ws.flatMap le32Bytes).length = 4 * ws.length := by
  simp [List.length_flatMap, List.map_const', Nat.mul_comm]

theorem wordsAt_append {m : Ram} {a : UInt32} {ws ws' : List UInt32} :
    WordsAt m a (ws ++ ws') ↔ WordsAt m a ws ∧ WordsAt m (a + 4 * UInt32.ofNat ws.length) ws' := by
  rw [WordsAt, List.flatMap_append, Ram.holds_append, length_wordBytes, UInt32.ofNat_mul]
  rfl

theorem wordsAt_cons {m : Ram} {a v : UInt32} {ws : List UInt32} :
    WordsAt m a (v :: ws) ↔ m.Holds a (le32Bytes v) ∧ WordsAt m (a + 4) ws := by
  rw [WordsAt, List.flatMap_cons, Ram.holds_append]
  rfl

/-- `shim_startup_init` is about to run, with `argc`, `argv` and `envp` as C passes them, to return to
`ret`. -/
structure CallsStartup (m : Machine) (argv envp : List UInt32) (ret : UInt32) : Prop where
  args : ∃ argvPtr envpPtr, WordsAt m.mem (m.reg .esp) [ret, UInt32.ofNat argv.length, argvPtr, envpPtr] ∧
    WordsAt m.mem argvPtr (argv ++ [0]) ∧ WordsAt m.mem envpPtr (envp ++ [0])

/-- What a C function promises its caller: it was called in the state `m` and has returned in `m'`. -/
structure Returned (m m' : Machine) (ret : UInt32) : Prop where
  eip : m'.eip = ret
  esp : m'.reg .esp = m.reg .esp + 4
  ebp : m'.reg .ebp = m.reg .ebp

/-- The program is at its entry point, on the stack the kernel made, with `ebp` cleared. -/
structure EntersProgram (m m' : Machine) (entry : UInt32) : Prop where
  eip : m'.eip = entry
  esp : m'.reg .esp = m.reg .esp
  ebp : m'.reg .ebp = 0

section
variable {mapped : UInt32 → Bool} {fetch : Fetch} {C : Ram → Prop}
  {shimStartupInit shimPeEntryTarget start stop : UInt32} {argv envp : List UInt32} {m : Machine}

theorem mapped_below {a : UInt32} {n k : Nat} (h : Ram.Mapped mapped (a - UInt32.ofNat n) (n + 4)) (hk : k ≤ n) :
    Ram.Mapped mapped (a - UInt32.ofNat k) 4 := by
  intro j hj
  have hsplit : a - UInt32.ofNat k + UInt32.ofNat j = a - UInt32.ofNat n + UInt32.ofNat (n - k + j) := by
    have hnk : UInt32.ofNat n = UInt32.ofNat (n - k) + UInt32.ofNat k := by
      rw [← UInt32.ofNat_add, Nat.sub_add_cancel hk]
    rw [UInt32.ofNat_add, hnk]
    grind
  rw [hsplit]
  exact h _ (by omega)

theorem inBlock_below {a b : UInt32} {n k : Nat} (h : inBlock (a - UInt32.ofNat n) n b = false)
    (h4 : 4 ≤ k) (hk : k ≤ n) (hn : n < 2 ^ 32) : inBlock (a - UInt32.ofNat k) 4 b = false := by
  have hsplit : b - (a - UInt32.ofNat n) = b - (a - UInt32.ofNat k) + UInt32.ofNat (n - k) := by
    have hnk : UInt32.ofNat n = UInt32.ofNat (n - k) + UInt32.ofNat k := by
      rw [← UInt32.ofNat_add, Nat.sub_add_cancel hk]
    rw [hnk]
    grind
  rw [inBlock, decide_eq_false_iff_not, hsplit, UInt32.toNat_add, UInt32.toNat_ofNat_of_lt'
    (show n - k < 2 ^ 32 by omega)] at h
  rw [inBlock, decide_eq_false_iff_not]
  omega

/-- The arguments are in registers, and the pushes come next. -/
structure FindsArgs (m m' : Machine) (argc : Nat) : Prop where
  eax : m'.reg .eax = UInt32.ofNat argc
  ebx : m'.reg .ebx = m.reg .esp + 4
  ecx : m'.reg .ecx = m.reg .esp + 4 * UInt32.ofNat (argc + 2)
  ebp : m'.reg .ebp = 0
  esp : m'.reg .esp = m.reg .esp
  mem : m'.mem = m.mem

theorem start_finds_args (hcode : Listing fetch C m.eip (startCode shimStartupInit shimPeEntryTarget) stop)
    (hC : C m.mem) (hargc : m.mem.load32 mapped (m.reg .esp) = some (UInt32.ofNat argv.length)) : ∃ m₄,
      run mapped fetch 4 m = .running m₄ ∧ FindsArgs m m₄ argv.length ∧
        Listing fetch C m₄.eip ((startCode shimStartupInit shimPeEntryTarget).drop 4) stop := by
  obtain ⟨l₁, h₁, l₂, h₂, l₃, h₃, l₄, h₄, hrest⟩ := hcode
  obtain ⟨m₁, s₁, e₁, a₁⟩ := @step_xor mapped fetch _ _ _ _ (h₁ m rfl hC)
  have hesp₁ : m₁.reg .esp = m.reg .esp := a₁.regs .esp (by decide)
  have hload : m₁.mem.load32 mapped (m₁.addr { disp := 0, base := some .esp }) =
      some (UInt32.ofNat argv.length) := by
    have haddr : m₁.addr { disp := 0, base := some .esp } = m.reg .esp := by simp [addr, hesp₁]
    rw [haddr, a₁.mem, hargc]
  obtain ⟨m₂, s₂, e₂, a₂⟩ := @step_mov mapped fetch m₁ _ _ _ _ (h₂ m₁ e₁ (a₁.mem ▸ hC)) hload
  have hmem₂ : m₂.mem = m.mem := a₂.mem.trans a₁.mem
  obtain ⟨m₃, s₃, e₃, a₃⟩ := @step_lea mapped fetch m₂ _ _ _ (h₃ m₂ (by rw [e₂, e₁]) (hmem₂ ▸ hC))
  have hmem₃ : m₃.mem = m.mem := a₃.mem.trans hmem₂
  obtain ⟨m₄, s₄, e₄, a₄⟩ := @step_lea mapped fetch m₃ _ _ _ (h₄ m₃ (by rw [e₃, e₂, e₁]) (hmem₃ ▸ hC))
  have hesp₂ : m₂.reg .esp = m.reg .esp := (a₂.regs .esp (by decide)).trans hesp₁
  have heax : m₃.reg .eax = UInt32.ofNat argv.length := (a₃.regs .eax (by decide)).trans a₂.reg
  have hebx : m₃.reg .ebx = m.reg .esp + 4 := by
    rw [a₃.reg, addr, Option.elim_some, hesp₂, Option.elim_none, UInt32.zero_mul, UInt32.add_zero, UInt32.add_comm]
  refine ⟨m₄, ?_, ⟨?_, ?_, ?_, ?_, ?_, ?_⟩, by rw [e₄, e₃, e₂, e₁]; exact hrest⟩
  · rw [run_succ s₁, run_succ s₂, run_succ s₃, run_succ s₄]
    rfl
  · rw [a₄.regs .eax (by decide), heax]
  · rw [a₄.regs .ebx (by decide), hebx]
  · rw [a₄.reg, addr, Option.elim_some, hebx, Option.elim_some, heax, UInt32.ofNat_add]
    show 4 + (m.reg .esp + 4) + UInt32.ofNat argv.length * 4 = m.reg .esp + 4 * (UInt32.ofNat argv.length + 2)
    grind
  · rw [a₄.regs .ebp (by decide), a₃.regs .ebp (by decide), a₂.regs .ebp (by decide), a₁.reg, UInt32.xor_self]
  · rw [a₄.regs .esp (by decide), a₃.regs .esp (by decide), hesp₂]
  · rw [a₄.mem, hmem₃]

/-- The kernel's words, found again by the pointers that `_start` passes. -/
theorem callsStartup_of_stack {m₁ : Machine} {esp ret : UInt32}
    (hesp : m₁.reg .esp = esp - 16)
    (h : WordsAt m₁.mem (m₁.reg .esp) ([ret, UInt32.ofNat argv.length, esp + 4,
      esp + 4 * UInt32.ofNat (argv.length + 2)] ++ initialStack argv envp)) : CallsStartup m₁ argv envp ret := by
  rw [wordsAt_append] at h
  obtain ⟨hargs, hstack⟩ := h
  have hback : m₁.reg .esp + 4 * UInt32.ofNat 4 = esp := by
    rw [hesp]
    exact UInt32.sub_add_cancel ..
  rw [List.length_cons, List.length_cons, List.length_cons, List.length_singleton, hback, initialStack,
    List.cons_append, wordsAt_cons, wordsAt_append] at hstack
  refine ⟨_, _, hargs, hstack.2.1, ?_⟩
  have henvp : esp + 4 + 4 * UInt32.ofNat (argv ++ [0]).length = esp + 4 * UInt32.ofNat (argv.length + 2) := by
    rw [List.length_append, List.length_singleton, UInt32.ofNat_add, UInt32.ofNat_add]
    show esp + 4 + 4 * (UInt32.ofNat argv.length + 1) = esp + 4 * (UInt32.ofNat argv.length + 2)
    grind
  rw [← henvp]
  exact hstack.2.2

/-- The call. -/
theorem start_calls (hcode : Listing fetch C m.eip (startCode shimStartupInit shimPeEntryTarget) stop)
    (hC : ∀ mem, (∀ b, inBlock (m.reg .esp - 16) 16 b = false → mem b = m.mem b) → C mem)
    (hstack : WordsAt m.mem (m.reg .esp) (initialStack argv envp))
    (hroom : 4 * (initialStack argv envp).length + 16 ≤ 2 ^ 32)
    (hmap : Ram.Mapped mapped (m.reg .esp - 16) 20) : ∃ m₁ ret,
      run mapped fetch 8 m = .running m₁ ∧ m₁.eip = shimStartupInit ∧
        CallsStartup m₁ argv envp ret ∧ m₁.reg .esp = m.reg .esp - 16 ∧ m₁.reg .ebp = 0 ∧
        (∀ b, inBlock (m.reg .esp - 16) 16 b = false → m₁.mem b = m.mem b) ∧
        Listing fetch C ret ((startCode shimStartupInit shimPeEntryTarget).drop 8) stop := by
  have hwords := hstack
  rw [initialStack, List.cons_append, wordsAt_cons] at hwords
  have hmapped := mapped_below (n := 16) (k := 0) hmap (Nat.zero_le _)
  rw [show UInt32.ofNat 0 = 0 from rfl, UInt32.sub_zero] at hmapped
  obtain ⟨m₄, hrun, hargs, hcode⟩ :=
    start_finds_args hcode (hC _ fun _ _ => rfl) (Ram.load32_of_holds hmapped hwords.1)
  obtain ⟨l₅, h₅, l₆, h₆, l₇, h₇, l₈, h₈, hrest⟩ := hcode
  have hroom' : ((initialStack argv envp).flatMap le32Bytes).length + 16 ≤ 2 ^ 32 := by rwa [length_wordBytes]
  have hdown : ∀ k, m.reg .esp - UInt32.ofNat k - 4 = m.reg .esp - UInt32.ofNat (k + 4) := fun k => by
    rw [UInt32.ofNat_add]
    show m.reg .esp - UInt32.ofNat k - 4 = m.reg .esp - (UInt32.ofNat k + 4)
    grind
  have hesp₄ : m₄.reg .esp = m.reg .esp - UInt32.ofNat 0 := hargs.esp.trans (UInt32.sub_zero _).symm
  have hpush : ∀ {k : Nat} {m' : Machine}, m'.reg .esp = m.reg .esp - UInt32.ofNat k → k + 4 ≤ 16 →
      Ram.Mapped mapped (m'.reg .esp - 4) 4 := fun hm' hk => by
    rw [hm', hdown]
    exact mapped_below hmap hk
  have hnext : ∀ {k : Nat} {m' m'' : Machine} {v : UInt32}, m'.reg .esp = m.reg .esp - UInt32.ofNat k →
      Pushed m' m'' v → m''.reg .esp = m.reg .esp - UInt32.ofNat (k + 4) := fun hm' hp => by
    rw [hp.esp, hm', hdown]
  -- a push keeps what is outside the 16 bytes, and the code with it
  have hkeep : ∀ {k : Nat} {m' m'' : Machine} {v : UInt32}, m'.reg .esp = m.reg .esp - UInt32.ofNat k →
      k + 4 ≤ 16 → (∀ b, inBlock (m.reg .esp - 16) 16 b = false → m'.mem b = m.mem b) → Pushed m' m'' v →
        ∀ b, inBlock (m.reg .esp - 16) 16 b = false → m''.mem b = m.mem b := fun hm' hk hmem hp b hb => by
    rw [hp.others _ (by rw [hm', hdown]; exact inBlock_below (n := 16) hb (by omega) hk (by omega)),
      hmem b hb]
  have hmem₄ : ∀ b, inBlock (m.reg .esp - 16) 16 b = false → m₄.mem b = m.mem b := fun b _ => by rw [hargs.mem]
  obtain ⟨m₅, s₅, e₅, p₅⟩ := @step_push mapped fetch _ _ _ (h₅ m₄ rfl (hC _ hmem₄)) (hpush hesp₄ (by omega))
  have hesp₅ := hnext hesp₄ p₅
  have hmem₅ := hkeep hesp₄ (by omega) hmem₄ p₅
  obtain ⟨m₆, s₆, e₆, p₆⟩ := @step_push mapped fetch _ _ _ (h₆ m₅ e₅ (hC _ hmem₅)) (hpush hesp₅ (by omega))
  have hesp₆ := hnext hesp₅ p₆
  have hmem₆ := hkeep hesp₅ (by omega) hmem₅ p₆
  obtain ⟨m₇, s₇, e₇, p₇⟩ := @step_push mapped fetch _ _ _ (h₇ m₆ (by rw [e₆, e₅]) (hC _ hmem₆))
    (hpush hesp₆ (by omega))
  have hesp₇ := hnext hesp₆ p₇
  have hmem₇ := hkeep hesp₆ (by omega) hmem₆ p₇
  obtain ⟨m₈, s₈, e₈, p₈⟩ := @step_call mapped fetch _ _ _ (h₈ m₇ (by rw [e₇, e₆, e₅]) (hC _ hmem₇))
    (hpush hesp₇ (by omega))
  have hmem₈ := hkeep hesp₇ (by omega) hmem₇ p₈
  have hholds := p₈.stack _ (p₇.stack _ (p₆.stack _ (p₅.stack _ (hargs.esp ▸ hargs.mem ▸ hstack)
    (by omega)) (by rw [List.length_append, length_le32Bytes]; omega))
    (by simp only [List.length_append, length_le32Bytes]; omega))
    (by simp only [List.length_append, length_le32Bytes]; omega)
  rw [p₆.regs .eax (by decide), p₅.regs .eax (by decide), p₅.regs .ebx (by decide), hargs.eax, hargs.ebx,
    hargs.ecx] at hholds
  have hebp : m₈.reg .ebp = 0 := by
    rw [p₈.regs .ebp (by decide), p₇.regs .ebp (by decide), p₆.regs .ebp (by decide), p₅.regs .ebp (by decide),
      hargs.ebp]
  refine ⟨m₈, m₇.eip + l₈, ?_, e₈, callsStartup_of_stack (hnext hesp₇ p₈) ?_, hnext hesp₇ p₈, hebp, hmem₈, ?_⟩
  · refine (@run_add mapped _ m m₄ 4 4 hrun).trans ?_
    rw [run_succ s₅, run_succ s₆, run_succ s₇, run_succ s₈]
    rfl
  · simpa [WordsAt] using hholds
  · rw [e₇, e₆, e₅]
    exact hrest

/-- From the kernel's stack to the program's entry point, with a call of `shim_startup_init` on the way. Only
the 16 bytes below the kernel's words are stored to before the call. -/
theorem start_enters_program (hcode : Listing fetch C m.eip (startCode shimStartupInit shimPeEntryTarget) stop)
    (hC : ∀ mem, (∀ b, inBlock (m.reg .esp - 16) 16 b = false → mem b = m.mem b) → C mem)
    (hstack : WordsAt m.mem (m.reg .esp) (initialStack argv envp))
    (hroom : 4 * (initialStack argv envp).length + 16 ≤ 2 ^ 32)
    (hmap : Ram.Mapped mapped (m.reg .esp - 16) 20) (htarget : Ram.Mapped mapped shimPeEntryTarget 4) :
    ∃ m₁ ret, run mapped fetch 8 m = .running m₁ ∧ m₁.eip = shimStartupInit ∧ CallsStartup m₁ argv envp ret ∧
      (∀ b, inBlock (m.reg .esp - 16) 16 b = false → m₁.mem b = m.mem b) ∧
      ∀ m₂, Returned m₁ m₂ ret → C m₂.mem → ∃ m₃, run mapped fetch 3 m₂ = .running m₃ ∧
        EntersProgram m m₃ (m₂.mem.word shimPeEntryTarget) := by
  obtain ⟨m₁, ret, hrun, heip, hcalls, hesp, hebp, hkeep, hrest⟩ := start_calls hcode hC hstack hroom hmap
  refine ⟨m₁, ret, hrun, heip, hcalls, hkeep, fun m₂ hret hC₂ => ?_⟩
  obtain ⟨l₁, h₁, l₂, h₂, l₃, h₃, -⟩ := hrest
  obtain ⟨n₁, s₁, e₁, a₁⟩ := @step_add mapped fetch m₂ _ _ _ (h₁ m₂ hret.eip hC₂)
  obtain ⟨n₂, s₂, e₂, a₂⟩ := @step_mov mapped fetch n₁ _ _ _ _
    (h₂ n₁ (by rw [e₁, hret.eip]) (a₁.mem ▸ hC₂)) (by rw [addr_disp]; exact if_pos htarget)
  have hmem₂ : n₂.mem = m₂.mem := a₂.mem.trans a₁.mem
  have s₃ := @step_jmp mapped fetch n₂ _ _ (h₃ n₂ (by rw [e₂, e₁, hret.eip]) (hmem₂ ▸ hC₂))
  refine ⟨_, by rw [run_succ s₁, run_succ s₂, run_succ s₃]; rfl, ?_, ?_, ?_⟩
  · rw [goto_eip, a₂.reg, a₁.mem]
  · rw [goto_reg, goto_reg, a₂.regs .esp (by decide), a₁.reg, hret.esp, hesp]
    grind
  · rw [goto_reg, goto_reg, a₂.regs .ebp (by decide), a₁.regs .ebp (by decide), hret.ebp, hebp]

end

end Winlift

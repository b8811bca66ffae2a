import Winlift.FormatSpec

/-!
# The printf grammar

A format is a list of pieces: characters, and conversions `%[flags and width][l…]c`. The scanner skips
the `l`s first and flags and width after them, the other way round. That makes no difference to a
conversion that has only one of the two (`puts_piece`); one that has both is left at its first `l`, and
its argument is not taken (`vformat_follows_iff`).
-/

namespace Winlift
open CSem

inductive Piece where
  | literal (c : UInt8) (hc : c ≠ 0 ∧ c ≠ '%'.toUInt8)
  | conv (flags : List UInt8) (longs : Nat) (k : Conv) (hflags : ∀ b ∈ flags, isFlag b = true)

namespace Piece

/-- The piece in the format. -/
def format : Piece → List UInt8
  | literal c _ => [c]
  | conv flags longs k _ =>
    '%'.toUInt8 :: (flags ++ (List.replicate longs 'l'.toUInt8 ++ [k.label]))

def args : Piece → Nat
  | literal .. => 0
  | conv _ _ k _ => k.args

/-- What the piece is to put out, when `arg` arguments have been taken. -/
def text (va : VaList) (arg : Nat) : Piece → List UInt8
  | literal c _ => [c]
  | conv _ _ k _ => k.text va.str (va.slot arg)

/-- The piece does not have both flags or width and `l`s. -/
def Plain : Piece → Prop
  | literal .. => True
  | conv flags longs _ _ => flags = [] ∨ longs = 0

theorem no_nul (x : Piece) : 0 ∉ x.format := by
  cases x with
  | literal c hc => simpa [format] using hc.1.symm
  | conv flags longs k hflags =>
    have hlabel : (0 : UInt8) ≠ k.label := by cases k <;> decide
    have hflag : (0 : UInt8) ∉ flags := fun h => absurd (hflags 0 h) (by decide)
    have hl : (0 : UInt8) ∉ List.replicate longs 'l'.toUInt8 := fun h =>
      absurd (List.eq_of_mem_replicate h) (by decide)
    simp only [format, List.mem_cons, List.mem_append, List.not_mem_nil, or_false, not_or]
    exact ⟨by decide, hflag, hl, hlabel⟩

end Piece

def formatOf (ps : List Piece) : CStr where
  bytes := ps.flatMap Piece.format
  no_nul h := by
    obtain ⟨x, -, hx⟩ := List.mem_flatMap.mp h
    exact x.no_nul hx

def argsOf (ps : List Piece) : Nat := (ps.map Piece.args).sum

/-- The literals and the arguments, in order, each conversion with the argument that is its turn. -/
def textOf (va : VaList) : Nat → List Piece → List UInt8
  | _, [] => []
  | arg, x :: ps => x.text va arg ++ textOf va (arg + x.args) ps

theorem formatOf_append (ps qs : List Piece) :
    (formatOf (ps ++ qs)).bytes = (formatOf ps).bytes ++ (formatOf qs).bytes :=
  List.flatMap_append

theorem textOf_append (va : VaList) (arg : Nat) (ps qs : List Piece) :
    textOf va arg (ps ++ qs) = textOf va arg ps ++ textOf va (arg + argsOf ps) qs := by
  induction ps generalizing arg with
  | nil => rfl
  | cons x ps ih =>
    rw [List.cons_append, textOf, textOf, ih, List.append_assoc, Nat.add_assoc]
    rfl

/-! ### A pass over a piece -/

section
variable {fmt : CStr} {va : VaList} {pre post ls fs : List UInt8} {arg : Nat}

theorem isLong_of_isFlag {b : UInt8} (h : isFlag b = true) : isLong b = false := by
  by_contra hne
  rw [Bool.not_eq_false, isLong, decide_eq_true_eq] at hne
  rw [hne] at h
  exact absurd h (by decide)

theorem label_plain (k : Conv) : isLong k.label = false ∧ isFlag k.label = false := by
  cases k <;> decide

/-- How far the scanner skips, if flags are not mistaken for the character they are in front of. -/
theorem scan_modifiers {c : UInt8} (hs : fmt.bytes = pre ++ ('%'.toUInt8 :: (ls ++ (fs ++ (c :: post)))))
    (hls : ∀ b ∈ ls, isLong b = true) (hfs : ∀ b ∈ fs, isFlag b = true) (hflag : isFlag c = false)
    (hlong : fs = [] → isLong c = false) :
    (fmt.scan isLong (pre.length + 1) : Res Empty Nat) = .ok (pre.length + 1 + ls.length) ∧
      (fmt.scan isFlag (pre.length + 1 + ls.length) : Res Empty Nat) =
        .ok (pre.length + 1 + ls.length + fs.length) ∧
      (fmt.read (pre.length + 1 + ls.length + fs.length) : Res Empty UInt8) = .ok c := by
  have hs₁ : fmt.bytes = (pre ++ ['%'.toUInt8]) ++ (ls ++ (fs ++ (c :: post))) := by simp [hs]
  have hs₂ : fmt.bytes = ((pre ++ ['%'.toUInt8]) ++ ls) ++ (fs ++ (c :: post)) := by simp [hs]
  have hs₃ : fmt.bytes = (((pre ++ ['%'.toUInt8]) ++ ls) ++ fs) ++ (c :: post) := by simp [hs]
  have hnext : ∀ b ∈ (fs ++ (c :: post)).head?, isLong b = false := by
    cases fs with
    | nil => simpa using hlong rfl
    | cons b fs => simpa using isLong_of_isFlag (hfs b List.mem_cons_self)
  have hlongs := CStr.scan_append (ε := Empty) (by decide) hs₁ hls hnext
  have hflags := CStr.scan_append (ε := Empty) (by decide) hs₂ hfs (by simpa using hflag)
  have hread := CStr.read_append (ε := Empty) hs₃
  simp only [List.length_append, List.length_singleton] at hlongs hflags hread
  exact ⟨hlongs, hflags, hread⟩

/-- A conversion the way the scanner expects it. -/
theorem puts_scanned {k : Conv} (hls : ∀ b ∈ ls, isLong b = true) (hfs : ∀ b ∈ fs, isFlag b = true)
    (hs : fmt.bytes = pre ++ ('%'.toUInt8 :: (ls ++ (fs ++ (k.label :: post))))) :
    Puts fmt va pre.length arg (k.text va.str (va.slot arg)) (pre.length + 1 + ls.length + fs.length + 1)
      (arg + k.args) := by
  obtain ⟨hlongs, hflags, hread⟩ := scan_modifiers hs hls hfs (label_plain k).2 fun _ => (label_plain k).1
  exact puts_conv (CStr.read_append hs) hlongs hflags hread

/-- The first `l` behind flags is taken for the conversion. -/
theorem puts_flags_long (hfs : ∀ b ∈ fs, isFlag b = true) (hne : fs ≠ [])
    (hs : fmt.bytes = pre ++ ('%'.toUInt8 :: (fs ++ ('l'.toUInt8 :: post)))) :
    Puts fmt va pre.length arg ['%'.toUInt8, 'l'.toUInt8] (pre.length + 1 + fs.length + 1) arg := by
  obtain ⟨hlongs, hflags, hread⟩ := @scan_modifiers fmt pre post [] fs _ hs (by simp) hfs
    (show isFlag 'l'.toUInt8 = false by decide) fun h => absurd h hne
  exact puts_other (CStr.read_append hs) hlongs hflags hread (by decide) (by decide)

theorem puts_piece {x : Piece} (hx : x.Plain) (hs : fmt.bytes = pre ++ (x.format ++ post)) :
    Puts fmt va pre.length arg (x.text va arg) (pre.length + x.format.length) (arg + x.args) := by
  cases x with
  | literal c hc =>
    exact puts_literal (CStr.read_append hs) hc.1 hc.2
  | conv flags longs k hflags =>
    have hls : ∀ b ∈ List.replicate longs 'l'.toUInt8, isLong b = true :=
      List.forall_mem_replicate.mpr (.inr rfl)
    rcases hx with rfl | rfl
    · have hend : pre.length + (Piece.conv [] longs k hflags).format.length =
          pre.length + 1 + (List.replicate longs 'l'.toUInt8).length + ([] : List UInt8).length + 1 := by
        simp only [Piece.format, List.length_cons, List.length_append, List.length_nil]
        omega
      have hs' : fmt.bytes = pre ++ ('%'.toUInt8 ::
          (List.replicate longs 'l'.toUInt8 ++ ([] ++ (k.label :: post)))) := by
        simp [hs, Piece.format]
      rw [hend]
      exact puts_scanned hls hflags hs'
    · have hend : pre.length + (Piece.conv flags 0 k hflags).format.length =
          pre.length + 1 + ([] : List UInt8).length + flags.length + 1 := by
        simp only [Piece.format, List.replicate_zero, List.length_cons, List.length_append, List.length_nil]
        omega
      have hs' : fmt.bytes = pre ++ ('%'.toUInt8 :: ([] ++ (flags ++ (k.label :: post)))) := by
        simp [hs, Piece.format]
      rw [hend]
      exact puts_scanned (by simp) hflags hs'

end

/-! ### A run over the pieces -/

section
variable {fmt : CStr} {va : VaList} {p p' arg arg' : Nat} {bytes out : List UInt8}

/-- The state of the unbounded formatter. -/
abbrev Collected := FormatState (List UInt8)

theorem Puts.collect (h : Puts fmt va p arg bytes p' arg') : vformatStep collect fmt va ⟨p, arg, out⟩ =
    .ok (.more (⟨p', arg', out ++ bytes⟩ : Collected)) := by
  rw [h, foldlM_collect, Res.ok_bind]

/-- Every pass moves on, and only adds to the output. -/
theorem collect_more {s s' : Collected} (h : vformatStep collect fmt va s = .ok (.more s')) :
    s.p < s'.p ∧ s.out <+: s'.out := by
  obtain ⟨p, arg, out⟩ := s
  rcases Nat.lt_trichotomy p fmt.bytes.length with hlt | rfl | hgt
  · obtain ⟨bytes, p', arg', hpp, -, hputs⟩ := exists_puts va hlt arg
    cases hputs.collect.symm.trans h
    exact ⟨hpp, List.prefix_append _ _⟩
  · cases (vformatStep_end collect out).symm.trans h
  · rw [vformatStep, CStr.read, if_neg (by simpa using hgt)] at h
    cases h

theorem collect_passes {n : Nat} {s s' : Collected} (h : Passes (vformatStep collect fmt va) n s s') :
    s.p + n ≤ s'.p ∧ s.out <+: s'.out := by
  induction h with
  | zero => exact ⟨Nat.le_refl _, List.prefix_refl _⟩
  | snoc _ hmore ih =>
    obtain ⟨hlt, hout⟩ := collect_more hmore
    exact ⟨by omega, ih.2.trans hout⟩

/-- A run is in at most one state at each position. -/
theorem collect_unique {m n : Nat} {s t u : Collected} (ht : Passes (vformatStep collect fmt va) m s t)
    (hu : Passes (vformatStep collect fmt va) n s u) (hp : t.p = u.p) : t = u := by
  rcases ht.total hu with ⟨k, hk⟩ | ⟨k, hk⟩
  · have hle := (collect_passes hk).1
    obtain rfl : k = 0 := by omega
    cases hk
    rfl
  · have hle := (collect_passes hk).1
    obtain rfl : k = 0 := by omega
    cases hk
    rfl

variable (va) in
/-- The state in which the pieces `ps` are done. -/
def doneWith (ps : List Piece) : Collected := ⟨(formatOf ps).bytes.length, argsOf ps, textOf va 0 ps⟩

theorem doneWith_snoc (ps : List Piece) (x : Piece) : doneWith va (ps ++ [x]) =
    ⟨(formatOf ps).bytes.length + x.format.length, argsOf ps + x.args,
      textOf va 0 ps ++ x.text va (argsOf ps)⟩ := by
  simp [doneWith, formatOf, argsOf, textOf_append, textOf]

theorem passes_plain {ps : List Piece} {post : List UInt8} (hplain : ∀ x ∈ ps, x.Plain)
    (hs : fmt.bytes = (formatOf ps).bytes ++ post) :
    ∃ n, Passes (vformatStep collect fmt va) n ⟨0, 0, []⟩ (doneWith va ps) := by
  induction ps using List.reverseRecOn generalizing post with
  | nil => exact ⟨0, .zero _⟩
  | append_singleton ps x ih =>
    rw [List.forall_mem_append, List.forall_mem_singleton] at hplain
    have hs' : fmt.bytes = (formatOf ps).bytes ++ (x.format ++ post) := by
      simp [hs, formatOf]
    obtain ⟨n, hn⟩ := ih hplain.1 hs'
    exact ⟨n + 1, hn.snoc (by rw [doneWith_snoc]; exact (puts_piece hplain.2 hs').collect)⟩

theorem passes_literals {pre ls post : List UInt8} (hls : ∀ c ∈ ls, c ≠ 0 ∧ c ≠ '%'.toUInt8)
    (hs : fmt.bytes = pre ++ (ls ++ post)) (hp : pre.length = p) : ∃ n out',
      Passes (vformatStep collect fmt va) n ⟨p, arg, out⟩ (⟨p + ls.length, arg, out'⟩ : Collected) := by
  induction ls generalizing p pre out with
  | nil => exact ⟨0, out, .zero _⟩
  | cons c ls ih =>
    rw [List.forall_mem_cons] at hls
    have hread : (fmt.read p : Res Empty UInt8) = .ok c := hp ▸ CStr.read_append hs
    have hstep : vformatStep collect fmt va ⟨p, arg, out⟩ = .ok (.more ⟨p + 1, arg, out ++ [c]⟩) :=
      (puts_literal hread hls.1.1 hls.1.2).collect
    have hs' : fmt.bytes = (pre ++ [c]) ++ (ls ++ post) := by simp [hs]
    obtain ⟨n, out', hn⟩ : ∃ n out', Passes (vformatStep collect fmt va) n ⟨p + 1, arg, out ++ [c]⟩
        (⟨p + 1 + ls.length, arg, out'⟩ : Collected) :=
      ih hls.2 hs' (by rw [List.length_append, hp]; rfl)
    have hend : p + (c :: ls).length = p + 1 + ls.length := by
      rw [List.length_cons]
      omega
    rw [hend]
    exact ⟨n + 1, out', hn.cons hstep⟩

section
variable (va) {ps : List Piece} {flags post : List UInt8} {k : Conv} {hflags : ∀ b ∈ flags, isFlag b = true}
  {m : Nat} (hplain : ∀ y ∈ ps, y.Plain) (hne : flags ≠ [])
  (hs : fmt.bytes = (formatOf ps).bytes ++ ((Piece.conv flags (m + 1) k hflags).format ++ post))
include hplain hne hs

/-- The first `l` behind flags ends a conversion that takes no argument. -/
theorem passes_flags_long : ∃ n, Passes (vformatStep collect fmt va) n ⟨0, 0, []⟩
    ⟨(formatOf ps).bytes.length + 1 + flags.length + 1, argsOf ps,
      textOf va 0 ps ++ ['%'.toUInt8, 'l'.toUInt8]⟩ := by
  obtain ⟨n, hn⟩ : ∃ n, Passes (vformatStep collect fmt va) n ⟨0, 0, []⟩ (doneWith va ps) :=
    passes_plain hplain hs
  have hs' : fmt.bytes = (formatOf ps).bytes ++ ('%'.toUInt8 :: (flags ++ ('l'.toUInt8 ::
      (List.replicate m 'l'.toUInt8 ++ (k.label :: post))))) := by
    simp [hs, Piece.format, List.replicate_succ]
  exact ⟨n + 1, hn.snoc (puts_flags_long hflags hne hs').collect⟩

/-- The rest of the conversion is put out as it stands. -/
theorem passes_behind_long (hk : k ≠ .percent) : ∃ n out',
    Passes (vformatStep collect fmt va) n ⟨0, 0, []⟩ (⟨(formatOf ps).bytes.length +
      (Piece.conv flags (m + 1) k hflags).format.length, argsOf ps, out'⟩ : Collected) := by
  obtain ⟨n, hn⟩ := passes_flags_long va hplain hne hs
  have hlabel : k.label ≠ 0 ∧ k.label ≠ '%'.toUInt8 := by
    cases k <;> first | exact absurd rfl hk | decide
  have hls : ∀ c ∈ List.replicate m 'l'.toUInt8 ++ [k.label], c ≠ 0 ∧ c ≠ '%'.toUInt8 := by
    rw [List.forall_mem_append, List.forall_mem_singleton]
    exact ⟨List.forall_mem_replicate.mpr (.inr (by decide)), hlabel⟩
  have hs' : fmt.bytes = ((formatOf ps).bytes ++ ('%'.toUInt8 :: (flags ++ ['l'.toUInt8]))) ++
      ((List.replicate m 'l'.toUInt8 ++ [k.label]) ++ post) := by
    simp [hs, Piece.format, List.replicate_succ]
  have hp : ((formatOf ps).bytes ++ ('%'.toUInt8 :: (flags ++ ['l'.toUInt8]))).length =
      (formatOf ps).bytes.length + 1 + flags.length + 1 := by
    simp only [List.length_append, List.length_cons, List.length_nil]
    omega
  obtain ⟨j, out', hj⟩ : ∃ j out', Passes (vformatStep collect fmt va) j
      ⟨(formatOf ps).bytes.length + 1 + flags.length + 1, argsOf ps,
        textOf va 0 ps ++ ['%'.toUInt8, 'l'.toUInt8]⟩ (⟨_, argsOf ps, out'⟩ : Collected) :=
    passes_literals hls hs' hp
  have hend : (formatOf ps).bytes.length + 1 + flags.length + 1 +
      (List.replicate m 'l'.toUInt8 ++ [k.label]).length =
        (formatOf ps).bytes.length + (Piece.conv flags (m + 1) k hflags).format.length := by
    simp only [Piece.format, List.length_cons, List.length_append, List.length_replicate,
      List.length_nil]
    omega
  rw [hend] at hj
  exact ⟨n + j, out', hn.append hj⟩

end

/-- A conversion with both kinds of modifiers is not done: its argument is not taken, or it puts out
more than it should. -/
theorem not_done_of_not_plain {ps : List Piece} {x : Piece} {post : List UInt8} {n : Nat}
    (hplain : ∀ y ∈ ps, y.Plain) (hx : ¬ x.Plain)
    (hs : fmt.bytes = (formatOf ps).bytes ++ (x.format ++ post)) :
    ¬ Passes (vformatStep collect fmt va) n ⟨0, 0, []⟩ (doneWith va (ps ++ [x])) := by
  intro hdone
  cases x with
  | literal c hc => exact hx trivial
  | conv flags longs k hflags =>
    obtain ⟨hne, hlongs⟩ := not_or.mp hx
    obtain ⟨m, rfl⟩ := Nat.exists_eq_succ_of_ne_zero hlongs
    rw [doneWith_snoc] at hdone
    rcases eq_or_ne k .percent with hk | hk
    · -- `%l` is longer than `%`
      subst hk
      obtain ⟨j, hbad⟩ := passes_flags_long va hplain hne hs
      rcases hbad.total hdone with ⟨i, hi⟩ | ⟨i, hi⟩
      · have hout := (collect_passes hi).2.length_le
        simp only [Piece.text, Conv.text, List.length_append, List.length_cons, List.length_nil] at hout
        omega
      · have hpos := (collect_passes hi).1
        simp only [Piece.format, List.length_cons, List.length_append, List.length_replicate,
          List.length_nil] at hpos
        omega
    · obtain ⟨j, out', hbad⟩ := passes_behind_long va hplain hne hs hk
      have hargs := congrArg FormatState.arg (collect_unique hbad hdone rfl)
      have hone : k.args = 1 := by
        cases k <;> first | exact absurd rfl hk | rfl
      dsimp only [Piece.args] at hargs
      omega

/-- The rendering of a format of plain pieces. -/
theorem rendering_plain {ps : List Piece} (hplain : ∀ x ∈ ps, x.Plain) :
    rendering (formatOf ps) va = textOf va 0 ps := by
  obtain ⟨n, hn⟩ : ∃ n, Passes (vformatStep collect (formatOf ps) va) n ⟨0, 0, []⟩ (doneWith va ps) :=
    passes_plain hplain (List.append_nil _).symm
  obtain ⟨arg, hrun⟩ := vformatLoop_eq (formatOf ps) va
  have hloop := hrun collect []
  rw [foldlM_collect, Res.ok_bind, List.nil_append] at hloop
  obtain ⟨k, t, -, hk, hdone⟩ := loop_eq_ok.mp hloop
  have hend : vformatStep collect (formatOf ps) va (doneWith va ps) = .ok (.done (doneWith va ps)) :=
    vformatStep_end collect _
  rw [hk.end_unique hdone hn hend] at hdone
  exact (congrArg FormatState.out (Step.done.inj (Res.ok.inj (hend.symm.trans hdone)))).symm

end

/-! ### The grammar -/

/-- The scanner is at the end of every piece with the right output and the right number of arguments
taken, and a buffer with room for it all gets it all. -/
structure FollowsGrammar (va : VaList) (ps : List Piece) : Prop where
  pieces : ∀ qs rs, ps = qs ++ rs →
    ∃ n, Passes (vformatStep collect (formatOf ps) va) n ⟨0, 0, []⟩ (doneWith va qs)
  buffer : ∀ (bufcap : UInt32) (buf : Buffer), buf.size = bufcap.toNat →
    (textOf va 0 ps).length < bufcap.toNat →
      ∃ ret buf', shimVformat bufcap (formatOf ps) va buf = .ok (ret, buf') ∧
        buf'.Has 0 (textOf va 0 ps ++ [0])

theorem FollowsGrammar.of_plain {va : VaList} {ps : List Piece} (hplain : ∀ x ∈ ps, x.Plain) :
    FollowsGrammar va ps where
  pieces qs rs h := by
    subst h
    exact passes_plain (fun x hx => hplain x (List.mem_append_left _ hx)) (formatOf_append qs rs)
  buffer bufcap buf hsize hroom := by
    obtain ⟨buf', hret, hhas⟩ := shimVformat_spec (formatOf ps) va hsize
    rw [rendering_plain hplain] at hret hhas
    have hcap := bufcap.toNat_lt
    refine ⟨_, buf', hret, ?_⟩
    have hkept := hhas (by omega) (UInt32.lt_iff_toNat_lt.mpr (Nat.zero_lt_of_lt hroom))
    rwa [List.take_of_length_le (by omega)] at hkept

instance decidablePlain : ∀ x : Piece, Decidable x.Plain
  | .literal .. => inferInstanceAs (Decidable True)
  | .conv .. => inferInstanceAs (Decidable (_ ∨ _))

/-- The formatter follows the grammar iff no conversion has both flags or width and `l`s. -/
theorem vformat_follows_iff (va : VaList) (ps : List Piece) :
    FollowsGrammar va ps ↔ ∀ x ∈ ps, x.Plain := by
  refine ⟨fun h => ?_, .of_plain⟩
  by_contra hnot
  obtain ⟨x, hx⟩ : ∃ x, ps.find? (fun x => ¬ x.Plain) = some x := by
    rw [← Option.isSome_iff_exists, List.find?_isSome]
    simpa using hnot
  obtain ⟨hbad, qs, rs, hps, hqs⟩ := List.find?_eq_some_iff_append.mp hx
  have hplain : ∀ y ∈ qs, y.Plain := fun y hy => by simpa using hqs y hy
  have hs : (formatOf ps).bytes = (formatOf qs).bytes ++ (x.format ++ (formatOf rs).bytes) := by
    simp [hps, formatOf]
  obtain ⟨n, hn⟩ := h.pieces (qs ++ [x]) rs (by simp [hps])
  exact not_done_of_not_plain hplain (by simpa using hbad) hs hn

def sevens : VaList := ⟨fun _ => 7, fun _ => ⟨[], by decide⟩⟩

/-- `%5ld`. -/
def widthLong : List Piece :=
  [.conv ['5'.toUInt8] 1 .d (List.forall_mem_singleton.mpr (by decide))]

/-- It puts out `%ld`, and not `7`. -/
theorem vformat_flags_long : ¬ ∀ va ps, FollowsGrammar va ps := by
  intro h
  obtain ⟨ret, buf', hret, hhas⟩ := (h sevens widthLong).buffer 16 ⟨16, fun _ => 0⟩ rfl (by decide)
  have hrun : ((shimVformat 16 (formatOf widthLong) sevens ⟨16, fun _ => 0⟩).okAnd fun r =>
    r.2.byte 0 = '%'.toUInt8) = true := by decide
  obtain ⟨r, hr, hbyte⟩ := Res.okAnd_iff.mp hrun
  cases hret.symm.trans hr
  have hseven : buf'.byte 0 = '7'.toUInt8 := hhas 0 (by decide)
  have hpercent : buf'.byte 0 = '%'.toUInt8 := of_decide_eq_true hbyte
  exact absurd (hseven.symm.trans hpercent) (by decide)

end Winlift

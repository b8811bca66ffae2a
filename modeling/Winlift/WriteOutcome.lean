import Winlift.WriterSpec

/-!
# What success of the writer means

Every outcome of the writes is covered here, not just the one in which they all succeed. The calls of
`fwrite` are those of `elfWrites`, and `elf_write` fails with the first that comes short. `fclose` is
where a write that was only buffered fails, and its result is dropped: `elfWrite_reports_iff` says when
a run that returns true has written the file nevertheless.
-/

namespace Winlift
open CSem

variable {β : Type} {io : Stdio} {mem : Mem β} {segs : List (ElfSegment β)} {spec : ElfImageSpec β}
  {cur : UInt32} {out : OutStream}

/-! ### A complete file -/

/-- The segments' bytes from position `c` on, those of each behind the zeros that lead to its offset.
An offset has 32 bits, the position may have more. -/
def SegmentsAt (mem : Mem β) : Nat → List (ElfSegment β) → List UInt8 → Prop
  | _, [], bytes => bytes = []
  | c, s :: rest, bytes =>
    if s.filesz = 0 then SegmentsAt mem c rest bytes
    else ∃ n p tail, n < 2 ^ 32 ∧ (c + n) % 2 ^ 32 = s.fileOffset.toNat ∧ s.data = some p ∧
      bytes = List.replicate n 0 ++ (p.bytes mem s.filesz.toNat ++ tail) ∧
      SegmentsAt mem (c + n + s.filesz.toNat) rest tail

/-- The headers, the padding and the bytes of every segment. -/
def Complete (mem : Mem β) (spec : ElfImageSpec β) (file : List UInt8) : Prop :=
  ∃ tail, file = (elfEhdr spec.entry spec.segments.length).bytes ++
      ((spec.segments.flatMap fun s => s.phdr.bytes) ++ tail) ∧
    SegmentsAt mem (52 + 32 * spec.segments.length) spec.segments tail

theorem segmentsAt_writes {c : Nat} (hcur : cur.toNat = c % 2 ^ 32) (h : InOrder cur segs) :
    SegmentsAt mem c segs (segmentWrites mem cur segs).flatten := by
  induction segs generalizing cur c with
  | nil => rfl
  | cons s rest ih =>
    rw [InOrder] at h
    rw [SegmentsAt, segmentWrites]
    by_cases hsize : s.filesz = 0
    · rw [if_pos hsize] at h ⊢
      rw [if_pos hsize]
      exact ih hcur h
    · rw [if_neg hsize] at h ⊢
      rw [if_neg hsize]
      obtain ⟨hover, hdata, h⟩ := h
      obtain ⟨p, hp⟩ := Option.ne_none_iff_exists'.mp hdata
      have hoff := s.fileOffset.toNat_lt
      have hle : cur.toNat ≤ s.fileOffset.toNat := Nat.not_lt.mp hover
      have hpad : (s.fileOffset - cur).toNat = s.fileOffset.toNat - cur.toNat := toNat_sub_of_le hle
      refine ⟨(s.fileOffset - cur).toNat, p, _, UInt32.toNat_lt _, by omega, hp, ?_, ih ?_ h⟩
      · rw [List.flatten_append, flatten_zeroPages, List.flatten_cons, hp]
        rfl
      · rw [UInt32.toNat_add]
        omega

theorem Accepted.complete (h : Accepted spec) : Complete mem spec (elfWrites mem spec).flatten := by
  refine ⟨_, flatten_elfWrites, segmentsAt_writes ?_ h.inOrder⟩
  have hmax : elfMaxSegments = 64 := rfl
  have hcount := h.count
  rw [phdrsEnd_toNat hcount]
  omega

/-! ### Outcomes -/

theorem fwriteAll_cases (io : Stdio) (ws : List (List UInt8)) (out : OutStream) :
    (∃ out', fwriteAll io ws out = .ok out') ∨ ∃ e, fwriteAll io ws out = .err e := by
  by_cases h : io.Takes out.calls ws
  · exact .inl ⟨_, fwriteAll_of_takes h⟩
  · exact .inr ⟨_, fwriteAll_of_not h⟩

theorem fwrite_cases (io : Stdio) (data : List UInt8) (out : OutStream) :
    (∃ out', fwrite io out data = .ok out') ∨ ∃ e, fwrite io out data = .err e := by
  rw [fwrite_eq_fwriteAll]
  exact fwriteAll_cases ..

theorem exists_err_bind {α : Type} {r : Res String OutStream} {f : OutStream → Res String α}
    (hr : (∃ out, r = .ok out) ∨ ∃ e, r = .err e) (hf : ∀ out, ∃ e, f out = .err e) :
    ∃ e, r >>= f = .err e := by
  rcases hr with ⟨out, rfl⟩ | ⟨e, rfl⟩
  · exact hf out
  · exact ⟨e, rfl⟩

theorem writeSegments_of_not_inOrder (hread : ∀ s ∈ segs, s.Readable mem) (h : ¬ InOrder cur segs) :
    ∃ e, writeSegments io mem segs cur out = .err e := by
  induction segs generalizing cur out with
  | nil => exact absurd trivial h
  | cons s rest ih =>
    rw [List.forall_mem_cons] at hread
    rw [InOrder] at h
    rw [writeSegments]
    by_cases hsize : s.filesz = 0
    · rw [if_pos hsize] at h ⊢
      exact ih hread.2 h
    · rw [if_neg hsize] at h ⊢
      by_cases hover : s.fileOffset < cur
      · exact ⟨_, by rw [Res.rejectIf_of _ hover, Res.err_bind]⟩
      rw [Res.rejectIf_of_not _ hover, Res.ok_bind]
      show ∃ e, writePad io _ (s.fileOffset - cur) out >>= _ = .err e
      rw [writePad_eq_fwriteAll (Nat.le_refl _)]
      refine exists_err_bind (fwriteAll_cases ..) fun out => ?_
      cases hp : s.data with
      | none => exact ⟨_, rfl⟩
      | some p =>
        simp only [if_pos (hread.1 p hp hsize)]
        have hrest : ¬ InOrder (s.fileOffset + s.filesz) rest := fun hrest =>
          h ⟨hover, by rw [hp]; exact Option.some_ne_none p, hrest⟩
        exact exists_err_bind (fwrite_cases ..) fun out => ih hread.2 hrest

theorem elfWrite_of_not_accepted (hread : ∀ s ∈ spec.segments, s.Readable mem)
    (h : ¬ (Accepted spec ∧ io.fopen = true)) : ∃ e, (elfWrite io mem spec).result = .err e := by
  simp only [elfWrite]
  split_ifs with hcount hhdrs hopen
  · exact ⟨_, rfl⟩
  · exact ⟨_, rfl⟩
  · exact ⟨_, rfl⟩
  · have horder : ¬ InOrder (phdrsEnd spec.segments.length) spec.segments := fun horder =>
      h ⟨⟨fun hc => hcount (.inl hc), Nat.not_lt.mp fun hc => hcount (.inr hc),
        fun s hs hsize hlt => hhdrs ⟨s, hs, hsize, hlt⟩, horder⟩, Bool.not_eq_false _ ▸ hopen⟩
    refine exists_err_bind (fwrite_cases ..) fun out => ?_
    rw [writePhdrs_eq_fwriteAll]
    refine exists_err_bind (fwriteAll_cases ..) fun out => ?_
    obtain ⟨e, he⟩ : ∃ e, writeSegments io mem spec.segments _ out = .err e :=
      writeSegments_of_not_inOrder hread horder
    exact ⟨e, by rw [he, Res.err_bind]⟩

/-- The writer returns false with a message, or true with the file complete and the stream closed
without error. -/
def Reported (io : Stdio) (mem : Mem β) (spec : ElfImageSpec β) : Prop :=
  (∃ e, (elfWrite io mem spec).result = .err e) ∨
    ∃ file, (elfWrite io mem spec).result = .ok file ∧ Complete mem spec file ∧ io.fclose = true

/-- So it is unless everything succeeds but the close. -/
theorem elfWrite_reports_iff (io : Stdio) (hread : ∀ s ∈ spec.segments, s.Readable mem) :
    Reported io mem spec ↔ io.fclose = true ∨ io.fopen = false ∨ ¬ Accepted spec ∨
      ¬ io.Takes 0 (elfWrites mem spec) := by
  by_cases hok : Accepted spec ∧ io.fopen = true
  · obtain ⟨hacc, hopen⟩ := hok
    rw [Reported, elfWrite_of_accepted hread hacc hopen]
    by_cases htakes : io.Takes 0 (elfWrites mem spec)
    · rw [bytes_of_takes htakes]
      simp [hacc, hopen, htakes, hacc.complete]
    · rw [bytes_of_not htakes]
      simp [htakes]
  · have herr := elfWrite_of_not_accepted hread hok
    refine iff_of_true (.inl herr) (.inr ?_)
    rcases not_and_or.mp hok with h | h
    · exact .inr (.inl h)
    · exact .inl (Bool.not_eq_true _ ▸ h)

/-- The third program header comes short. -/
theorem elfWrite_reports_shortPhdr :
    Reported ⟨true, fun k n => if k = 3 then n - 1 else n, false⟩ twoBlocks twoBlocksSpec := by
  refine (elfWrite_reports_iff _ fun s hs => (twoBlocks_wellPlaced.data s hs).readable).mpr ?_
  refine .inr (.inr (.inr fun htakes => ?_))
  exact absurd (htakes 3 _ rfl) (by decide)

/-- All writes are taken by the buffer, and the disk is full when it is flushed. -/
theorem elfWrite_hides_close : ¬ Reported ⟨true, fun _ n => n, false⟩ twoBlocks twoBlocksSpec := by
  rintro (⟨e, he⟩ | ⟨file, -, -, hclose⟩)
  · rw [elfWrite_eq ⟨rfl, fun _ n => Nat.le_refl n⟩ twoBlocks_wellPlaced] at he
    cases he
  · cases hclose

end Winlift

import Winlift.FileLayout
import Winlift.WriterSpec
import Winlift.Main

/-!
# A rejected file leaves no output

`elf_write` opens, and so truncates, its output before it looks at the segments one by one. On the specs
of the pipeline that look never fails: a laid out segment starts at or after the writer's cursor, or at
offset 0, where the check before `fopen` has rejected it (`writeSegments_err`). What is left to go
wrong with the file open is a short write.
-/

namespace Winlift
open CSem

def ShortWrite (io : Stdio) (e : String) : Prop :=
  e = "short write to output file" ∧ ¬ io.WritesOk

section writer
variable {io : Stdio} {e : String}

theorem fwriteAll_err {ws : List (List UInt8)} {out : OutStream} (h : fwriteAll io ws out = .err e) :
    ShortWrite io e := by
  by_cases htakes : io.Takes out.calls ws
  · rw [fwriteAll_of_takes htakes] at h
    cases h
  · rw [fwriteAll_of_not htakes] at h
    cases h
    exact ⟨rfl, fun hio => htakes (hio.takes _ _)⟩

theorem fwrite_err {out : OutStream} {data : List UInt8} (h : fwrite io out data = .err e) :
    ShortWrite io e := by
  rw [fwrite_eq_fwriteAll] at h
  exact fwriteAll_err h

theorem writePhdrs_err {β : Type} {segs : List (ElfSegment β)} {out : OutStream}
    (h : writePhdrs io segs out = .err e) : ShortWrite io e := by
  rw [writePhdrs_eq_fwriteAll] at h
  exact fwriteAll_err h

theorem writePad_err {pad : UInt32} {out : OutStream} (h : writePad io pad.toNat pad out = .err e) :
    ShortWrite io e := by
  rw [writePad_eq_fwriteAll (Nat.le_refl _)] at h
  exact fwriteAll_err h

/-- The writer's loop over laid out segments: the cursor never gets past the next segment, unless that
one has wrapped to offset 0. -/
theorem writeSegments_err {mem : Mem Block} {segs : List Segment} {off cur : UInt32}
    (hdrs : UInt32) {out : OutStream} (hlaid : LaidOut off segs) (hoff : 0x1000 ∣ off.toNat)
    (hcur : cur ≤ off ∨ off = 0) (hhdrs : 0 < hdrs)
    (hafter : ∀ s ∈ segs, s.filesz ≠ 0 → ¬ s.fileOffset < hdrs)
    (hdata : ∀ s ∈ segs, s.filesz ≠ 0 → s.data ≠ none)
    (h : writeSegments io mem segs cur out = .err e) : ShortWrite io e := by
  induction segs generalizing off cur out with
  | nil => cases h
  | cons s rest ih =>
    obtain ⟨rfl, hrest⟩ := hlaid
    rw [List.forall_mem_cons] at hafter hdata
    by_cases hsize : s.filesz = 0
    · -- an empty segment moves neither the cursor nor the next offset
      rw [writeSegments, if_pos hsize] at h
      have hsame : alignUp (s.fileOffset + s.filesz) pageSize = s.fileOffset := by
        apply UInt32.toNat_inj.mp
        rw [nextOff_toNat hoff, hsize, UInt32.toNat_zero,
          roundUp_of_dvd (by norm_num) (Nat.dvd_zero _), Nat.add_zero,
          Nat.mod_eq_of_lt s.fileOffset.toNat_lt]
      rw [hsame] at hrest
      exact ih hrest hoff hcur hafter.2 hdata.2 h
    · have hle : ¬ s.fileOffset < cur := by
        rcases hcur with hle | hzero
        · exact UInt32.not_lt.mpr hle
        · exact absurd (hzero ▸ hhdrs) (hafter.1 hsize)
      rw [writeSegments, if_neg hsize, Res.rejectIf_of_not _ hle, Res.ok_bind] at h
      rcases Res.bind_eq_err.mp h with h | ⟨out', -, h⟩
      · exact writePad_err h
      · cases hs : s.data with
        | none => exact absurd hs (hdata.1 hsize)
        | some p =>
          simp only [hs] at h
          split_ifs at h with hholds
          rcases Res.bind_eq_err.mp h with h | ⟨out'', -, h⟩
          · exact fwrite_err h
          · exact ih hrest (alignUp_dvd _) (le_alignUp _) hafter.2 hdata.2 h

theorem data_ne_none {blob : Buffer} {img : PeImage} {spec : Spec} {r : StubPatched}
    (hspec : LayoutOf img spec) (hr : StubPatchOf blob img spec r) :
    ∀ s ∈ r.spec.segments, s.filesz ≠ 0 → s.data ≠ none := by
  intro s hs hsize
  have hpos : 0 < s.filesz := UInt32.pos_iff_ne_zero.mpr hsize
  have hmem : unplace s ∈ imageSegments img ++ shimSegments blob :=
    unplace_all hspec hr ▸ List.mem_map_of_mem hs
  have hall : ∀ t ∈ imageSegments img ++ shimSegments blob, 0 < t.filesz → t.data ≠ none := by
    simp only [imageSegments, shimSegments, List.forall_mem_append, List.forall_mem_cons,
      List.forall_mem_map, headerSegment, sectionSegment, shimSegment]
    refine ⟨⟨fun h => ?_, fun s _ h => ?_⟩, fun ph _ h => ?_⟩ <;> rw [if_pos h] <;> simp
  exact hall (unplace s) hmem hpos

/-- With the output file open, a spec of the pipeline can only fail on a short write. -/
theorem elfWrite_err {blob : Buffer} {img : PeImage} {spec : Spec} {r : StubPatched}
    (hspec : LayoutOf img spec) (hr : StubPatchOf blob img spec r)
    (hopened : (elfWrite io r.mem r.spec).opened = true)
    (h : (elfWrite io r.mem r.spec).result = .err e) : ShortWrite io e := by
  simp only [elfWrite] at hopened h
  split_ifs at hopened h with hcount hhdrs hopen
  rcases Res.bind_eq_err.mp h with h | ⟨out, -, h⟩
  · exact fwrite_err h
  rcases Res.bind_eq_err.mp h with h | ⟨out', -, h⟩
  · exact writePhdrs_err h
  rcases Res.bind_eq_err.mp h with h | ⟨out'', -, h⟩
  · have hlen := hr.length_le hspec.length_le
    have hmax : elfMaxSegments = 64 := rfl
    have hpage : pageSize.toNat = 0x1000 := rfl
    have hend := phdrsEnd_toNat hlen
    refine writeSegments_err (phdrsEnd r.spec.segments.length) (laidOut_all hspec hr) (Nat.dvd_refl _)
      (.inl ?_) ?_ ?_ (data_ne_none hspec hr) h
    · rw [UInt32.le_iff_toNat_le]; omega
    · rw [UInt32.lt_iff_toNat_lt, UInt32.toNat_zero]; omega
    · exact fun s hs hsize hlt => hhdrs ⟨s, hs, hsize, hlt⟩
  · cases h

end writer

/-! ### The tool -/

def KeepsOutput (run : MainRun) : Prop :=
  ∀ code, run.status = .exited code → code ≠ 0 → run.opened = none

theorem KeepsOutput.of_none (status : Status) : KeepsOutput ⟨status, none⟩ := fun _ _ _ => rfl

theorem KeepsOutput.withResult {ε α : Type} {r : Res ε α} {next : α → MainRun}
    (h : ∀ a, r = .ok a → KeepsOutput (next a)) : KeepsOutput (withResult r next) := by
  cases r with
  | ok a => exact h a rfl
  | _ => exact .of_none _

theorem writeOutput_keeps {io : Stdio} (hio : io.WritesOk) {blob : Buffer} {img : PeImage}
    {spec : Spec} {r : StubPatched} (hspec : LayoutOf img spec) (hr : StubPatchOf blob img spec r)
    (output : String) : KeepsOutput (writeOutput io output r) := by
  intro code hstatus hcode
  simp only [writeOutput] at hstatus ⊢
  cases hopened : (elfWrite io r.mem r.spec).opened with
  | false => split <;> rfl
  | true =>
    split at hstatus
    · cases hstatus; exact absurd rfl hcode
    · rename_i e he
      exact absurd hio (elfWrite_err hspec hr hopened he).2
    · cases hstatus
    · cases hstatus

/-- Rejection never touches the output: when all calls to the C library succeed, a run that exits with
another status than 0 has not opened the output file; and the two internal errors that `elf_write` can
raise with the file open are unreachable on the specs of the pipeline. -/
theorem rejection_keeps_output :
    (∀ (host : Host) (fuel : Nat) (argv : List String), host.stdio.WritesOk →
      KeepsOutput (winlift host fuel argv)) ∧
    (∀ (grant : Nat → Bool) (blob : Buffer) (img : PeImage) (spec : Spec) (r : StubPatched) (io : Stdio),
      peLayoutToElfSpec img = .ok spec → stubPatchApply grant blob img spec = .ok r →
        (elfWrite io r.mem r.spec).opened = true →
          (elfWrite io r.mem r.spec).result ≠ .err "internal error: overlapping segment file ranges" ∧
          (elfWrite io r.mem r.spec).result ≠
            .err "internal error: segment has filesz but no data") := by
  constructor
  · intro host fuel argv hio
    unfold winlift
    split
    · exact .of_none _
    split
    · exact .of_none _
    refine .withResult fun img _ => ?_
    split
    · exact .of_none _
    split
    · exact .of_none _
    split
    · exact .of_none _
    refine .withResult fun r hr => ?_
    obtain ⟨spec, hspec, hr⟩ := Res.bind_eq_ok.mp hr
    exact writeOutput_keeps hio (peLayoutToElfSpec_eq_ok hspec) (stubPatchApply_eq_ok hr) _
  · intro grant blob img spec r io hspec hr hopened
    have herr : ∀ e, (elfWrite io r.mem r.spec).result = .err e → e = "short write to output file" :=
      fun e he => (elfWrite_err (peLayoutToElfSpec_eq_ok hspec) (stubPatchApply_eq_ok hr) hopened he).1
    constructor <;> intro he <;> exact absurd (herr _ he) (by decide)

def Host.working (input : Buffer) : Host := ⟨.generous, fun _ => .content input, .working, miniShim⟩

theorem rejection_keeps_output_empty :
    (winlift (.working (.ofList [])) 1 ["in.exe", "-o", "out"]).opened = none ∧
      ∃ img spec r, peLayoutToElfSpec img = .ok spec ∧
        stubPatchApply (fun _ => true) miniShim img spec = .ok r ∧
        (elfWrite .working r.mem r.spec).result ≠
          .err "internal error: overlapping segment file ranges" := by
  obtain ⟨img, spec, r, -, hspec, hr, -, -, hopened⟩ := ordinalImport_converts
  exact ⟨rejection_keeps_output.1 _ _ _ Stdio.working_ok 1 (by decide +kernel) (by decide),
    img, spec, r, hspec, hr, (rejection_keeps_output.2 _ _ _ _ _ _ hspec hr hopened).1⟩

end Winlift

import Winlift.CSem.Chunks
import Winlift.ElfWriter

/-!
# What the writer writes

The calls of `fwrite` are those of `elfWrites`, as far as the writer gets. It gets to their end unless
one comes short, the output cannot be opened or the spec is not `Accepted`, so a run that returns a file
has made all of them (`elfWrite_eq_ok`).

The writer keeps its file position in a `uint32_t`; the real one is the number of bytes written so
far. Along segments that are well placed the two agree, and the file is the header, the program headers
and the segments' data assembled as chunks (`elfWrite_eq`). Decoding it gives the spec back
(`elfWrite_encodes`).
-/

namespace Winlift
open CSem

variable {β : Type} {io : Stdio} {mem : Mem β} {segs : List (ElfSegment β)} {spec : ElfImageSpec β}
  {cur : UInt32} {out out' : OutStream} {ws : List (List UInt8)}

/-! ### Sequences of writes -/

def fwriteAll (io : Stdio) (ws : List (List UInt8)) (out : OutStream) : Res String OutStream :=
  ws.foldlM (fwrite io) out

/-- None of the writes comes short when the first is the `k`-th call. -/
def Stdio.Takes (io : Stdio) (k : Nat) (ws : List (List UInt8)) : Prop :=
  ∀ i w, ws[i]? = some w → w.length ≤ io.fwrite (k + i) w.length

theorem Stdio.WritesOk.takes (hio : io.WritesOk) (k : Nat) (ws : List (List UInt8)) : io.Takes k ws :=
  fun _ _ _ => hio.fwrite _ _

theorem takes_cons {k : Nat} {w : List UInt8} :
    io.Takes k (w :: ws) ↔ w.length ≤ io.fwrite k w.length ∧ io.Takes (k + 1) ws := by
  constructor
  · intro h
    refine ⟨h 0 w rfl, fun i w' hi => ?_⟩
    rw [Nat.add_assoc, Nat.add_comm 1]
    exact h (i + 1) w' hi
  · rintro ⟨hw, hws⟩ (_ | i) w' hi
    · cases hi
      exact hw
    · rw [Nat.add_comm i, ← Nat.add_assoc]
      exact hws i w' hi

theorem fwriteAll_of_takes (h : io.Takes out.calls ws) :
    fwriteAll io ws out = .ok ⟨out.calls + ws.length, out.bytes ++ ws.flatten⟩ := by
  induction ws generalizing out with
  | nil => simp [fwriteAll, pure]
  | cons w ws ih =>
    obtain ⟨hw, hws⟩ := takes_cons.mp h
    have hrest : fwriteAll io ws ⟨out.calls + 1, out.bytes ++ w⟩ = _ := ih hws
    rw [fwriteAll] at hrest ⊢
    rw [List.foldlM_cons, fwrite, if_pos hw, Res.ok_bind, hrest]
    simp [Nat.add_assoc, Nat.add_comm 1]

theorem fwriteAll_of_not (h : ¬ io.Takes out.calls ws) :
    fwriteAll io ws out = .err "short write to output file" := by
  induction ws generalizing out with
  | nil => exact absurd (fun i w hi => by cases hi) h
  | cons w ws ih =>
    rw [fwriteAll, List.foldlM_cons, fwrite]
    by_cases hw : w.length ≤ io.fwrite out.calls w.length
    · rw [if_pos hw, Res.ok_bind]
      exact ih fun hws => h (takes_cons.mpr ⟨hw, hws⟩)
    · rw [if_neg hw, Res.err_bind]

/-- The bytes of a new stream. -/
theorem bytes_of_takes (h : io.Takes 0 ws) :
    (fwriteAll io ws ⟨0, []⟩ >>= fun out => .ok out.bytes) = .ok ws.flatten := by
  rw [fwriteAll_of_takes h]
  rfl

theorem bytes_of_not (h : ¬ io.Takes 0 ws) :
    (fwriteAll io ws ⟨0, []⟩ >>= fun out => .ok out.bytes) = .err "short write to output file" := by
  rw [fwriteAll_of_not h]
  rfl

theorem bytes_eq_ok {file : List UInt8} :
    (fwriteAll io ws ⟨0, []⟩ >>= fun out => .ok out.bytes) = .ok file ↔ io.Takes 0 ws ∧ file = ws.flatten := by
  by_cases h : io.Takes 0 ws
  · rw [bytes_of_takes h, Res.ok.injEq, and_iff_right h, eq_comm]
  · simp [bytes_of_not h, h]

theorem fwriteAll_append (ws ws' : List (List UInt8)) :
    fwriteAll io (ws ++ ws') out = fwriteAll io ws out >>= fwriteAll io ws' := List.foldlM_append

theorem fwrite_eq_fwriteAll (data : List UInt8) : fwrite io out data = fwriteAll io [data] out :=
  (bind_pure _).symm

/-! ### The calls of `fwrite` -/

/-- Padding, in pages. -/
def zeroPages (n : Nat) : List (List UInt8) :=
  if n = 0 then [] else List.replicate (min 0x1000 n) 0 :: zeroPages (n - 0x1000)

theorem flatten_zeroPages (n : Nat) : (zeroPages n).flatten = List.replicate n 0 := by
  induction n using zeroPages.induct with
  | case1 => simp [zeroPages]
  | case2 n hn ih =>
    have hpage : min 0x1000 n + (n - 0x1000) = n := by omega
    rw [zeroPages, if_neg hn, List.flatten_cons, ih, ← List.replicate_add, hpage]

/-- The segments' writes, from the file offset `cur` on. -/
def segmentWrites (mem : Mem β) : UInt32 → List (ElfSegment β) → List (List UInt8)
  | _, [] => []
  | cur, s :: rest =>
    if s.filesz = 0 then segmentWrites mem cur rest
    else zeroPages (s.fileOffset - cur).toNat ++
      s.data.elim [] (·.bytes mem s.filesz.toNat) :: segmentWrites mem (s.fileOffset + s.filesz) rest

def elfWrites (mem : Mem β) (spec : ElfImageSpec β) : List (List UInt8) :=
  (elfEhdr spec.entry spec.segments.length).bytes :: spec.segments.map (·.phdr.bytes) ++
    segmentWrites mem (phdrsEnd spec.segments.length) spec.segments

theorem flatten_elfWrites : (elfWrites mem spec).flatten =
    (elfEhdr spec.entry spec.segments.length).bytes ++ ((spec.segments.flatMap fun s => s.phdr.bytes) ++
      (segmentWrites mem (phdrsEnd spec.segments.length) spec.segments).flatten) := by
  simp [elfWrites, List.flatMap_def]

theorem writePhdrs_eq_fwriteAll :
    writePhdrs io segs out = fwriteAll io (segs.map (·.phdr.bytes)) out := by
  induction segs generalizing out with
  | nil => rfl
  | cons s rest ih =>
    rw [writePhdrs, List.map_cons, fwriteAll, List.foldlM_cons]
    exact bind_congr fun out => ih

theorem writePad_eq_fwriteAll {n : Nat} {pad : UInt32} (hn : pad.toNat ≤ n) :
    writePad io n pad out = fwriteAll io (zeroPages pad.toNat) out := by
  induction n generalizing pad out with
  | zero =>
    have hpad : pad = 0 := UInt32.toNat_inj.mp (Nat.le_zero.mp hn)
    simp [writePad, hpad, zeroPages, fwriteAll, pure]
  | succ n ih =>
    rcases eq_or_ne pad 0 with hpad | hpad
    · simp [writePad, hpad, zeroPages, fwriteAll, pure]
    · have hne : pad.toNat ≠ 0 := fun h => hpad (UInt32.toNat_inj.mp h)
      obtain ⟨chunk, hchunk⟩ : ∃ c, c = if 0x1000 < pad then 0x1000 else pad := ⟨_, rfl⟩
      have hmin : chunk.toNat = min 0x1000 pad.toNat := by
        rw [hchunk]
        split
        · rename_i h
          exact (Nat.min_eq_left (Nat.le_of_lt h)).symm
        · rename_i h
          exact (Nat.min_eq_right (Nat.not_lt.mp h)).symm
      have hsub : (pad - chunk).toNat = pad.toNat - 0x1000 := by
        rw [toNat_sub_of_le (by omega)]
        omega
      rw [writePad, if_neg hpad, zeroPages, if_neg hne, fwriteAll, List.foldlM_cons]
      simp only [← hchunk, hmin]
      refine bind_congr fun out => ?_
      rw [ih (by omega), hsub]
      rfl

/-- What the callers promise: `data` points to `filesz` bytes. -/
def ElfSegment.Readable (mem : Mem β) (s : ElfSegment β) : Prop :=
  ∀ p, s.data = some p → s.filesz ≠ 0 → p.Holds mem s.filesz.toNat

/-- No segment that has bytes starts before `cur`, or before the end of the previous one, in the
arithmetic of `uint32_t`; and all of them have their data. -/
def InOrder : UInt32 → List (ElfSegment β) → Prop
  | _, [] => True
  | cur, s :: rest =>
    if s.filesz = 0 then InOrder cur rest
    else ¬ s.fileOffset < cur ∧ s.data ≠ none ∧ InOrder (s.fileOffset + s.filesz) rest

theorem writeSegments_of_inOrder (hread : ∀ s ∈ segs, s.Readable mem) (h : InOrder cur segs) :
    writeSegments io mem segs cur out = fwriteAll io (segmentWrites mem cur segs) out := by
  induction segs generalizing cur out with
  | nil => rfl
  | cons s rest ih =>
    rw [List.forall_mem_cons] at hread
    rw [InOrder] at h
    rw [writeSegments, segmentWrites]
    rcases eq_or_ne s.filesz 0 with hsize | hsize
    · rw [if_pos hsize] at h ⊢
      rw [if_pos hsize]
      exact ih hread.2 h
    · rw [if_neg hsize] at h ⊢
      obtain ⟨hover, hdata, h⟩ := h
      obtain ⟨p, hp⟩ := Option.ne_none_iff_exists'.mp hdata
      rw [if_neg hsize, Res.rejectIf_of_not _ hover, Res.ok_bind, fwriteAll_append,
        ← writePad_eq_fwriteAll (Nat.le_refl _)]
      refine bind_congr fun out => ?_
      simp only [hp, if_pos (hread.1 p hp hsize)]
      exact bind_congr fun out => ih hread.2 h

/-- A run gets to the end of the segments only if they are in order. -/
theorem writeSegments_eq_ok (h : writeSegments io mem segs cur out = .ok out') :
    InOrder cur segs ∧ ∀ s ∈ segs, s.Readable mem := by
  induction segs generalizing cur out with
  | nil => exact ⟨trivial, by simp⟩
  | cons s rest ih =>
    rw [InOrder, List.forall_mem_cons]
    rw [writeSegments] at h
    rcases eq_or_ne s.filesz 0 with hsize | hsize
    · rw [if_pos hsize] at h ⊢
      obtain ⟨horder, hread⟩ := ih h
      exact ⟨horder, fun p _ hne => absurd hsize hne, hread⟩
    · rw [if_neg hsize] at h ⊢
      obtain ⟨_, hover, h⟩ := Res.bind_eq_ok.mp h
      obtain ⟨out₁, -, h⟩ := Res.bind_eq_ok.mp h
      cases hp : s.data with
      | none =>
        rw [hp] at h
        cases h
      | some p =>
        simp only [hp] at h
        split_ifs at h with hholds
        obtain ⟨out₂, -, h⟩ := Res.bind_eq_ok.mp h
        obtain ⟨horder, hread⟩ := ih h
        refine ⟨⟨Res.rejectIf_eq_ok.mp hover, Option.some_ne_none p, horder⟩, ?_, hread⟩
        rintro p' hp' -
        cases hp.symm.trans hp'
        exact hholds

/-! ### Specs that are accepted -/

structure Accepted (spec : ElfImageSpec β) : Prop where
  nonempty : spec.segments.length ≠ 0
  count : spec.segments.length ≤ elfMaxSegments
  after_headers : ∀ s ∈ spec.segments, s.filesz ≠ 0 → ¬ s.fileOffset < phdrsEnd spec.segments.length
  inOrder : InOrder (phdrsEnd spec.segments.length) spec.segments

theorem phdrsEnd_toNat {n : Nat} (hn : n ≤ elfMaxSegments) : (phdrsEnd n).toNat = 52 + 32 * n := by
  have hmax : elfMaxSegments = 64 := rfl
  simp [phdrsEnd]
  omega

theorem elfWriteOpened_of_inOrder (hread : ∀ s ∈ spec.segments, s.Readable mem)
    (h : InOrder (phdrsEnd spec.segments.length) spec.segments) :
    elfWriteOpened io mem spec = fwriteAll io (elfWrites mem spec) ⟨0, []⟩ >>= fun out => .ok out.bytes := by
  rw [elfWriteOpened, elfWrites, fwriteAll_append]
  simp only [writePhdrs_eq_fwriteAll, writeSegments_of_inOrder hread h]
  rw [fwriteAll, List.foldlM_cons]
  simp only [bind_assoc]
  rfl

theorem elfWrite_of_accepted (hread : ∀ s ∈ spec.segments, s.Readable mem) (h : Accepted spec)
    (hopen : io.fopen = true) : elfWrite io mem spec =
      ⟨true, fwriteAll io (elfWrites mem spec) ⟨0, []⟩ >>= fun out => .ok out.bytes⟩ := by
  have hcount : ¬ (spec.segments.length = 0 ∨ elfMaxSegments < spec.segments.length) :=
    fun hc => hc.elim h.nonempty (Nat.not_lt.mpr h.count)
  have hhdrs : ¬ ∃ s ∈ spec.segments, s.filesz ≠ 0 ∧ s.fileOffset < phdrsEnd spec.segments.length :=
    fun ⟨s, hs, hsize, hlt⟩ => h.after_headers s hs hsize hlt
  have hopen' : ¬ io.fopen = false := by rw [hopen]; exact Bool.noConfusion
  simp only [elfWrite]
  rw [if_neg hcount, if_neg hhdrs, if_neg hopen', elfWriteOpened_of_inOrder hread h.inOrder]

/-- A run that returns a file has made every write. -/
theorem elfWrite_eq_ok {file : List UInt8} (h : (elfWrite io mem spec).result = .ok file) :
    Accepted spec ∧ (∀ s ∈ spec.segments, s.Readable mem) ∧ file = (elfWrites mem spec).flatten := by
  simp only [elfWrite] at h
  split_ifs at h with hcount hhdrs
  obtain ⟨hnonempty, hle⟩ := not_or.mp hcount
  have hwrite : elfWriteOpened io mem spec = .ok file := h
  obtain ⟨out₁, -, h⟩ := Res.bind_eq_ok.mp h
  obtain ⟨out₂, -, h⟩ := Res.bind_eq_ok.mp h
  obtain ⟨out₃, hsegs, -⟩ := Res.bind_eq_ok.mp h
  obtain ⟨horder, hread⟩ := writeSegments_eq_ok hsegs
  refine ⟨⟨hnonempty, Nat.not_lt.mp hle, fun s hs hsize hlt => hhdrs ⟨s, hs, hsize, hlt⟩, horder⟩, hread, ?_⟩
  rw [elfWriteOpened_of_inOrder hread horder] at hwrite
  exact (bytes_eq_ok.mp hwrite).2

/-- It is the run in which every call succeeds. -/
theorem elfWrite_working {file : List UInt8} (h : (elfWrite io mem spec).result = .ok file) :
    elfWrite .working mem spec = ⟨true, .ok file⟩ := by
  obtain ⟨hacc, hread, hfile⟩ := elfWrite_eq_ok h
  rw [elfWrite_of_accepted hread hacc rfl, bytes_of_takes (Stdio.working_ok.takes _ _), hfile]

/-! ### Well placed segments -/

def ElfSegment.chunk (mem : Mem β) (s : ElfSegment β) : Option (Chunk UInt8) :=
  if s.filesz = 0 then none
  else s.data.map fun p => ⟨s.fileOffset.toNat, p.bytes mem s.filesz.toNat⟩

def chunks (mem : Mem β) (segs : List (ElfSegment β)) : List (Chunk UInt8) :=
  segs.filterMap (ElfSegment.chunk mem)

def CarriesData (mem : Mem β) (s : ElfSegment β) : Prop :=
  s.filesz ≠ 0 → ∃ p, s.data = some p ∧ p.Holds mem s.filesz.toNat

theorem CarriesData.readable {s : ElfSegment β} (h : CarriesData mem s) : s.Readable mem := by
  intro p hp hsize
  obtain ⟨p', hp', hholds⟩ := h hsize
  cases hp.symm.trans hp'
  exact hholds

/-- From a cursor that agrees with the position `c`, as long as that is below `2^32`, the segments'
data are written as chunks. -/
theorem segmentWrites_of_placed (hdata : ∀ s ∈ segs, CarriesData mem s) {c : Nat}
    (hplaced : Placed c (chunks mem segs)) (hcur : c < 2 ^ 32 → cur.toNat = c) :
    InOrder cur segs ∧ (segmentWrites mem cur segs).flatten = assemble 0 c (chunks mem segs) := by
  induction segs generalizing c cur with
  | nil => exact ⟨trivial, rfl⟩
  | cons s rest ih =>
    rw [List.forall_mem_cons] at hdata
    rw [InOrder, segmentWrites]
    rcases eq_or_ne s.filesz 0 with hsize | hsize
    · have hskip : chunks mem (s :: rest) = chunks mem rest := by simp [chunks, ElfSegment.chunk, hsize]
      rw [hskip] at hplaced ⊢
      rw [if_pos hsize, if_pos hsize]
      exact ih hdata.2 hplaced hcur
    · obtain ⟨p, hp, hholds⟩ := hdata.1 hsize
      have hcons : chunks mem (s :: rest) =
          ⟨s.fileOffset.toNat, p.bytes mem s.filesz.toNat⟩ :: chunks mem rest := by
        simp [chunks, ElfSegment.chunk, hsize, hp]
      rw [hcons] at hplaced ⊢
      obtain ⟨hle, hplaced⟩ := hplaced
      have hc := hcur (Nat.lt_of_le_of_lt hle s.fileOffset.toNat_lt)
      have hover : ¬ s.fileOffset < cur := by
        rw [UInt32.lt_iff_toNat_lt, hc]
        exact Nat.not_lt.mpr hle
      have hpad : (s.fileOffset - cur).toNat = s.fileOffset.toNat - c := by
        rw [toNat_sub_of_le (by rw [hc]; exact hle), hc]
      have hnext : (⟨s.fileOffset.toNat, p.bytes mem s.filesz.toNat⟩ : Chunk UInt8).last =
          s.fileOffset.toNat + s.filesz.toNat := by simp [Chunk.last]
      rw [hnext] at hplaced
      obtain ⟨horder, hrest⟩ := ih hdata.2 hplaced toNat_add_of_lt
      rw [if_neg hsize, if_neg hsize]
      refine ⟨⟨hover, by rw [hp]; exact Option.some_ne_none p, horder⟩, ?_⟩
      rw [List.flatten_append, flatten_zeroPages, List.flatten_cons, hrest, hp, hpad, assemble, hnext]
      rfl

/-- What `elf_write` expects of a spec: up to 64 segments, the ones that are not empty sorted by file
offset, disjoint in the file, behind the program headers and with their data. -/
structure WellPlaced (mem : Mem β) (spec : ElfImageSpec β) : Prop where
  nonempty : spec.segments.length ≠ 0
  count : spec.segments.length ≤ elfMaxSegments
  sorted : (spec.segments.filter (·.filesz ≠ 0)).Pairwise fun s t => s.fileOffset ≤ t.fileOffset
  disjoint : (spec.segments.filter (·.filesz ≠ 0)).Pairwise fun s t =>
    s.fileOffset.toNat + s.filesz.toNat ≤ t.fileOffset.toNat ∨
      t.fileOffset.toNat + t.filesz.toNat ≤ s.fileOffset.toNat
  after_headers : ∀ s ∈ spec.segments, s.filesz ≠ 0 →
    52 + 32 * spec.segments.length ≤ s.fileOffset.toNat
  data : ∀ s ∈ spec.segments, CarriesData mem s

structure Encodes (mem : Mem β) (spec : ElfImageSpec β) (file : List UInt8) : Prop where
  decode : elf32Decode (.ofList file) = some (spec.entry, spec.segments.map ElfSegment.phdr)
  data : ∀ s ∈ spec.segments, s.filesz ≠ 0 → ∃ p, s.data = some p ∧
    s.fileOffset.toNat + s.filesz.toNat ≤ file.length ∧
    (Buffer.ofList file).slice s.fileOffset.toNat s.filesz.toNat = p.bytes mem s.filesz.toNat
  gaps : ∀ i (h : i < file.length), 52 + 32 * spec.segments.length ≤ i →
    (∀ s ∈ spec.segments, ¬ (s.fileOffset.toNat ≤ i ∧ i < s.fileOffset.toNat + s.filesz.toNat)) →
      file[i] = 0
  length : file.length = (spec.segments.filter (·.filesz ≠ 0)).getLast?.elim
    (52 + 32 * spec.segments.length) fun s => s.fileOffset.toNat + s.filesz.toNat

theorem mem_chunks {mem : Mem β} {segs : List (ElfSegment β)} {k : Chunk UInt8} :
    k ∈ chunks mem segs ↔ ∃ s ∈ segs, s.filesz ≠ 0 ∧ ∃ p, s.data = some p ∧
      k = ⟨s.fileOffset.toNat, p.bytes mem s.filesz.toNat⟩ := by
  simp only [chunks, List.mem_filterMap, ElfSegment.chunk, Option.ite_none_left_eq_some,
    Option.map_eq_some_iff, eq_comm (b := k)]

theorem WellPlaced.placed {mem : Mem β} {spec : ElfImageSpec β} (h : WellPlaced mem spec) :
    Placed (52 + 32 * spec.segments.length) (chunks mem spec.segments) := by
  refine placed_of_pairwise ?_ ?_
  · have hfilter : chunks mem spec.segments = chunks mem (spec.segments.filter (·.filesz ≠ 0)) := by
      rw [chunks, chunks, List.filterMap_filter]
      congr 1
      funext s
      by_cases hs : s.filesz = 0 <;> simp [ElfSegment.chunk, hs]
    rw [hfilter, chunks, List.pairwise_filterMap]
    refine (h.sorted.and h.disjoint).imp_of_mem ?_
    rintro s t - ht ⟨hle, hdis⟩ k hk k' hk'
    have hne : t.filesz.toNat ≠ 0 := fun h0 =>
      (of_decide_eq_true (List.mem_filter.mp ht).2) (UInt32.toNat_inj.mp h0)
    have hle' : s.fileOffset.toNat ≤ t.fileOffset.toNat := hle
    simp only [ElfSegment.chunk, Option.ite_none_left_eq_some, Option.map_eq_some_iff] at hk hk'
    obtain ⟨-, p, -, rfl⟩ := hk
    obtain ⟨-, p', -, rfl⟩ := hk'
    simp only [Chunk.last, Ptr.length_bytes]
    omega
  · intro k hk
    obtain ⟨s, hs, hsize, p, -, rfl⟩ := mem_chunks.mp hk
    exact h.after_headers s hs hsize

theorem endOf_chunks {mem : Mem β} {segs : List (ElfSegment β)} (hdata : ∀ s ∈ segs, CarriesData mem s)
    (c : Nat) : endOf c (chunks mem segs) = (segs.filter (·.filesz ≠ 0)).getLast?.elim c
      fun s => s.fileOffset.toNat + s.filesz.toNat := by
  induction segs generalizing c with
  | nil => rfl
  | cons s rest ih =>
    have hrest := ih fun t ht => hdata t (List.mem_cons_of_mem _ ht)
    rcases eq_or_ne s.filesz 0 with hsize | hsize
    · have hskip : chunks mem (s :: rest) = chunks mem rest := by simp [chunks, ElfSegment.chunk, hsize]
      rw [hskip, hrest, List.filter_cons_of_neg (by simpa using hsize)]
    · obtain ⟨p, hp, -⟩ := hdata s List.mem_cons_self hsize
      have hcons : chunks mem (s :: rest) =
          ⟨s.fileOffset.toNat, p.bytes mem s.filesz.toNat⟩ :: chunks mem rest := by
        simp [chunks, ElfSegment.chunk, hsize, hp]
      rw [hcons, endOf, hrest, List.filter_cons_of_pos (by simpa using hsize), List.getLast?_cons]
      simp only [Chunk.last, Ptr.length_bytes]
      cases (rest.filter (·.filesz ≠ 0)).getLast? <;> rfl

/-! ### Decoding -/

theorem length_elfEhdr (entry : UInt32) (n : Nat) : (elfEhdr entry n).bytes.length = 52 :=
  Elf32Ehdr.length_bytes _ rfl

theorem elfEhdr_valid (entry : UInt32) (n : Nat) : (elfEhdr entry n).Valid := by
  simp [Elf32Ehdr.Valid, elfEhdr, elfMagic, elf32PhdrSize]

theorem has_phdr {b : Buffer} {segs : List (ElfSegment β)} {i : Nat}
    (h : b.Has i (segs.flatMap fun s => s.phdr.bytes)) {k : Nat} (hk : k < segs.length) :
    b.Has (i + k * elf32PhdrSize) segs[k].phdr.bytes := by
  induction segs generalizing i k with
  | nil => exact absurd hk (Nat.not_lt_zero k)
  | cons s rest ih =>
    rw [List.flatMap_cons, Buffer.has_append, Elf32Phdr.length_bytes] at h
    cases k with
    | zero => simpa using h.1
    | succ k =>
      have hi : i + (k + 1) * elf32PhdrSize = i + elf32PhdrSize + k * elf32PhdrSize := by
        rw [Nat.succ_mul]; omega
      rw [hi, List.getElem_cons_succ]
      exact ih h.2 (Nat.lt_of_succ_lt_succ hk)

theorem length_phdrs (segs : List (ElfSegment β)) :
    (segs.flatMap fun s => s.phdr.bytes).length = 32 * segs.length := by
  induction segs with
  | nil => rfl
  | cons s rest ih =>
    rw [List.flatMap_cons, List.length_append, ih, Elf32Phdr.length_bytes, List.length_cons,
      elf32PhdrSize]
    omega

/-- A file that starts with the header and the program headers of a spec decodes to them. -/
theorem elf32Decode_eq (entry : UInt32) {segs : List (ElfSegment β)} (hn : segs.length ≤ elfMaxSegments)
    (rest : List UInt8) :
    elf32Decode (.ofList ((elfEhdr entry segs.length).bytes ++
      ((segs.flatMap fun s => s.phdr.bytes) ++ rest))) = some (entry, segs.map ElfSegment.phdr) := by
  have hmax : elfMaxSegments = 64 := rfl
  have hlen := length_elfEhdr entry segs.length
  generalize hhdr : (elfEhdr entry segs.length).bytes = hdr at hlen
  have hsize : (Buffer.ofList (hdr ++ ((segs.flatMap fun s => s.phdr.bytes) ++ rest))).size =
      52 + (32 * segs.length + rest.length) := by
    rw [Buffer.size_ofList, List.length_append, List.length_append, hlen, length_phdrs]
  have hat : (Buffer.ofList (hdr ++ ((segs.flatMap fun s => s.phdr.bytes) ++ rest))).Has 0 hdr :=
    Buffer.has_ofList [] hdr _
  have hphdrs := Buffer.has_ofList hdr (segs.flatMap fun s => s.phdr.bytes) rest
  rw [hlen] at hphdrs
  generalize Buffer.ofList (hdr ++ ((segs.flatMap fun s => s.phdr.bytes) ++ rest)) = b at *
  rw [← hhdr] at hat
  have heh := elf32EhdrAt_of_has (show (elfEhdr entry segs.length).eIdent.length = 16 from rfl) hat
  have hnum : (elfEhdr entry segs.length).ePhnum.toNat = segs.length := by
    simp only [elfEhdr, UInt16.toNat_ofNat']
    omega
  have hoff : (elfEhdr entry segs.length).ePhoff.toNat = 52 := rfl
  have hdecode : elf32Phdrs b = segs.map ElfSegment.phdr := by
    refine List.ext_getElem (by simp [elf32Phdrs, heh, hnum]) fun k hk hk' => ?_
    rw [List.length_map] at hk'
    simp only [elf32Phdrs, heh, hoff, List.getElem_map, List.getElem_range]
    exact elf32PhdrAt_of_has (has_phdr hphdrs hk')
  have hfits : 52 + segs.length * elf32PhdrSize ≤ b.size := by
    rw [hsize, elf32PhdrSize]
    omega
  have hhdr : elf32EhdrSize ≤ b.size := by
    rw [hsize, elf32EhdrSize]
    omega
  simp only [elf32Decode, heh, hnum, hoff, hdecode]
  rw [if_pos ⟨hhdr, elfEhdr_valid _ _, hfits⟩]
  rfl

/-- Whatever the segments are, a file that is written starts with a program header for each. -/
theorem elfWrite_decodes {file : List UInt8} (h : (elfWrite io mem spec).result = .ok file) :
    elf32Decode (.ofList file) = some (spec.entry, spec.segments.map ElfSegment.phdr) := by
  obtain ⟨hacc, -, hfile⟩ := elfWrite_eq_ok h
  rw [hfile, flatten_elfWrites]
  exact elf32Decode_eq spec.entry hacc.count _

theorem WellPlaced.accepted (h : WellPlaced mem spec) : Accepted spec where
  nonempty := h.nonempty
  count := h.count
  after_headers s hs hsize := by
    rw [UInt32.lt_iff_toNat_lt, phdrsEnd_toNat h.count]
    exact Nat.not_lt.mpr (h.after_headers s hs hsize)
  inOrder := (segmentWrites_of_placed h.data h.placed fun _ => phdrsEnd_toNat h.count).1

theorem elfWrite_eq (hio : io.WritesOk) (h : WellPlaced mem spec) : elfWrite io mem spec =
    ⟨true, .ok ((elfEhdr spec.entry spec.segments.length).bytes ++
      ((spec.segments.flatMap fun s => s.phdr.bytes) ++
        assemble 0 (52 + 32 * spec.segments.length) (chunks mem spec.segments)))⟩ := by
  have hread : ∀ s ∈ spec.segments, s.Readable mem := fun s hs => (h.data s hs).readable
  have hsegs := (segmentWrites_of_placed h.data h.placed fun _ => phdrsEnd_toNat h.count).2
  rw [elfWrite_of_accepted hread h.accepted hio.fopen, bytes_of_takes (hio.takes _ _), ← hsegs,
    ← flatten_elfWrites]

/-- When all writes succeed, a well placed spec is written, and the file decodes to it. -/
theorem elfWrite_encodes {io : Stdio} (hio : io.WritesOk) {mem : Mem β} {spec : ElfImageSpec β}
    (h : WellPlaced mem spec) :
    ∃ file, elfWrite io mem spec = ⟨true, .ok file⟩ ∧ Encodes mem spec file := by
  refine ⟨_, elfWrite_eq hio h, ?_⟩
  have hplaced := h.placed
  obtain ⟨tail, htail⟩ : ∃ tail, tail = assemble 0 (52 + 32 * spec.segments.length)
    (chunks mem spec.segments) := ⟨_, rfl⟩
  obtain ⟨front, hfront⟩ : ∃ front, front = (elfEhdr spec.entry spec.segments.length).bytes ++
    spec.segments.flatMap fun s => s.phdr.bytes := ⟨_, rfl⟩
  have hlen : front.length = 52 + 32 * spec.segments.length := by
    rw [hfront, List.length_append, length_phdrs, length_elfEhdr]
  have hdecode := elf32Decode_eq spec.entry h.count tail
  rw [← htail]
  rw [← List.append_assoc, ← hfront] at hdecode ⊢
  refine ⟨hdecode, ?_, ?_, ?_⟩
  · intro s hs hsize
    obtain ⟨p, hp, -⟩ := h.data s hs hsize
    have hk : (⟨s.fileOffset.toNat, p.bytes mem s.filesz.toNat⟩ : Chunk UInt8) ∈
        chunks mem spec.segments := mem_chunks.mpr ⟨s, hs, hsize, p, hp, rfl⟩
    obtain ⟨pre, post, heq, hoff⟩ := assemble_chunk (z := 0) hplaced hk
    refine ⟨p, hp, ?_, ?_⟩
    · rw [List.length_append, hlen, htail, heq, List.length_append, List.length_append, Ptr.length_bytes]
      have hoff' : 52 + 32 * spec.segments.length + pre.length = s.fileOffset.toNat := hoff
      omega
    have hhas := Buffer.has_ofList (front ++ pre) (p.bytes mem s.filesz.toNat) post
    rw [List.append_assoc, ← heq, ← htail, List.length_append, hlen, hoff] at hhas
    have hslice := hhas.slice
    rwa [Ptr.length_bytes] at hslice
  · intro i hi hlo hgap
    rw [List.getElem_append_right (by omega)]
    subst htail
    refine assemble_gap hplaced _ fun k hk => ?_
    obtain ⟨s, hs, -, p, -, rfl⟩ := mem_chunks.mp hk
    have hat : 52 + 32 * spec.segments.length + (i - front.length) = i := by omega
    simpa only [hat, Chunk.Covers, Chunk.last, Ptr.length_bytes] using hgap s hs
  · rw [List.length_append, hlen, htail, length_assemble hplaced, endOf_chunks h.data]

def twoBlocks : Mem Bool := fun b => .ofList (if b then [1, 2, 3] else [4, 5])

def twoBlocksSpec : ElfImageSpec Bool where
  entry := 0x08048000
  segments :=
    [⟨0x08048000, pfR ||| pfX, 0x1000, some ⟨true, 0⟩, 3, 0x1000⟩, ⟨0x08049000, pfR, 0, none, 0, 16⟩,
      ⟨0x0804A000, pfR ||| pfW, 0x2003, some ⟨false, 1⟩, 1, 1⟩]

theorem twoBlocks_wellPlaced : WellPlaced twoBlocks twoBlocksSpec := by
  have hdata : ∀ s ∈ twoBlocksSpec.segments, CarriesData twoBlocks s := by
    intro s hs hsize
    simp only [twoBlocksSpec, List.mem_cons, List.not_mem_nil, or_false] at hs
    rcases hs with rfl | rfl | rfl
    · exact ⟨_, rfl, by decide⟩
    · exact absurd rfl hsize
    · exact ⟨_, rfl, by decide⟩
  exact ⟨by decide, by decide, by decide, by decide, by decide, hdata⟩

theorem elfWrite_twoBlocks : ∃ file, elfWrite .working twoBlocks twoBlocksSpec = ⟨true, .ok file⟩ ∧
    Encodes twoBlocks twoBlocksSpec file :=
  elfWrite_encodes Stdio.working_ok twoBlocks_wellPlaced

end Winlift

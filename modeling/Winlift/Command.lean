import Winlift.Convertible
import Winlift.Rejection

/-!
# The exit statuses of the tool

The arguments that `main` takes are a grammar (`CommandLine`), and what a run makes of them can be read off
the input file: with memory to spare and no write that comes short, `winlift_statuses` says when a run ends with
an output file, with a dump, and with a usage error.
-/

namespace Winlift
open CSem Res

/-! ### Arguments -/

inductive Argument where
  | dump
  | output (path : String)
  | input (path : String)

namespace Argument

def words : Argument → List String
  | dump => ["--dump"]
  | output path => ["-o", path]
  | input path => [path]

def Plain : Argument → Prop
  | input path => path ≠ "--dump" ∧ path ≠ "-o"
  | _ => True

def isDump : Argument → Bool
  | dump => true
  | _ => false

def output? : Argument → Option String
  | output path => some path
  | _ => none

def input? : Argument → Option String
  | input path => some path
  | _ => none

end Argument

/-- The words of some arguments, among which at most one input; of the outputs the last one counts. -/
def CommandLine (argv : List String) (args : Args) : Prop :=
  ∃ items : List Argument, (∀ a ∈ items, a.Plain) ∧ argv = items.flatMap Argument.words ∧
    args.dump = items.any Argument.isDump ∧ args.input.toList = items.filterMap Argument.input? ∧
    args.output = (items.filterMap Argument.output?).getLast?

/-- `args` after `items` have been taken. -/
structure TakenFrom (start : Args) (items : List Argument) (args : Args) : Prop where
  dump : args.dump = (start.dump || items.any Argument.isDump)
  input : args.input.toList = start.input.toList ++ items.filterMap Argument.input?
  output : args.output = (start.output.toList ++ items.filterMap Argument.output?).getLast?

section
variable {start args : Args} {items : List Argument} {argv rest : List String}

theorem takenFrom_nil : TakenFrom start [] args ↔ args = start := by
  have hlast : start.output.toList.getLast? = start.output := by cases start.output <;> rfl
  constructor
  · rintro ⟨hdump, hinput, houtput⟩
    simp only [List.filterMap_nil, List.append_nil, List.any_nil, Bool.or_false, hlast] at hdump hinput houtput
    have hinput : args.input = start.input := by simpa using congrArg List.head? hinput
    cases args
    cases hdump
    cases hinput
    cases houtput
    rfl
  · rintro rfl
    exact ⟨by simp, by simp, by simp [hlast]⟩

theorem takenFrom_dump : TakenFrom start (.dump :: items) args ↔
    TakenFrom { start with dump := true } items args := by
  constructor
  · rintro ⟨hdump, hinput, houtput⟩
    exact ⟨by simpa [Argument.isDump] using hdump, hinput, houtput⟩
  · rintro ⟨hdump, hinput, houtput⟩
    exact ⟨by simpa [Argument.isDump] using hdump, hinput, houtput⟩

theorem takenFrom_output {path : String} : TakenFrom start (.output path :: items) args ↔
    TakenFrom { start with output := some path } items args := by
  have hlast : (start.output.toList ++ path :: items.filterMap Argument.output?).getLast? =
      (path :: items.filterMap Argument.output?).getLast? := by
    rw [List.getLast?_append, List.getLast?_cons]
    rfl
  constructor
  · rintro ⟨hdump, hinput, houtput⟩
    exact ⟨hdump, hinput, houtput.trans hlast⟩
  · rintro ⟨hdump, hinput, houtput⟩
    exact ⟨hdump, hinput, houtput.trans hlast.symm⟩

theorem takenFrom_input {path : String} : TakenFrom start (.input path :: items) args ↔
    start.input = none ∧ TakenFrom { start with input := some path } items args := by
  constructor
  · rintro ⟨hdump, hinput, houtput⟩
    have hnone : start.input = none := by
      have hlen := congrArg List.length hinput
      rw [List.length_append, List.filterMap_cons_some (by rfl), List.length_cons] at hlen
      rcases hs : start.input with _ | s
      · rfl
      · rw [hs] at hlen
        rcases ha : args.input with _ | a <;> simp [ha] at hlen
    refine ⟨hnone, hdump, ?_, houtput⟩
    rw [hnone] at hinput
    exact hinput
  · rintro ⟨hnone, hdump, hinput, houtput⟩
    refine ⟨hdump, ?_, houtput⟩
    rw [hnone]
    exact hinput

theorem parseArgs_dump : parseArgs ("--dump" :: rest) start = parseArgs rest { start with dump := true } := by
  rw [parseArgs.eq_def]
  exact if_pos rfl

theorem parseArgs_output {path : String} : parseArgs ("-o" :: path :: rest) start =
    parseArgs rest { start with output := some path } := by
  have hne : "-o" ≠ "--dump" := by decide
  rw [parseArgs.eq_def]
  exact (if_neg hne).trans (if_pos rfl)

theorem parseArgs_input {path : String} (hplain : (Argument.input path).Plain) (hnone : start.input = none) :
    parseArgs (path :: rest) start = parseArgs rest { start with input := some path } := by
  rw [parseArgs.eq_def]
  exact (if_neg hplain.1).trans ((if_neg hplain.2).trans (if_pos hnone))

theorem parseArgs_of_taken (hplain : ∀ a ∈ items, a.Plain) (h : TakenFrom start items args) :
    parseArgs (items.flatMap Argument.words) start = some args := by
  induction items generalizing start with
  | nil => rw [takenFrom_nil.mp h, List.flatMap_nil, parseArgs]
  | cons a items ih =>
    rw [List.forall_mem_cons] at hplain
    rw [List.flatMap_cons]
    cases a with
    | dump => exact parseArgs_dump.trans (ih hplain.2 (takenFrom_dump.mp h))
    | output path => exact parseArgs_output.trans (ih hplain.2 (takenFrom_output.mp h))
    | input path =>
      obtain ⟨hnone, h⟩ := takenFrom_input.mp h
      exact (parseArgs_input hplain.1 hnone).trans (ih hplain.2 h)

theorem taken_of_parseArgs (h : parseArgs argv start = some args) :
    ∃ items : List Argument, (∀ a ∈ items, a.Plain) ∧ argv = items.flatMap Argument.words ∧
      TakenFrom start items args := by
  induction argv, start using parseArgs.induct with
  | case1 start =>
    rw [parseArgs] at h
    exact ⟨[], by simp, rfl, takenFrom_nil.mpr (Option.some.inj h).symm⟩
  | case2 rest start ih =>
    obtain ⟨items, hplain, rfl, htaken⟩ := ih (parseArgs_dump.symm.trans h)
    exact ⟨.dump :: items, List.forall_mem_cons.mpr ⟨trivial, hplain⟩, rfl, takenFrom_dump.mpr htaken⟩
  | case3 start hne =>
    rw [parseArgs.eq_def] at h
    cases h.symm.trans ((if_neg hne).trans (if_pos rfl))
  | case4 start path rest hne ih =>
    obtain ⟨items, hplain, rfl, htaken⟩ := ih (parseArgs_output.symm.trans h)
    exact ⟨.output path :: items, List.forall_mem_cons.mpr ⟨trivial, hplain⟩, rfl,
      takenFrom_output.mpr htaken⟩
  | case5 path rest start hdump hout hnone ih =>
    have hpath : (Argument.input path).Plain := ⟨hdump, hout⟩
    obtain ⟨items, hplain, rfl, htaken⟩ := ih ((parseArgs_input hpath hnone).symm.trans h)
    exact ⟨.input path :: items, List.forall_mem_cons.mpr ⟨hpath, hplain⟩, rfl,
      takenFrom_input.mpr ⟨hnone, htaken⟩⟩
  | case6 path rest start hdump hout hsome =>
    rw [parseArgs.eq_def] at h
    cases h.symm.trans ((if_neg hdump).trans ((if_neg hout).trans (if_neg hsome)))

theorem parseArgs_eq_some : parseArgs argv ⟨false, none, none⟩ = some args ↔ CommandLine argv args := by
  constructor
  · intro h
    obtain ⟨items, hplain, hargv, htaken⟩ := taken_of_parseArgs h
    exact ⟨items, hplain, hargv, htaken.dump, htaken.input, htaken.output⟩
  · rintro ⟨items, hplain, rfl, hdump, hinput, houtput⟩
    exact parseArgs_of_taken hplain ⟨hdump, hinput, houtput⟩

end

/-! ### The output file -/

/-- Where the `k`-th segment would start in a file without the limit of `2^32` bytes. -/
def startOf (sizes : List Nat) (k : Nat) : Nat := 0x1000 + ((sizes.take k).map (roundUp · 0x1000)).sum

/-- No segment with bytes has its offset wrapped to 0, in the middle of the headers. -/
def OffsetsOk (sizes : List Nat) : Prop :=
  ∀ k n, sizes[k]? = some n → n ≠ 0 → startOf sizes k % 2 ^ 32 ≠ 0

theorem LaidOut.fileOffset {off : UInt32} {segs : List Segment} (h : LaidOut off segs)
    (hoff : 0x1000 ∣ off.toNat) {k : Nat} {s : Segment} (hk : segs[k]? = some s) :
    s.fileOffset.toNat =
      (off.toNat + (((segs.map (·.filesz.toNat)).take k).map (roundUp · 0x1000)).sum) % 2 ^ 32 := by
  induction segs generalizing off k with
  | nil => cases hk
  | cons t rest ih =>
    obtain ⟨rfl, hrest⟩ := h
    cases k with
    | zero =>
      cases hk
      simp
    | succ k =>
      rw [ih hrest (alignUp_dvd _) hk, nextOff_toNat hoff, List.map_cons, List.take_succ_cons, List.map_cons,
        List.sum_cons, Nat.mod_add_mod, Nat.add_assoc]

/-- The cursor never gets past the next segment that has bytes. -/
theorem LaidOut.inOrder {segs : List Segment} {off cur : UInt32} (h : LaidOut off segs)
    (hoff : 0x1000 ∣ off.toNat) (hcur : cur ≤ off ∨ off = 0)
    (hne : ∀ s ∈ segs, s.filesz ≠ 0 → s.fileOffset ≠ 0)
    (hdata : ∀ s ∈ segs, s.filesz ≠ 0 → s.data ≠ none) :
    InOrder cur segs := by
  induction segs generalizing off cur with
  | nil => trivial
  | cons s rest ih =>
    obtain ⟨rfl, hrest⟩ := h
    rw [List.forall_mem_cons] at hne hdata
    rw [InOrder]
    split_ifs with hsize
    · have hsame : alignUp (s.fileOffset + s.filesz) pageSize = s.fileOffset := by
        apply UInt32.toNat_inj.mp
        rw [nextOff_toNat hoff, hsize, UInt32.toNat_zero, roundUp_of_dvd (by norm_num) (Nat.dvd_zero _),
          Nat.add_zero, Nat.mod_eq_of_lt s.fileOffset.toNat_lt]
      rw [hsame] at hrest
      exact ih hrest hoff hcur hne.2 hdata.2
    · refine ⟨?_, hdata.1 hsize, ih hrest (alignUp_dvd _) (le_alignUp _) hne.2 hdata.2⟩
      rcases hcur with hle | hzero
      · exact UInt32.not_lt.mpr hle
      · exact absurd hzero (hne.1 hsize)

section
variable {raw blob : Buffer} {img : PeImage} {spec : Spec} {r : StubPatched} {io : Stdio}

theorem filesz_segments (hlay : LayoutOf img spec) (hstub : StubPatchOf blob img spec r) :
    r.spec.segments.map (·.filesz.toNat) = fileSizes img blob := by
  have hunplace := congrArg (List.map fun s : Segment => s.filesz.toNat) (unplace_all hlay hstub)
  rw [List.map_map] at hunplace
  refine hunplace.trans ?_
  simp [imageSegments, shimSegments, fileSizes, headerSegment, sectionSegment, shimSegment, Function.comp_def]

theorem offsetsOk_iff (hlay : LayoutOf img spec) (hstub : StubPatchOf blob img spec r) :
    OffsetsOk (fileSizes img blob) ↔ ∀ s ∈ r.spec.segments, s.filesz ≠ 0 → s.fileOffset ≠ 0 := by
  have hoff : ∀ {k s}, r.spec.segments[k]? = some s →
      s.fileOffset.toNat = startOf (fileSizes img blob) k % 2 ^ 32 := by
    intro k s hk
    rw [(laidOut_all hlay hstub).fileOffset (Nat.dvd_refl _) hk, filesz_segments hlay hstub]
    rfl
  have hne : ∀ n : UInt32, n ≠ 0 ↔ n.toNat ≠ 0 := fun n => not_congr UInt32.toNat_inj.symm
  rw [OffsetsOk, ← filesz_segments hlay hstub] at *
  constructor
  · intro h s hs hsize
    obtain ⟨k, hk⟩ := List.mem_iff_getElem?.mp hs
    rw [hne, hoff hk]
    exact h k _ (by rw [List.getElem?_map, hk]; rfl) ((hne _).mp hsize)
  · intro h k n hk hn
    rw [List.getElem?_map] at hk
    obtain ⟨s, hs, rfl⟩ := Option.map_eq_some_iff.mp hk
    rw [← hoff hs, ← hne]
    exact h s (List.mem_of_getElem? hs) ((hne _).mpr hn)

theorem readable_iff (hof : ImageOf raw img) (hlay : LayoutOf img spec) (hstub : StubPatchOf blob img spec r)
    (hblob : ShimBlobOk blob) : (∀ s ∈ r.spec.segments, s.Readable r.mem) ↔
      img.sizeOfHeaders.toNat ≤ raw.size := by
  have hraw : r.img.raw.size = raw.size := by rw [(patchImports_frame hstub.patched).2, hof.raw_eq]
  obtain ⟨target, o, -, -, hshim⟩ := shim_stores hstub hblob
  have hsize : r.shim.size = blob.size := by rw [hshim, Buffer.size_patches]
  rw [forall_segments hlay hstub fun s => Iff.rfl]
  constructor
  · rintro ⟨hhdr, -⟩
    by_cases hpos : 0 < img.sizeOfHeaders
    · have hle := hhdr _ (if_pos hpos) (UInt32.pos_iff_ne_zero.mp hpos)
      simpa [Ptr.Holds, StubPatched.mem, headerSegment, hraw] using hle
    · have hzero : ¬ 0 < img.sizeOfHeaders.toNat := hpos
      omega
  · intro hle
    refine ⟨fun p hp hne => ?_, fun s hs p hp hne => ?_, fun ph hph p hp hne => ?_⟩
    · cases hp.symm.trans (if_pos (UInt32.pos_iff_ne_zero.mpr hne))
      simpa [Ptr.Holds, StubPatched.mem, headerSegment, hraw] using hle
    · cases hp.symm.trans (if_pos (UInt32.pos_iff_ne_zero.mpr hne))
      have hle := hof.sections_in_file s hs
      simpa [Ptr.Holds, StubPatched.mem, sectionSegment, hraw] using hle
    · cases hp.symm.trans (if_pos (UInt32.pos_iff_ne_zero.mpr hne))
      have hle := hblob.in_blob _ (List.mem_map_of_mem hph)
      simpa [Ptr.Holds, StubPatched.mem, shimSegment, hsize, Elf32Phdr.region] using hle

theorem elfWrite_opened {file : List UInt8} (h : (elfWrite io r.mem r.spec).result = .ok file) :
    (elfWrite io r.mem r.spec).opened = true := by
  simp only [elfWrite] at h ⊢
  split_ifs at h ⊢
  rfl

theorem accepted_of_offsetsOk (hlay : LayoutOf img spec) (hstub : StubPatchOf blob img spec r)
    (h : OffsetsOk (fileSizes img blob)) : Accepted r.spec := by
  rw [offsetsOk_iff hlay hstub] at h
  have hlaid := laidOut_all hlay hstub
  have hlen := hstub.length_le hlay.length_le
  have hmax : elfMaxSegments = 64 := rfl
  have hpage : pageSize.toNat = 0x1000 := rfl
  have hend := phdrsEnd_toNat hlen
  refine ⟨fun hnil => ?_, hlen, fun s hs hsize hlt => h s hs hsize ?_, ?_⟩
  · have hall := unplace_all hlay hstub
    rw [List.length_eq_zero_iff.mp hnil] at hall
    cases hall
  · have hdvd := hlaid.aligned (Nat.dvd_refl _) s hs
    rw [UInt32.lt_iff_toNat_lt, hend] at hlt
    apply UInt32.toNat_inj.mp
    rw [UInt32.toNat_zero]
    omega
  · refine hlaid.inOrder (Nat.dvd_refl _) (.inl ?_) h (data_ne_none hlay hstub)
    rw [UInt32.le_iff_toNat_le]
    omega

/-- A converted image is written iff its headers are in the file and no offset has wrapped to 0. -/
theorem elfWrite_ok_iff (hio : io.WritesOk) (hof : ImageOf raw img) (hlay : LayoutOf img spec)
    (hstub : StubPatchOf blob img spec r) (hblob : ShimBlobOk blob) :
    (∃ file, (elfWrite io r.mem r.spec).result = .ok file) ↔
      img.sizeOfHeaders.toNat ≤ raw.size ∧ OffsetsOk (fileSizes img blob) := by
  rw [← readable_iff hof hlay hstub hblob]
  constructor
  · rintro ⟨file, hfile⟩
    obtain ⟨hacc, hread, -⟩ := elfWrite_eq_ok hfile
    refine ⟨hread, (offsetsOk_iff hlay hstub).mpr fun s hs hsize hzero => ?_⟩
    have hend := phdrsEnd_toNat hacc.count
    refine hacc.after_headers s hs hsize ?_
    rw [hzero, UInt32.lt_iff_toNat_lt, UInt32.toNat_zero, hend]
    omega
  · rintro ⟨hread, hoffs⟩
    refine ⟨(elfWrites r.mem r.spec).flatten, ?_⟩
    rw [elfWrite_of_accepted hread (accepted_of_offsetsOk hlay hstub hoffs) hio.fopen,
      bytes_of_takes (hio.takes _ _)]

end

/-! ### Runs -/

section
variable {host : Host} {secs : List (List Symbol)} {fuel code : Nat} {argv : List String}
  {opened : Option String}

/-- The ways of a run to end with another status than 1. -/
inductive Ends (host : Host) (fuel : Nat) (argv : List String) : Nat → Option String → Prop where
  | usage (hargs : ∀ args, CommandLine argv args → args.input = none) : Ends host fuel argv 2 none
  | dumped {input : String} {output : Option String} {img : PeImage}
      (hargs : CommandLine argv ⟨true, some input, output⟩) (hload : loadFile host fuel input = .ok img) :
      Ends host fuel argv 0 none
  | noOutput {input : String} {img : PeImage} (hargs : CommandLine argv ⟨false, some input, none⟩)
      (hload : loadFile host fuel input = .ok img) : Ends host fuel argv 2 none
  | written {input out : String} {img : PeImage} {r : StubPatched} {file : List UInt8}
      (hargs : CommandLine argv ⟨false, some input, some out⟩) (hload : loadFile host fuel input = .ok img)
      (hcopy : host.alloc.rawCopy img.raw.size = true) (hconv : convert host.alloc host.blob img = .ok r)
      (hfile : (elfWrite host.stdio r.mem r.spec).result = .ok file) : Ends host fuel argv 0 (some out)

theorem withResult_eq_exited {ε α : Type} {res : Res ε α} {next : α → MainRun} (hcode : code ≠ 1) :
    withResult res next = ⟨.exited code, opened⟩ ↔ ∃ a, res = .ok a ∧ next a = ⟨.exited code, opened⟩ := by
  cases res <;> simp [withResult, hcode.symm]

theorem writeOutput_of_ok {out : String} {r : StubPatched} {file : List UInt8}
    (h : (elfWrite host.stdio r.mem r.spec).result = .ok file) :
    writeOutput host.stdio out r = ⟨.exited 0, some out⟩ := by
  simp [writeOutput, h, elfWrite_opened h]

theorem exists_of_writeOutput {out : String} {r : StubPatched} (hcode : code ≠ 1)
    (h : writeOutput host.stdio out r = ⟨.exited code, opened⟩) :
    ∃ file, (elfWrite host.stdio r.mem r.spec).result = .ok file := by
  simp only [writeOutput] at h
  split at h
  · rename_i file hfile
    exact ⟨file, hfile⟩
  · cases h
    exact absurd rfl hcode
  · cases h
  · cases h

theorem winlift_eq_exited (hcode : code ≠ 1) :
    winlift host fuel argv = ⟨.exited code, opened⟩ ↔ Ends host fuel argv code opened := by
  constructor
  · intro h
    unfold winlift at h
    rcases hargs : parseArgs argv ⟨false, none, none⟩ with _ | ⟨dump, input, output⟩ <;> rw [hargs] at h
    · cases h
      refine .usage fun args hc => ?_
      rw [parseArgs_eq_some.mpr hc] at hargs
      cases hargs
    rcases input with _ | input
    · cases h
      refine .usage fun args hc => ?_
      rw [parseArgs_eq_some.mpr hc] at hargs
      cases hargs
      rfl
    have hline := parseArgs_eq_some.mp hargs
    obtain ⟨img, hload, h⟩ := (withResult_eq_exited hcode).mp h
    rcases dump with _ | _
    · rcases output with _ | out
      · cases h
        exact .noOutput hline hload
      · dsimp only at h
        rw [if_neg Bool.false_ne_true] at h
        split_ifs at h with hcopy
        · cases h
          exact absurd rfl hcode
        · obtain ⟨r, hconv, h⟩ := (withResult_eq_exited hcode).mp h
          obtain ⟨file, hfile⟩ := exists_of_writeOutput hcode h
          cases h.symm.trans (writeOutput_of_ok hfile)
          exact .written hline hload (Bool.not_eq_false _ ▸ hcopy) hconv hfile
    · cases h
      exact .dumped hline hload
  · rintro (hargs | ⟨hargs, hload⟩ | ⟨hargs, hload⟩ | ⟨hargs, hload, hcopy, hconv, hfile⟩) <;> unfold winlift
    · rcases hparse : parseArgs argv ⟨false, none, none⟩ with _ | args
      · rfl
      · have hnone := hargs args (parseArgs_eq_some.mp hparse)
        dsimp only
        rw [hnone]
    · rw [parseArgs_eq_some.mpr hargs]
      dsimp only
      rw [hload]
      rfl
    · rw [parseArgs_eq_some.mpr hargs]
      dsimp only
      rw [hload]
      rfl
    · rw [parseArgs_eq_some.mpr hargs]
      dsimp only
      rw [hload]
      simp [withResult, hcopy, hconv, writeOutput_of_ok hfile]

/-- `pe_image_load` returns an image of the file at `path`. -/
def Loadable (host : Host) (path : String) : Prop :=
  ∃ raw, host.readFile path = .content raw ∧ raw.size ≤ ptrdiffMax ∧
    ∃ fuel img, peImageLoad host.alloc fuel raw = .ok img

/-- The image can be converted and fits in an output file. -/
def Translatable (host : Host) (secs : List (List Symbol)) (path : String) : Prop :=
  ∃ raw fuel img, host.readFile path = .content raw ∧ raw.size ≤ ptrdiffMax ∧
    peImageLoad host.alloc fuel raw = .ok img ∧ Convertible host.alloc host.blob secs img ∧
      OffsetsOk (fileSizes img host.blob)

/-- The headers are in the file. Where they are not, `elf_write` reads past the end of its buffer, and what
the run does is not defined. -/
def HeadersInFile (host : Host) (path : String) : Prop :=
  ∀ raw fuel img, host.readFile path = .content raw → peImageLoad host.alloc fuel raw = .ok img →
    img.sizeOfHeaders.toNat ≤ raw.size

theorem loadFile_eq_ok {path : String} {img : PeImage} : loadFile host fuel path = .ok img ↔
    ∃ raw, host.readFile path = .content raw ∧ host.alloc.file raw.size = true ∧
      peImageLoad host.alloc fuel raw = .ok img := by
  constructor
  · intro h
    obtain ⟨raw, hread, hload⟩ := bind_eq_ok.mp h
    unfold readWholeFile at hread
    split at hread
    · cases hread
    · cases hread
    · cases hread
    · obtain ⟨u, -, hread⟩ := bind_eq_ok.mp hread
      cases hread
    · rename_i raw' hcontent
      obtain ⟨u, hgrant, hread⟩ := bind_eq_ok.mp hread
      cases hread
      exact ⟨raw, hcontent, Bool.not_eq_false _ ▸ rejectIf_eq_ok.mp hgrant, hload⟩
  · rintro ⟨raw, hread, hgrant, hload⟩
    rw [loadFile, hread, readWholeFile, rejectIf_of_not _ (by simp [hgrant]), ok_bind, ok_bind, hload]

theorem loadable_iff (hsucc : host.alloc.Succeeds) (hlaw : host.alloc.Lawful) {path : String} :
    (∃ fuel img, loadFile host fuel path = .ok img) ↔ Loadable host path := by
  simp only [loadFile_eq_ok]
  constructor
  · rintro ⟨fuel, img, raw, hread, hgrant, hload⟩
    exact ⟨raw, hread, hlaw.file _ hgrant, fuel, img, hload⟩
  · rintro ⟨raw, hread, hle, fuel, img, hload⟩
    exact ⟨fuel, img, raw, hread, hsucc.file _ hle, hload⟩

theorem written_iff (hsucc : host.alloc.Succeeds) (hlaw : host.alloc.Lawful) (hio : host.stdio.WritesOk)
    (hlinked : ShimLinked host.blob secs) (hblob : ShimBlobOk host.blob) {input : String}
    (hheaders : HeadersInFile host input) :
    (∃ fuel img r file, loadFile host fuel input = .ok img ∧ host.alloc.rawCopy img.raw.size = true ∧
      convert host.alloc host.blob img = .ok r ∧ (elfWrite host.stdio r.mem r.spec).result = .ok file) ↔
        Translatable host secs input := by
  simp only [loadFile_eq_ok]
  constructor
  · rintro ⟨fuel, img, r, file, ⟨raw, hread, hgrant, hload⟩, -, hconv, hfile⟩
    obtain ⟨spec, hspec, hr⟩ := bind_eq_ok.mp hconv
    refine ⟨raw, fuel, img, hread, hlaw.file _ hgrant, hload,
      convertible_of_ok hlinked hblob hconv, ?_⟩
    exact ((elfWrite_ok_iff hio (peImageLoad_eq_ok hload) (peLayoutToElfSpec_eq_ok hspec)
      (stubPatchApply_eq_ok hr) hblob).mp ⟨file, hfile⟩).2
  · rintro ⟨raw, fuel, img, hread, hle, hload, hconv, hoffs⟩
    obtain ⟨r, hconv⟩ := hconv.exists_convert hlinked hblob
    obtain ⟨spec, hspec, hr⟩ := bind_eq_ok.mp hconv
    have hof := peImageLoad_eq_ok hload
    obtain ⟨file, hfile⟩ := (elfWrite_ok_iff hio hof (peLayoutToElfSpec_eq_ok hspec)
      (stubPatchApply_eq_ok hr) hblob).mpr ⟨hheaders raw fuel img hread hload, hoffs⟩
    exact ⟨fuel, img, r, file, ⟨raw, hread, hsucc.file _ hle, hload⟩,
      hsucc.rawCopy _ (by rwa [hof.raw_eq]), hconv, hfile⟩

/-- What the exit statuses say, with memory to spare and no write that comes short. -/
theorem winlift_statuses (hsucc : host.alloc.Succeeds) (hlaw : host.alloc.Lawful)
    (hio : host.stdio.WritesOk) (hlinked : ShimLinked host.blob secs) (hblob : ShimBlobOk host.blob)
    (argv : List String) :
    (∀ out, (∀ input, CommandLine argv ⟨false, some input, some out⟩ → HeadersInFile host input) →
      ((∃ fuel, winlift host fuel argv = ⟨.exited 0, some out⟩) ↔
        ∃ input, CommandLine argv ⟨false, some input, some out⟩ ∧ Translatable host secs input)) ∧
    ((∃ fuel, winlift host fuel argv = ⟨.exited 0, none⟩) ↔
      ∃ input output, CommandLine argv ⟨true, some input, output⟩ ∧ Loadable host input) ∧
    ((∃ fuel, winlift host fuel argv = ⟨.exited 2, none⟩) ↔
      (∀ args, CommandLine argv args → args.input = none) ∨
        ∃ input, CommandLine argv ⟨false, some input, none⟩ ∧ Loadable host input) := by
  simp only [winlift_eq_exited (show 0 ≠ 1 by omega), winlift_eq_exited (show 2 ≠ 1 by omega),
    ← loadable_iff hsucc hlaw]
  refine ⟨fun out hheaders => ⟨?_, ?_⟩, ⟨?_, ?_⟩, ⟨?_, ?_⟩⟩
  · rintro ⟨fuel, h⟩
    cases h with
    | written hargs hload hcopy hconv hfile =>
      refine ⟨_, hargs, ?_⟩
      rw [← written_iff hsucc hlaw hio hlinked hblob (hheaders _ hargs)]
      exact ⟨fuel, _, _, _, hload, hcopy, hconv, hfile⟩
  · rintro ⟨input, hargs, h⟩
    rw [← written_iff hsucc hlaw hio hlinked hblob (hheaders _ hargs)] at h
    obtain ⟨fuel, img, r, file, hload, hcopy, hconv, hfile⟩ := h
    exact ⟨fuel, .written hargs hload hcopy hconv hfile⟩
  · rintro ⟨fuel, h⟩
    cases h with
    | dumped hargs hload => exact ⟨_, _, hargs, fuel, _, hload⟩
  · rintro ⟨input, output, hargs, fuel, img, hload⟩
    exact ⟨fuel, .dumped hargs hload⟩
  · rintro ⟨fuel, h⟩
    cases h with
    | usage hargs => exact .inl hargs
    | noOutput hargs hload => exact .inr ⟨_, hargs, fuel, _, hload⟩
  · rintro (hargs | ⟨input, hargs, fuel, img, hload⟩)
    · exact ⟨0, .usage hargs⟩
    · exact ⟨fuel, .noOutput hargs hload⟩

end

theorem headersInFile_ordinalImport (path : String) :
    HeadersInFile (.working MkMiniPe.ordinalImport) path := by
  intro raw fuel img hread hload
  cases hread
  have hrun : (peReadHeaders Alloc.generous.sections MkMiniPe.ordinalImport).okAnd fun p =>
      p.1.sizeOfHeaders.toNat ≤ MkMiniPe.ordinalImport.size := by decide +kernel
  obtain ⟨⟨img', dirs'⟩, himg', hle⟩ := okAnd_iff.mp hrun
  obtain ⟨img₀, dirs, hheaders, heq⟩ := peImageLoad_headers hload
  cases himg'.symm.trans hheaders
  have hsize : img.sizeOfHeaders = img'.sizeOfHeaders := by rw [heq]
  rw [hsize]
  exact of_decide_eq_true hle

theorem winlift_statuses_ordinalImport : ∃ input,
    CommandLine ["in.exe", "-o", "out"] ⟨false, some input, some "out"⟩ ∧
      Translatable (.working MkMiniPe.ordinalImport) miniSymbols input := by
  have hrun : winlift (.working MkMiniPe.ordinalImport) 9 ["in.exe", "-o", "out"] =
      ⟨.exited 0, some "out"⟩ := by
    decide +kernel
  obtain ⟨hwritten, -⟩ := @winlift_statuses (.working MkMiniPe.ordinalImport) miniSymbols
    Alloc.generous_succeeds Alloc.generous_lawful Stdio.working_ok miniShim_linked miniShim_ok
    ["in.exe", "-o", "out"]
  exact (hwritten "out" fun _ _ => headersInFile_ordinalImport _).mp ⟨9, hrun⟩

end Winlift

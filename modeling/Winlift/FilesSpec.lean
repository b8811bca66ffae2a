import Mathlib.Data.List.Forall2
import Mathlib.Data.List.GetD
import Winlift.CSem.Runs
import Winlift.FormatLength
import Winlift.ShimFiles
import Winlift.StartupSpec

/-!
# Files by handle

What the functions of `ShimFiles` are for: a program sees open files by handle (`Files`). `Files.Step` says
what a call may do and reply, with no descriptor in it: a handle that is given out is not in use, the
standard handles stay open, a call that puts out text sends a prefix of each piece of it, and all of it
when the kernel never refuses (`full`). `io_refines_files` is the refinement, for every order of calls.
-/

namespace Winlift
open CSem

/-- The file that a handle stands for; `g_last_error`. -/
structure Files where
  stream : UInt32 → Option Stream
  lastError : UInt32

namespace Files

def send (f : Files) (h : UInt32) (bytes : List UInt8) : Files :=
  { f with stream := Function.update f.stream h ((f.stream h).map (·.send bytes)) }

def receive (f : Files) (h : UInt32) (bytes : List UInt8) : Files :=
  { f with stream := Function.update f.stream h ((f.stream h).map (·.receive bytes)) }

theorem send_closed {f : Files} {h : UInt32} (hc : f.stream h = none) (bytes : List UInt8) :
    f.send h bytes = f := by
  rw [send, hc, Option.map_none, ← hc, Function.update_eq_self]

theorem receive_nil (f : Files) (h : UInt32) : f.receive h [] = f := by
  have hsame : (f.stream h).map (·.receive []) = f.stream h := by
    cases f.stream h <;> simp [Stream.receive]
  rw [receive, hsame, Function.update_eq_self]

end Files

/-- Not null, and not negative as a `long`. -/
def ValidHandle (h : UInt32) : Prop := 0 < h ∧ h < 0x80000000

instance (h : UInt32) : Decidable (ValidHandle h) := inferInstanceAs (Decidable (0 < h ∧ h < 0x80000000))

/-- The handles of standard input, output and error. -/
def StdHandle (h : UInt32) : Prop := h = 1 ∨ h = 2 ∨ h = 3

instance (h : UInt32) : Decidable (StdHandle h) := inferInstanceAs (Decidable (h = 1 ∨ h = 2 ∨ h = 3))

/-- What `CreateFile` asks for: `GENERIC_READ` and `GENERIC_WRITE`, and the disposition. -/
def genericMode (access disposition : UInt32) : OpenMode where
  reads := access &&& 0x80000000 ≠ 0 ∨ access &&& 0x40000000 = 0
  writes := access &&& 0x40000000 ≠ 0
  creates := disposition = 1 ∨ disposition = 2 ∨ disposition = 4
  exclusive := disposition = 1
  truncates := disposition = 2 ∨ disposition = 5

/-! ### Text -/

/-- What a call has to put out, in pieces, and where. -/
structure Output where
  handle : UInt32
  pieces : List (List UInt8)

/-- The handle of a `FILE *`. -/
def streamHandle (iob stream : UInt32) : UInt32 := UInt32.ofInt (shimIobToFd iob stream + 1)

namespace IoCall

def output (iob : UInt32) : IoCall → Option Output
  | writeFile h buf n _ overlapped =>
    if overlapped = 0 ∧ ValidHandle h then some ⟨h, [bytesFrom buf 0 n.toNat]⟩ else none
  | vfprintf stream fmt va _ => some ⟨streamHandle iob stream, [(rendering fmt va).take 1023]⟩
  | fwrite ptr size nmemb stream =>
    some ⟨streamHandle iob stream, [bytesFrom ptr 0 (size * nmemb).toNat]⟩
  | messageBoxA text caption =>
    some ⟨2, (messageBoxTexts text caption).map fun s => (s.getD nullText).bytes⟩
  | _ => none

/-- The reply to such a call of whose text `n` bytes went out. -/
def outputReply (n : UInt32) : IoCall → Reply
  | writeFile _ _ _ writtenGiven _ => ⟨1, if writtenGiven then some n else none, []⟩
  | vfprintf .. => ⟨n, none, []⟩
  | fwrite _ size _ _ => ⟨if size ≠ 0 then n / size else 0, none, []⟩
  | _ => ⟨1, none, []⟩

end IoCall

/-! ### A step -/

inductive Files.Step (iob : UInt32) (full : Prop) (f : Files) : IoCall × Reply → Files → Prop
  | created {path : CStr} {access disposition h : UInt32} (valid : ValidHandle h)
      (unused : f.stream h = none) :
    Step iob full f (.createFileA path access disposition, ⟨h, none, []⟩)
      { f with stream :=
          Function.update f.stream h (some (.opened path (genericMode access disposition))) }
  | notCreated {path : CStr} {access disposition : UInt32} :
    Step iob full f (.createFileA path access disposition, ⟨invalidHandleValue, none, []⟩)
      { f with lastError := 2 }
  | closed {h : UInt32} (std : ¬ StdHandle h) :
    Step iob full f (.closeHandle h, ⟨1, none, []⟩)
      { f with stream := Function.update f.stream h none }
  | notClosed {h : UInt32} (std : StdHandle h) : Step iob full f (.closeHandle h, ⟨1, none, []⟩) f
  | read {h n : UInt32} {nreadGiven : Bool} {bytes : List UInt8} (valid : ValidHandle h)
      (isOpen : f.stream h ≠ none) (size : bytes.length ≤ n.toNat) :
    Step iob full f (.readFile h n nreadGiven 0,
        ⟨1, if nreadGiven then some (UInt32.ofNat bytes.length) else none, bytes⟩)
      (f.receive h bytes)
  | notRead {h n : UInt32} {nreadGiven : Bool} (valid : ValidHandle h) :
    Step iob full f (.readFile h n nreadGiven 0, ⟨0, if nreadGiven then some 0 else none, []⟩) f
  | readRejected {h n : UInt32} {nreadGiven : Bool} {overlapped : UInt32}
      (bad : overlapped ≠ 0 ∨ ¬ ValidHandle h) :
    Step iob full f (.readFile h n nreadGiven overlapped, ⟨0, none, []⟩)
      { f with lastError := if overlapped ≠ 0 then 87 else 6 }
  | put {c : IoCall} {o : Output} {parts : List (List UInt8)} (output : c.output iob = some o)
      (parts_le : List.Forall₂ (· <+: ·) parts o.pieces)
      (closed : f.stream o.handle = none → parts.flatten = [])
      (all : full → f.stream o.handle ≠ none → parts = o.pieces) :
    Step iob full f (c, c.outputReply (UInt32.ofNat parts.flatten.length))
      (f.send o.handle parts.flatten)
  | writeRejected {h : UInt32} {buf : UInt32 → UInt8} {n : UInt32} {writtenGiven : Bool}
      {overlapped : UInt32} (bad : overlapped ≠ 0 ∨ ¬ ValidHandle h) :
    Step iob full f (.writeFile h buf n writtenGiven overlapped, ⟨0, none, []⟩)
      { f with lastError := if overlapped ≠ 0 then 87 else 6 }
  | stdHandle {which : UInt32} :
    Step iob full f (.getStdHandle which, ⟨Kernel32.getStdHandle which, none, []⟩) f
  | getLastError : Step iob full f (.getLastError, ⟨f.lastError, none, []⟩) f
  | setLastError {code : UInt32} :
    Step iob full f (.setLastError code, ⟨0, none, []⟩) { f with lastError := code }

/-! ### Handles and descriptors -/

/-- The descriptor of a handle. -/
def fdOf (h : UInt32) : Int := int32 h.toNat - 1

/-- The file of a handle is that of its descriptor. -/
def byHandle (t : Descriptors) (h : UInt32) : Option Stream :=
  if ValidHandle h then t (fdOf h) else none

def ShimIo.view (s : ShimIo) : Files := ⟨byHandle s.fds, s.lastError⟩

theorem validHandle_iff {h : UInt32} : ValidHandle h ↔ ¬ fdOf h < 0 := by
  have hlt := h.toNat_lt
  unfold ValidHandle fdOf int32
  rw [UInt32.lt_iff_toNat_lt, UInt32.lt_iff_toNat_lt]
  show 0 < h.toNat ∧ h.toNat < 2 ^ 31 ↔ _
  omega

theorem fdOf_inj {h h' : UInt32} (heq : fdOf h = fdOf h') : h = h' := by
  have hlt := h.toNat_lt
  have hlt' := h'.toNat_lt
  unfold fdOf int32 at heq
  exact UInt32.toNat_inj.mp (by omega)

theorem fdOf_handle {fd : Int} (h₁ : 0 ≤ fd) (h₂ : fd < 2 ^ 31 - 1) :
    fdOf (UInt32.ofInt (fd + 1)) = fd := by
  rw [fdOf, ofInt_of_nonneg (by omega),
    UInt32.toNat_ofNat_of_lt' (show (fd + 1).toNat < 2 ^ 32 by omega), int32_of_nat_lt (by omega)]
  omega

section
variable {t : Descriptors} {h : UInt32}

theorem byHandle_valid (hh : ValidHandle h) : byHandle t h = t (fdOf h) := if_pos hh

theorem byHandle_not_valid (hh : ¬ ValidHandle h) : byHandle t h = none := if_neg hh

/-- A table that is changed at the descriptor of a handle. -/
theorem byHandle_update (hh : ValidHandle h) (v : Option Stream) :
    byHandle (Function.update t (fdOf h) v) = Function.update (byHandle t) h v := by
  funext h'
  by_cases heq : h' = h
  · subst heq
    rw [byHandle_valid hh, Function.update_self, Function.update_self]
  · rw [byHandle, Function.update_of_ne (mt fdOf_inj heq), Function.update_of_ne heq, byHandle]

theorem stdHandle_iff : StdHandle h ↔ fdOf h = 0 ∨ fdOf h = 1 ∨ fdOf h = 2 := by
  have hlt := h.toNat_lt
  unfold StdHandle fdOf int32
  simp only [← UInt32.toNat_inj]
  show h.toNat = 1 ∨ h.toNat = 2 ∨ h.toNat = 3 ↔ _
  omega

end

theorem valid_streamHandle (iob stream : UInt32) : ValidHandle (streamHandle iob stream) ∧
    fdOf (streamHandle iob stream) = shimIobToFd iob stream := by
  have hfd : shimIobToFd iob stream = 0 ∨ shimIobToFd iob stream = 1 ∨ shimIobToFd iob stream = 2 := by
    simp only [shimIobToFd]
    split_ifs <;> simp
  have heq : fdOf (streamHandle iob stream) = shimIobToFd iob stream :=
    fdOf_handle (by omega) (by omega)
  refine ⟨validHandle_iff.mpr ?_, heq⟩
  omega

/-! ### `CreateFileA`, `CloseHandle`, `ReadFile` -/

/-- The flags say what the access and the disposition ask for. -/
theorem ofFlags_posixFlags (access disposition : UInt32) :
    OpenMode.ofFlags (posixFlags access disposition) = genericMode access disposition := by
  simp only [posixFlags, genericMode]
  by_cases hw : access &&& 0x40000000 = 0 <;> by_cases hr : access &&& 0x80000000 = 0 <;>
    simp only [hw, hr, ne_eq, not_true_eq_false, not_false_eq_true, if_true, if_false] <;>
    split_ifs <;> simp_all [OpenMode.ofFlags] <;> decide

section
variable {iob : UInt32} {full : Prop} {a : Answers} {s : ShimIo}

theorem createFileA_step (ha : a.Lawful full s.fds) (path : CStr) (access disposition : UInt32) :
    let e := Kernel32.createFileA a path access disposition s.lastError
    s.view.Step iob full (.createFileA path access disposition, e.reply)
      (ShimIo.view ⟨s.fds.afterAll e.events, e.lastError⟩) := by
  by_cases hneg : a.opens < 0
  · simp only [Kernel32.createFileA, if_pos hneg]
    exact .notCreated
  · obtain ⟨hnew, hlt⟩ := ha.opens_new (Int.not_lt.mp hneg)
    have hfd := fdOf_handle (Int.not_lt.mp hneg) hlt
    have hvalid : ValidHandle (UInt32.ofInt (a.opens + 1)) := by rwa [validHandle_iff, hfd]
    have hview := fun v => byHandle_update (t := s.fds) hvalid v
    rw [hfd] at hview
    simp only [Kernel32.createFileA, if_neg hneg, Descriptors.afterAll_singleton, Descriptors.after,
      ofFlags_posixFlags, ShimIo.view, hview]
    refine .created hvalid ?_
    show byHandle s.fds _ = none
    rw [byHandle_valid hvalid, hfd, hnew]

theorem closeHandle_step (h : UInt32) :
    let e := Kernel32.closeHandle h s.lastError
    s.view.Step iob full (.closeHandle h, e.reply)
      (ShimIo.view ⟨s.fds.afterAll e.events, e.lastError⟩) := by
  simp only [Kernel32.closeHandle]
  rw [← fdOf]
  by_cases hstd : StdHandle h
  · rw [if_pos (stdHandle_iff.mp hstd)]
    exact .notClosed hstd
  · rw [if_neg (mt stdHandle_iff.mpr hstd)]
    have hclosed := @Files.Step.closed iob full s.view h hstd
    have hnot := mt stdHandle_iff.mpr hstd
    by_cases hvalid : ValidHandle h
    · have hgt : 2 < fdOf h := by
        have hge := validHandle_iff.mp hvalid
        omega
      simp only [if_pos hgt, Descriptors.afterAll_singleton, Descriptors.after, ShimIo.view,
        byHandle_update hvalid]
      exact hclosed
    · -- nothing is open behind such a handle
      have hgt : ¬ 2 < fdOf h := by
        have hneg := mt validHandle_iff.mpr hvalid
        omega
      have hsame : Function.update s.view.stream h none = s.view.stream :=
        Function.update_eq_self_iff.mpr (byHandle_not_valid hvalid).symm
      rw [hsame] at hclosed
      rw [if_neg hgt]
      exact hclosed

theorem readFile_step (ha : a.Lawful full s.fds) (h n : UInt32) (nreadGiven : Bool)
    (overlapped : UInt32) :
    let e := Kernel32.readFile a h n nreadGiven overlapped s.lastError
    s.view.Step iob full (.readFile h n nreadGiven overlapped, e.reply)
      (ShimIo.view ⟨s.fds.afterAll e.events, e.lastError⟩) := by
  simp only [Kernel32.readFile]
  rw [← fdOf]
  by_cases hov : overlapped = 0
  · subst hov
    rw [if_neg (not_not.mpr rfl)]
    by_cases hvalid : ValidHandle h
    · rw [if_neg (validHandle_iff.mp hvalid)]
      cases hin : a.input (fdOf h) n with
      | none => exact .notRead hvalid
      | some bytes =>
        obtain ⟨hopen, hsize⟩ := ha.input_open _ _ _ hin
        rw [show s.fds (fdOf h) = s.view.stream h from (byHandle_valid hvalid).symm] at hopen
        have hstep := @Files.Step.read iob full s.view h n nreadGiven bytes hvalid hopen hsize
        have hview : s.fds (fdOf h) = byHandle s.fds h := (byHandle_valid hvalid).symm
        simp only [Descriptors.afterAll_singleton, Descriptors.after, Descriptors.receive, ShimIo.view,
          byHandle_update hvalid, hview]
        exact hstep
    · rw [if_pos (not_not.mp (mt validHandle_iff.mpr hvalid))]
      exact .readRejected (.inr hvalid)
  · rw [if_pos hov]
    have hstep := @Files.Step.readRejected iob full s.view h n nreadGiven overlapped (.inl hov)
    rw [if_pos hov] at hstep
    exact hstep

/-! ### Calls that put out text -/

/-- The calls of `write` by which `parts` of the pieces went to the descriptor. -/
structure PutOut (full : Prop) (t : Descriptors) (fd : Int) (pieces parts : List (List UInt8))
    (calls : List Taken) : Prop where
  on_fd : ∀ c ∈ calls, c.fd = fd
  sent : sent calls = parts.flatten
  parts_le : List.Forall₂ (· <+: ·) parts pieces
  closed : t fd = none → parts.flatten = []
  all : full → t fd ≠ none → parts = pieces

namespace PutOut
variable {t : Descriptors} {fd : Int} {pieces pieces' parts parts' : List (List UInt8)}
  {calls calls' : List Taken}

theorem nil : PutOut full t fd [] [] [] where
  on_fd _ hc := absurd hc List.not_mem_nil
  sent := rfl
  parts_le := .nil
  closed _ := rfl
  all _ _ := rfl

theorem append (h : PutOut full t fd pieces parts calls) (h' : PutOut full t fd pieces' parts' calls') :
    PutOut full t fd (pieces ++ pieces') (parts ++ parts') (calls ++ calls') where
  on_fd := List.forall_mem_append.mpr ⟨h.on_fd, h'.on_fd⟩
  sent := by
    have hsent := congrArg₂ (· ++ ·) h.sent h'.sent
    simpa [CSem.sent] using hsent
  parts_le := List.rel_append h.parts_le h'.parts_le
  closed hc := by rw [List.flatten_append, h.closed hc, h'.closed hc, List.append_nil]
  all hf ho := by rw [h.all hf ho, h'.all hf ho]

/-- One loop puts out one piece. -/
theorem of_writeAll {ε : Type} {fuel i : Nat} {buf : UInt32 → UInt8} {n : UInt32} {w : WriteState}
    {piece : List UInt8} (ha : a.Lawful full t) (hpiece : bytesFrom buf 0 n.toNat = piece)
    (h : (writeAll (a.writes fd i) fuel fd buf n : Res ε WriteState) = .ok w) :
    ∃ part, part.length = w.done.toNat ∧ PutOut full t fd [piece] [part] w.calls := by
  subst hpiece
  obtain ⟨hle, hfd, hsent, hall⟩ := writeAll_spec h
  obtain ⟨k, hk⟩ := Nat.exists_eq_add_of_le (UInt32.le_iff_toNat_le.mp hle)
  refine ⟨bytesFrom buf 0 w.done.toNat, length_bytesFrom .., hfd, by simpa using hsent, ?_, ?_, ?_⟩
  · rw [hk, bytesFrom_add]
    exact .cons (List.prefix_append ..) .nil
  · intro hclosed
    rw [writeAll_of_refused (ha.writes_open fd i · · hclosed) h]
    rfl
  · intro hfull hopen
    rw [hall.mpr (ha.writes_full hfull fd i n hopen)]

theorem step {c : IoCall} {o : Output} (ho : c.output iob = some o)
    (hvalid : ValidHandle o.handle)
    (h : PutOut full s.fds (fdOf o.handle) o.pieces parts calls) :
    s.view.Step iob full (c, c.outputReply (UInt32.ofNat parts.flatten.length))
      (ShimIo.view ⟨s.fds.afterAll (calls.map .took), s.lastError⟩) := by
  have hview : s.view.stream o.handle = s.fds (fdOf o.handle) := byHandle_valid hvalid
  have hstep := @Files.Step.put iob full s.view c o parts ho h.parts_le (hview ▸ h.closed)
    (hview ▸ h.all)
  rw [Descriptors.afterAll_took h.on_fd, h.sent, Descriptors.send, ← hview]
  simp only [ShimIo.view, byHandle_update hvalid]
  exact hstep

end PutOut

/-- `vfprintf` writes the text, cut at what fits its buffer. -/
theorem vfprintf_eq (iob : UInt32) (w : WriteCalls) (fuel : Nat) (stream : UInt32) {fmt : CStr} {va : VaList}
    (stack : Nat → UInt8) (hlen : (rendering fmt va).length < 2 ^ 31) :
    ∃ buf n, bytesFrom buf 0 n.toNat = (rendering fmt va).take 1023 ∧ n.toNat ≤ 1023 ∧
      Msvcrt.vfprintf w fuel iob stream fmt va stack =
        (writeAll w fuel (shimIobToFd iob stream) buf n : Res Empty WriteState) >>= fun s =>
          .ok (int32 s.done.toNat, s.calls) := by
  obtain ⟨buf, hrun, hhas⟩ := shimVformat_spec fmt va
    (show (⟨1024, stack⟩ : Buffer).size = UInt32.toNat 1024 from rfl)
  have htext := (Buffer.has_append.mp (hhas (by omega) (by decide))).1
  rw [show UInt32.toNat 1024 - 1 = 1023 from rfl] at htext
  have hint := int32_of_nat_lt hlen
  generalize hn₀ : (if int32 (rendering fmt va).length < 0 then 0
    else UInt32.ofInt (int32 (rendering fmt va).length)) = n₀
  have hn := clamp_toNat _ n₀ hn₀.symm (by omega)
  generalize hn₁ : (if 1024 - 1 < n₀ then 1024 - 1 else n₀) = n at hn
  refine ⟨fun i => buf.byte i.toNat, n, ?_, by omega, ?_⟩
  · have hsize : n.toNat = ((rendering fmt va).take 1023).length := by
      rw [List.length_take]
      omega
    rw [hsize]
    exact bytesFrom_has htext (by rw [← hsize]; exact n.toNat_lt)
  · simp only [Msvcrt.vfprintf, hrun, Res.ok_bind, hn₀, hn₁]

theorem bytesFrom_getD {l : List UInt8} (hl : l.length < 2 ^ 32) :
    bytesFrom (fun i => l.getD i.toNat 0) 0 l.length = l := by
  refine List.ext_getElem (length_bytesFrom ..) fun k _ hk => ?_
  have hof : (UInt32.ofNat k).toNat = k := UInt32.toNat_ofNat_of_lt' (Nat.lt_trans hk hl)
  simp only [bytesFrom, List.getElem_map, List.getElem_range, UInt32.zero_add, hof]
  exact List.getD_eq_getElem l 0 hk

/-- `write_str` writes the string. -/
theorem writeStr_eq (w : WriteCalls) (fuel : Nat) {str : Option CStr}
    (hlen : (str.getD nullText).bytes.length < 2 ^ 32) :
    ∃ buf n, bytesFrom buf 0 n.toNat = (str.getD nullText).bytes ∧ writeStr w fuel str =
      (writeAll w fuel 1 buf n : Res Empty WriteState) >>= fun e => .ok e.calls := by
  have hulen : ulen (some (str.getD nullText)) = .ok (UInt32.ofNat (str.getD nullText).bytes.length) :=
    localStrlen_eq _
  refine ⟨fun i => (str.getD nullText).bytes.getD i.toNat 0,
    UInt32.ofNat (str.getD nullText).bytes.length, ?_, ?_⟩
  · rw [UInt32.toNat_ofNat_of_lt' hlen, bytesFrom_getD hlen]
  · rw [writeStr, hulen]
    rfl

theorem writeStrs_put {fuel : Nat} (hfuel : 2 ^ 32 ≤ fuel) (ha : a.Lawful full s.fds) (k : Nat)
    {strs : List (Option CStr)} (hstrs : ∀ str ∈ strs, (str.getD nullText).bytes.length < 2 ^ 32) :
    ∃ calls parts, writeStrs (a.writes 1) fuel k strs = .ok calls ∧
      PutOut full s.fds 1 (strs.map fun str => (str.getD nullText).bytes) parts calls := by
  induction strs generalizing k with
  | nil => exact ⟨[], [], rfl, .nil⟩
  | cons str strs ih =>
    rw [List.forall_mem_cons] at hstrs
    obtain ⟨calls, parts, hrest, hput⟩ := ih (k + 1) hstrs.2
    obtain ⟨buf, n, hpiece, hwrite⟩ := writeStr_eq (a.writes 1 k) fuel hstrs.1
    obtain ⟨e, he⟩ : ∃ e, (writeAll (a.writes 1 k) fuel 1 buf n : Res Empty WriteState) = .ok e :=
      exists_writeAll (Nat.lt_of_lt_of_le n.toNat_lt hfuel)
    obtain ⟨part, -, hfirst⟩ := PutOut.of_writeAll ha hpiece he
    refine ⟨e.calls ++ calls, [part] ++ parts, ?_, hfirst.append hput⟩
    rw [writeStrs, hwrite, he, Res.ok_bind, Res.ok_bind, hrest, Res.ok_bind]

/-! ### The refinement -/

variable {fuel : Nat}

/-- A call that puts its text out in one loop. -/
theorem run_put {c : IoCall} {h : UInt32} {piece : List UInt8} {buf : UInt32 → UInt8} {n : UInt32}
    (hfuel : 2 ^ 32 ≤ fuel) (ha : a.Lawful full s.fds) (hvalid : ValidHandle h)
    (ho : c.output iob = some ⟨h, [piece]⟩) (hpiece : bytesFrom buf 0 n.toNat = piece)
    (hrun : ∀ w : WriteState,
      (writeAll (a.writes (fdOf h) 0) fuel (fdOf h) buf n : Res Empty WriteState) = .ok w →
        c.run iob fuel a s.lastError =
          .ok ⟨(c.outputReply w.done).ret, (c.outputReply w.done).stored, (c.outputReply w.done).data,
            s.lastError, w.calls.map .took⟩) :
    ∃ e, c.run iob fuel a s.lastError = .ok e ∧
      s.view.Step iob full (c, e.reply) (ShimIo.view ⟨s.fds.afterAll e.events, e.lastError⟩) := by
  obtain ⟨w, hw⟩ : ∃ w, (writeAll (a.writes (fdOf h) 0) fuel (fdOf h) buf n :
      Res Empty WriteState) = .ok w := exists_writeAll (Nat.lt_of_lt_of_le n.toNat_lt hfuel)
  obtain ⟨part, hpart, hput⟩ := PutOut.of_writeAll ha hpiece hw
  have hstep := PutOut.step ho hvalid hput
  have hdone : UInt32.ofNat [part].flatten.length = w.done := by
    rw [List.flatten_singleton, hpart, UInt32.ofNat_toNat]
  rw [hdone] at hstep
  exact ⟨_, hrun w hw, hstep⟩

theorem writeFile_run (hfuel : 2 ^ 32 ≤ fuel) (ha : a.Lawful full s.fds) (h : UInt32)
    (buf : UInt32 → UInt8) (n : UInt32) (writtenGiven : Bool) (overlapped : UInt32) :
    ∃ e, (IoCall.writeFile h buf n writtenGiven overlapped).run iob fuel a s.lastError = .ok e ∧
      s.view.Step iob full (.writeFile h buf n writtenGiven overlapped, e.reply)
        (ShimIo.view ⟨s.fds.afterAll e.events, e.lastError⟩) := by
  have hrejected := @Files.Step.writeRejected iob full s.view h buf n writtenGiven overlapped
  by_cases hov : overlapped = 0
  · subst hov
    by_cases hvalid : ValidHandle h
    · refine run_put hfuel ha hvalid (if_pos ⟨rfl, hvalid⟩) rfl fun w hw => ?_
      have hfd := validHandle_iff.mp hvalid
      rw [fdOf] at hw hfd
      simp only [IoCall.run, Kernel32.writeFile, if_neg hfd, hw, Res.ok_bind]
      rfl
    · have hfd := not_not.mp (mt validHandle_iff.mpr hvalid)
      rw [fdOf] at hfd
      refine ⟨⟨0, none, [], 6, []⟩, ?_, hrejected (.inr hvalid)⟩
      simp only [IoCall.run, Kernel32.writeFile, if_pos hfd]
      rfl
  · rw [if_pos hov] at hrejected
    refine ⟨⟨0, none, [], 87, []⟩, ?_, hrejected (.inl hov)⟩
    simp only [IoCall.run, Kernel32.writeFile, if_pos hov]
    rfl

/-- Every call returns, and what it did is a step on files. -/
theorem IoCall.run_spec (hfuel : 2 ^ 32 ≤ fuel) {c : IoCall} (hc : c.Defined)
    (ha : a.Lawful full s.fds) : ∃ e, c.run iob fuel a s.lastError = .ok e ∧
      s.view.Step iob full (c, e.reply) (ShimIo.view ⟨s.fds.afterAll e.events, e.lastError⟩) := by
  cases c with
  | createFileA path access disposition =>
    exact ⟨_, rfl, createFileA_step ha path access disposition⟩
  | closeHandle h => exact ⟨_, rfl, closeHandle_step h⟩
  | readFile h n nreadGiven overlapped => exact ⟨_, rfl, readFile_step ha h n nreadGiven overlapped⟩
  | writeFile h buf n writtenGiven overlapped =>
    exact writeFile_run hfuel ha h buf n writtenGiven overlapped
  | getStdHandle which =>
    refine ⟨⟨Kernel32.getStdHandle which, none, [], s.lastError, []⟩, rfl, ?_⟩
    simp only [IoEnd.reply]
    exact .stdHandle
  | getLastError => exact ⟨_, rfl, .getLastError⟩
  | setLastError code => exact ⟨_, rfl, .setLastError⟩
  | vfprintf stream fmt va stack =>
    obtain ⟨hvalid, hfd⟩ := valid_streamHandle iob stream
    obtain ⟨buf, n, hpiece, hmax, hrun⟩ :=
      vfprintf_eq iob (a.writes (shimIobToFd iob stream) 0) fuel stream stack hc
    refine run_put hfuel ha hvalid rfl hpiece fun w hw => ?_
    rw [hfd] at hw
    obtain ⟨hle, -⟩ := writeAll_spec hw
    have hle' := UInt32.le_iff_toNat_le.mp hle
    have hret : UInt32.ofInt (int32 w.done.toNat) = w.done := by
      rw [int32_of_nat_lt (by omega), ofInt_of_nonneg (by omega), Int.toNat_natCast,
        UInt32.ofNat_toNat]
    simp only [IoCall.run, hrun, hw, Res.ok_bind, hret]
    rfl
  | fwrite ptr size nmemb stream =>
    obtain ⟨hvalid, hfd⟩ := valid_streamHandle iob stream
    refine run_put hfuel ha hvalid rfl rfl fun w hw => ?_
    rw [hfd] at hw
    rw [IoCall.run, Msvcrt.fwrite, hw, Res.ok_bind, Res.ok_bind]
    rfl
  | messageBoxA text caption =>
    have hstrs : ∀ str ∈ messageBoxTexts text caption, (str.getD nullText).bytes.length < 2 ^ 32 := by
      have hgiven : ∀ str ∈ [text, caption], (str.getD nullText).bytes.length < 2 ^ 32 := by
        intro str hstr
        cases str with
        | none => exact (by decide : nullText.bytes.length < 2 ^ 32)
        | some str => exact hc str hstr
      simp only [messageBoxTexts, List.forall_mem_cons, Option.getD_some] at hgiven ⊢
      exact ⟨by decide, hgiven.2.1, by decide, hgiven.1, by decide,
        fun _ h => absurd h List.not_mem_nil⟩
    obtain ⟨calls, parts, hrun, hput⟩ := writeStrs_put hfuel ha 0 hstrs
    have hvalid : ValidHandle 2 := by decide
    have hfd : fdOf 2 = 1 := by decide
    rw [← hfd] at hput
    refine ⟨⟨1, none, [], s.lastError, calls.map .took⟩, ?_, ?_⟩
    · rw [IoCall.run, User32.messageBoxA, hrun, Res.ok_bind, Res.ok_bind]
    · exact PutOut.step (c := .messageBoxA text caption) rfl hvalid hput

theorem ShimIo.Step.view {l : IoCall × Reply} {s' : ShimIo} (hfuel : 2 ^ 32 ≤ fuel)
    (h : s.Step iob fuel full l s') : s.view.Step iob full l s'.view := by
  obtain ⟨c, r⟩ := l
  obtain ⟨hc, a, e, ha, hrun, rfl, rfl⟩ := h
  obtain ⟨e', hrun', hstep⟩ := IoCall.run_spec hfuel hc ha
  cases hrun.symm.trans hrun'
  exact hstep

theorem ShimIo.exists_step (hfuel : 2 ^ 32 ≤ fuel) {c : IoCall} (hc : c.Defined)
    (ha : a.Lawful full s.fds) : ∃ r s', s.Step iob fuel full (c, r) s' := by
  obtain ⟨e, hrun, -⟩ := @IoCall.run_spec iob full a s fuel hfuel c hc ha
  exact ⟨_, _, hc, a, e, ha, hrun, rfl, rfl⟩

/-- Whatever calls are made in whatever order and whatever the kernel answers, the calls and their replies
are a run on files by handle, and every further call returns. -/
theorem io_refines_files {ls : List (IoCall × Reply)} {s' : ShimIo} (hfuel : 2 ^ 32 ≤ fuel)
    (h : Runs (ShimIo.Step iob fuel full) s ls s') :
    Runs (Files.Step iob full) s.view ls s'.view ∧ ∀ (c : IoCall) (a : Answers),
      c.Defined → a.Lawful full s'.fds → ∃ r s'', s'.Step iob fuel full (c, r) s'' :=
  ⟨h.map ShimIo.view fun _ _ _ hstep => hstep.view hfuel, fun _ _ hc ha =>
    ShimIo.exists_step hfuel hc ha⟩

/-! ### What is open and what went through it -/

/-- The files behind a call, read off the call and its reply when all text gets out. -/
def Files.after (iob : UInt32) (f : Files) (l : IoCall × Reply) : Files :=
  match l.1 with
  | .createFileA path access disposition =>
    if ValidHandle l.2.ret then
      { f with stream :=
          Function.update f.stream l.2.ret (some (.opened path (genericMode access disposition))) }
    else { f with lastError := 2 }
  | .closeHandle h =>
    if StdHandle h then f else { f with stream := Function.update f.stream h none }
  | .readFile h _ _ overlapped =>
    if overlapped ≠ 0 then { f with lastError := 87 }
    else if ValidHandle h then f.receive h l.2.data
    else { f with lastError := 6 }
  | .setLastError code => { f with lastError := code }
  | .writeFile h buf n _ overlapped =>
    if overlapped ≠ 0 then { f with lastError := 87 }
    else if ValidHandle h then f.send h (bytesFrom buf 0 n.toNat)
    else { f with lastError := 6 }
  | c =>
    match c.output iob with
    | some o => f.send o.handle o.pieces.flatten
    | none => f

theorem Files.after_output {c : IoCall} {o : Output} (f : Files) (ho : c.output iob = some o) (r : Reply) :
    f.after iob (c, r) = f.send o.handle o.pieces.flatten := by
  cases c with
  | writeFile h buf n writtenGiven overlapped =>
    simp only [IoCall.output] at ho
    split_ifs at ho with hput
    cases ho
    simp [Files.after, hput.1, hput.2]
  | vfprintf stream fmt va stack => cases ho; rfl
  | fwrite ptr size nmemb stream => cases ho; rfl
  | messageBoxA text caption => cases ho; rfl
  | _ => cases ho

theorem after_rejected {overlapped h : UInt32} {f : Files}
    (bad : overlapped ≠ 0 ∨ ¬ ValidHandle h) {g : Files} :
    (if overlapped ≠ 0 then { f with lastError := 87 } else if ValidHandle h then g
      else { f with lastError := 6 }) = { f with lastError := if overlapped ≠ 0 then 87 else 6 } := by
  by_cases hov : overlapped = 0
  · simp [hov, bad.resolve_left (not_not.mpr hov)]
  · simp [hov]

theorem Files.Step.after_eq {f f' : Files} {l : IoCall × Reply} (hfull : full)
    (h : f.Step iob full l f') : f' = f.after iob l := by
  cases h with
  | created valid unused => exact (if_pos valid).symm
  | notCreated => rfl
  | closed std => exact (if_neg std).symm
  | notClosed std => exact (if_pos std).symm
  | read valid isOpen size => exact (if_pos valid).symm
  | notRead valid => exact (f.receive_nil _).symm.trans (if_pos valid).symm
  | @readRejected h n nreadGiven overlapped bad => exact (after_rejected bad).symm
  | @put c o parts output parts_le closed all =>
    rw [f.after_output output]
    by_cases hclosed : f.stream o.handle = none
    · rw [Files.send_closed hclosed, Files.send_closed hclosed]
    · rw [all hfull hclosed]
  | @writeRejected h buf n writtenGiven overlapped bad => exact (after_rejected bad).symm
  | stdHandle => rfl
  | getLastError => rfl
  | setLastError => rfl

theorem Files.Step.std_open {f f' : Files} {l : IoCall × Reply} {h : UInt32} (hstd : StdHandle h)
    (hopen : f.stream h ≠ none) (hstep : f.Step iob full l f') : f'.stream h ≠ none := by
  have hupdate : ∀ h' v, (h' = h → v ≠ none) → Function.update f.stream h' v h ≠ none := by
    intro h' v hv
    by_cases heq : h' = h
    · subst heq
      rw [Function.update_self]
      exact hv rfl
    · rw [Function.update_of_ne (Ne.symm heq)]
      exact hopen
  cases hstep with
  | created valid unused => exact hupdate _ _ fun _ => Option.some_ne_none _
  | closed std => exact hupdate _ _ fun heq => absurd (heq ▸ hstd) std
  | read valid isOpen size => exact hupdate _ _ fun _ => by simpa using isOpen
  | put output parts_le closed all =>
    exact hupdate _ _ fun heq => by simpa [heq] using hopen
  | _ => exact hopen

/-- With a kernel that never refuses, the open files are what the calls and their replies say: the same
paths, modes and bytes, sent in the order of the calls; and a standard handle that was open still is. -/
theorem files_read_off {ls : List (IoCall × Reply)} {s' : ShimIo} (hfuel : 2 ^ 32 ≤ fuel)
    (h : Runs (ShimIo.Step iob fuel True) s ls s') :
    s'.view = ls.foldl (Files.after iob) s.view ∧
      ∀ h, StdHandle h → s.view.stream h ≠ none → s'.view.stream h ≠ none := by
  have hrun : Runs (Files.Step iob True) s.view ls s'.view :=
    h.map ShimIo.view fun _ _ _ hstep => hstep.view hfuel
  refine ⟨?_, fun h hstd hopen => ?_⟩
  · refine hrun.traced (I := fun ls f => f = ls.foldl (Files.after iob) s.view) rfl ?_
    intro ls l f f' hf hstep
    rw [List.foldl_concat, ← hf]
    exact hstep.after_eq trivial
  · refine hrun.invariant (I := fun f => f.stream h ≠ none) hopen ?_
    intro l f f' hf hstep
    exact hstep.std_open hstd hf

end

/-! ### A run -/

/-- A kernel that takes three bytes at a time. -/
def threeAtATime (t : Descriptors) (opens : Int) : Answers where
  opens := opens
  input fd _ := if (t fd).isNone then none else some []
  writes fd _ := if (t fd).isNone then noSpace else threes

theorem threeAtATime_lawful {t : Descriptors} {opens : Int}
    (hopens : 0 ≤ opens → t opens = none ∧ opens < 2 ^ 31 - 1) :
    (threeAtATime t opens).Lawful True t where
  opens_new := hopens
  input_open fd n bytes hin := by
    simp only [threeAtATime] at hin
    split_ifs at hin with hnone
    cases hin
    exact ⟨fun h => hnone (by rw [h]; rfl), Nat.zero_le _⟩
  writes_open fd i k n hnone := by
    simp only [threeAtATime, hnone, Option.isNone_none, if_true]
    exact Int.le_trans (min_le_left ..) (show (-28 : Int) ≤ 0 by decide)
  writes_full _ fd i n hopen := by
    simp only [threeAtATime, Option.isNone_iff_eq_none, if_neg hopen]
    exact threes_writesSome.takesAll n

theorem cBytes_tty_no_nul : (0 : UInt8) ∉ cBytes "/dev/tty" := by decide

def terminal : Stream := .opened ⟨cBytes "/dev/tty", cBytes_tty_no_nul⟩ (.ofFlags 2)

/-- Standard input, output and error are open. -/
def ShimIo.start : ShimIo where
  fds fd := if fd = 0 ∨ fd = 1 ∨ fd = 2 then some terminal else none
  lastError := 0

def pathA : CStr := ⟨cBytes "a", by decide⟩

def createA : IoCall := .createFileA pathA 0x40000000 2

def writeA : IoCall := .writeFile 4 (fun i => i.toUInt8) 5 true 0

def boxA : IoCall := .messageBoxA none (some pathA)

theorem createA_runs : ∃ r₁ r₂ s', Runs (ShimIo.Step 0x5000 (2 ^ 32) True) .start
    [(createA, ⟨4, none, []⟩), (writeA, r₁), (boxA, r₂)] s' := by
  have hnew : ShimIo.start.fds 3 = none := by decide
  obtain ⟨s₁, hcreate⟩ : ∃ s₁, ShimIo.start.Step 0x5000 (2 ^ 32) True (createA, ⟨4, none, []⟩) s₁ :=
    ⟨_, trivial, threeAtATime _ 3, _, threeAtATime_lawful fun _ => ⟨hnew, by decide⟩, rfl, rfl, rfl⟩
  have hnone : ∀ t : Descriptors, (0 : Int) ≤ -1 → t (-1) = none ∧ (-1 : Int) < 2 ^ 31 - 1 :=
    fun _ h => absurd h (by decide)
  obtain ⟨r₁, s₂, hwrite⟩ : ∃ r s₂, s₁.Step 0x5000 (2 ^ 32) True (writeA, r) s₂ :=
    ShimIo.exists_step (Nat.le_refl _) (show (4 : UInt32) ≠ 0x80000000 by decide)
      (threeAtATime_lawful (hnone s₁.fds))
  obtain ⟨r₂, s₃, hbox⟩ : ∃ r s₃, s₂.Step 0x5000 (2 ^ 32) True (boxA, r) s₃ :=
    ShimIo.exists_step (Nat.le_refl _) (by simp [boxA, IoCall.Defined, pathA, cBytes])
      (threeAtATime_lawful (hnone s₂.fds))
  exact ⟨r₁, r₂, s₃, ((Runs.nil.snoc hcreate).snoc hwrite).snoc hbox⟩

theorem io_refines_files_createA : ∃ r₁ r₂ s', Runs (Files.Step 0x5000 True) ShimIo.start.view
    [(createA, ⟨4, none, []⟩), (writeA, r₁), (boxA, r₂)] (ShimIo.view s') := by
  obtain ⟨r₁, r₂, s', hrun⟩ := createA_runs
  exact ⟨r₁, r₂, s', (io_refines_files (Nat.le_refl _) hrun).1⟩

/-- The file has the five bytes, and standard output the box. -/
theorem files_read_off_createA : ∃ r₁ r₂ s', Runs (ShimIo.Step 0x5000 (2 ^ 32) True) .start
    [(createA, ⟨4, none, []⟩), (writeA, r₁), (boxA, r₂)] s' ∧
      s'.view.stream 4 = some ⟨pathA, ⟨false, true, true, false, true⟩, [0, 1, 2, 3, 4], []⟩ ∧
        (s'.view.stream 2).map (·.sent) = some (cBytes "[MessageBoxA] a: (null)\n") := by
  obtain ⟨r₁, r₂, s', hrun⟩ := createA_runs
  have hview := (files_read_off (Nat.le_refl _) hrun).1
  refine ⟨r₁, r₂, s', hrun, ?_, ?_⟩
  · rw [hview]
    rfl
  · rw [hview]
    rfl

end Winlift

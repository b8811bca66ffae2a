import Winlift.CSem.Table
import Winlift.LoadSafe

/-!
# Which TLS directories are accepted, and what is recorded of them

The callback array is a terminated table of virtual addresses, and the parser keeps at most 16 of them.
`tlsStep_passes` is what a number of passes over it has recorded; `tls_recorded` follows from it and
from the fact that the passes over an accepted array are all made.
-/

namespace Winlift
open CSem

section
variable (img : PeImage)

/-- Entry `k` of the callback array at `arrRva`. -/
def callbackAt (arrRva : UInt32) (k : Nat) : Option UInt32 :=
  (peRvaToPtr img (arrRva + UInt32.ofNat k * 4) 4).map img.raw.le32

/-- The array at `arrRva` is `ts` up to its first zero entry. -/
structure CallbackArray (arrRva : UInt32) (ts : List UInt32) : Prop where
  table : Table (callbackAt img arrRva) (· = 0) ts
  short : ts.length ≤ peMaxTlsCallbacks
  above_base : ∀ t ∈ ts, img.imageBase ≤ t

/-- The directory is absent, or in the file, and then so is the array it points to, if it does. -/
def TlsAccepted (dirRva dirSize : UInt32) : Prop :=
  dirRva = 0 ∨ dirSize = 0 ∨ ∃ p, peRvaToPtr img dirRva 24 = some p ∧
    (peTlsAddressOfCallBacksAt img.raw p = 0 ∨
      img.imageBase ≤ peTlsAddressOfCallBacksAt img.raw p ∧
        ∃ ts, CallbackArray img (peTlsAddressOfCallBacksAt img.raw p - img.imageBase) ts)

/-- The addresses `ts` are recorded as RVAs, in exact integers. -/
def CallbacksRecorded (ts rvas : List UInt32) : Prop :=
  Pointwise (fun _ t rva => rva.toNat + img.imageBase.toNat = t.toNat) ts rvas

/-- What is recorded of a directory. -/
def TlsRecorded (dirRva dirSize : UInt32) (img' : PeImage) : Prop :=
  if dirRva = 0 ∨ dirSize = 0 then img' = { img with hasTls := false }
  else ∃ p, peRvaToPtr img dirRva 24 = some p ∧
    if peTlsAddressOfCallBacksAt img.raw p = 0 then
      img' = { img with hasTls := true, tlsHasCallbacks := false }
    else
      ∃ ts rvas, CallbackArray img (peTlsAddressOfCallBacksAt img.raw p - img.imageBase) ts ∧
        CallbacksRecorded img ts rvas ∧
          img' = { img with hasTls := true, tlsHasCallbacks := true, tlsCallbackRvas := rvas }

end

/-! ### The walk over the array -/

section
variable {img : PeImage} {arrRva : UInt32} {s s' : TlsState} {k : Nat}

theorem tlsStep_eq (hi : s.i = UInt32.ofNat k) : tlsStep img arrRva s =
    .orReject (callbackAt img arrRva k)
      (peErrorSet .malformed "malformed PE: TLS callback array out of range") >>= fun t =>
    if t = 0 then .ok (.done s.rvas)
    else
      (.rejectIf (t < img.imageBase)
          (peErrorSet .malformed "malformed PE: TLS callback VA below ImageBase") >>= fun _ =>
        .rejectIf (peMaxTlsCallbacks ≤ s.rvas.length)
          (peErrorSet .malformed "malformed PE: too many TLS callbacks") >>= fun _ =>
        .ok ⟨s.i + 1, s.rvas ++ [t - img.imageBase]⟩) >>= fun s' => .ok (.more s') := by
  rw [tlsStep, callbackAt, hi]
  cases hp : peRvaToPtr img (arrRva + UInt32.ofNat k * 4) 4 with
  | none => rfl
  | some p =>
    simp only [Res.orReject, Option.map_some, Res.ok_bind, readable_of_rva (n := 4) hp rfl, bind_assoc]

theorem tlsStep_eq_more (hi : s.i = UInt32.ofNat k) : tlsStep img arrRva s = .ok (.more s') ↔
    ∃ t, callbackAt img arrRva k = some t ∧ t ≠ 0 ∧ img.imageBase ≤ t ∧
      s.rvas.length < peMaxTlsCallbacks ∧ s' = ⟨s.i + 1, s.rvas ++ [t - img.imageBase]⟩ := by
  rw [tlsStep_eq hi, entry_eq_more]
  simp only [Res.bind_eq_ok, Res.rejectIf_eq_ok, exists_const, UInt32.not_lt, Nat.not_le, Res.ok.injEq,
    eq_comm (b := s'), ne_eq]

theorem tlsStep_eq_done {rvas : List UInt32} (hi : s.i = UInt32.ofNat k) :
    tlsStep img arrRva s = .ok (.done rvas) ↔ callbackAt img arrRva k = some 0 ∧ rvas = s.rvas := by
  rw [tlsStep_eq hi, entry_eq_done]
  simp

/-- What `k` passes have recorded. -/
theorem tlsStep_passes (hp : Passes (tlsStep img arrRva) k ⟨0, []⟩ s) :
    s.i = UInt32.ofNat k ∧ k ≤ peMaxTlsCallbacks ∧ ∃ ts, ts.length = k ∧
      Entries (callbackAt img arrRva) (· = 0) ts ∧ (∀ t ∈ ts, img.imageBase ≤ t) ∧
        CallbacksRecorded img ts s.rvas := by
  generalize hs₀ : (⟨0, []⟩ : TlsState) = s₀ at hp
  induction hp with
  | zero =>
    subst hs₀
    exact ⟨rfl, Nat.zero_le _, [], rfl, .nil, by simp, .nil⟩
  | snoc _ hmore ih =>
    obtain ⟨hi, -, ts, rfl, hts, hbase, hrvas⟩ := ih hs₀
    obtain ⟨t, ht, hne, hle, hroom, rfl⟩ := (tlsStep_eq_more hi).mp hmore
    have hrva : (t - img.imageBase).toNat + img.imageBase.toNat = t.toNat := by
      rw [toNat_sub_of_le (UInt32.le_iff_toNat_le.mp hle)]
      exact Nat.sub_add_cancel (UInt32.le_iff_toNat_le.mp hle)
    refine ⟨by simp [hi], ?_, ts ++ [t], by simp, hts.snoc ht hne, ?_, hrvas.snoc hrva⟩
    · rw [hrvas.length_eq]
      exact hroom
    · rw [List.forall_mem_append, List.forall_mem_singleton]
      exact ⟨hbase, hle⟩

/-- The passes over an accepted array are all made. -/
theorem exists_tlsStep_passes {ts : List UInt32} (h : CallbackArray img arrRva ts) (hk : k ≤ ts.length) :
    ∃ s, Passes (tlsStep img arrRva) k ⟨0, []⟩ s ∧ s.rvas.length = k := by
  induction k with
  | zero => exact ⟨_, .zero _, rfl⟩
  | succ k ih =>
    obtain ⟨s, hp, hlen⟩ := ih (Nat.le_of_succ_le hk)
    obtain ⟨ht, hne⟩ := h.table.entries k hk
    have hroom : s.rvas.length < peMaxTlsCallbacks := by
      rw [hlen]
      exact Nat.lt_of_lt_of_le hk h.short
    exact ⟨_, hp.snoc ((tlsStep_eq_more (tlsStep_passes hp).1).mpr
      ⟨_, ht, hne, h.above_base _ (List.getElem_mem hk), hroom, rfl⟩), by simp [hlen]⟩

theorem tlsLoop_eq_ok {fuel : Nat} {rvas : List UInt32}
    (h : loop (tlsStep img arrRva) fuel ⟨0, []⟩ = .ok rvas) :
    ∃ ts, CallbackArray img arrRva ts ∧ CallbacksRecorded img ts rvas := by
  obtain ⟨k, s, -, hp, hdone⟩ := loop_eq_ok.mp h
  obtain ⟨hi, hle, ts, rfl, hts, hbase, hrvas⟩ := tlsStep_passes hp
  obtain ⟨hstop, rfl⟩ := (tlsStep_eq_done hi).mp hdone
  exact ⟨ts, ⟨⟨hts, 0, hstop, rfl⟩, hle, hbase⟩, hrvas⟩

theorem exists_tlsLoop {fuel : Nat} {ts : List UInt32} (h : CallbackArray img arrRva ts)
    (hfuel : peMaxTlsCallbacks < fuel) : ∃ rvas, loop (tlsStep img arrRva) fuel ⟨0, []⟩ = .ok rvas := by
  obtain ⟨s, hp, -⟩ := exists_tlsStep_passes h (Nat.le_refl _)
  obtain ⟨e, hstop, rfl⟩ := h.table.stop
  exact ⟨s.rvas, loop_eq_ok.mpr ⟨_, s, Nat.lt_of_le_of_lt h.short hfuel, hp,
    (tlsStep_eq_done (tlsStep_passes hp).1).mpr ⟨hstop, rfl⟩⟩⟩

end

/-! ### The directory -/

section
variable {img img' : PeImage} {dirRva dirSize : UInt32} {fuel : Nat}

theorem peParseTlsDir_eq_ok (hnew : img.tlsCallbackRvas = [])
    (h : peParseTlsDir fuel img dirRva dirSize = .ok img') :
    TlsAccepted img dirRva dirSize ∧ TlsRecorded img dirRva dirSize img' := by
  unfold peParseTlsDir at h
  split_ifs at h with hdir
  · cases h
    exact ⟨hdir.imp_right .inl, by rw [TlsRecorded, if_pos hdir]⟩
  simp only [Res.bind_eq_ok, Res.orReject_eq_ok] at h
  obtain ⟨p, hp, _, hread, h⟩ := h
  rw [readable_of_rva (n := peTlsDirectory32Size) hp rfl] at hread
  cases hread
  split_ifs at h with hzero
  · cases h
    refine ⟨.inr (.inr ⟨p, hp, .inl hzero⟩), ?_⟩
    rw [TlsRecorded, if_neg hdir]
    exact ⟨p, hp, by rw [if_pos hzero]⟩
  · simp only [Res.bind_eq_ok, Res.rejectIf_eq_ok, UInt32.not_lt] at h
    obtain ⟨-, hle, rvas, hloop, h⟩ := h
    cases h
    rw [hnew] at hloop
    obtain ⟨ts, hts, hrvas⟩ := tlsLoop_eq_ok hloop
    refine ⟨.inr (.inr ⟨p, hp, .inr ⟨hle, ts, hts⟩⟩), ?_⟩
    rw [TlsRecorded, if_neg hdir]
    exact ⟨p, hp, by rw [if_neg hzero]; exact ⟨ts, rvas, hts, hrvas, rfl⟩⟩

theorem exists_peParseTlsDir (hnew : img.tlsCallbackRvas = []) (hfuel : peMaxTlsCallbacks < fuel)
    (h : TlsAccepted img dirRva dirSize) : ∃ img', peParseTlsDir fuel img dirRva dirSize = .ok img' := by
  unfold peParseTlsDir
  by_cases hdir : dirRva = 0 ∨ dirSize = 0
  · exact ⟨_, if_pos hdir⟩
  rw [if_neg hdir]
  rcases h with h | h | ⟨p, hp, h⟩
  · exact absurd (.inl h) hdir
  · exact absurd (.inr h) hdir
  simp only [hp, Res.orReject, Res.ok_bind, readable_of_rva (n := peTlsDirectory32Size) hp rfl]
  by_cases hzero : peTlsAddressOfCallBacksAt img.raw p = 0
  · exact ⟨_, if_pos hzero⟩
  · obtain ⟨hle, ts, hts⟩ := h.resolve_left hzero
    obtain ⟨rvas, hloop⟩ := exists_tlsLoop hts hfuel
    rw [if_neg hzero, Res.rejectIf_of_not _ (UInt32.not_lt.mpr hle), Res.ok_bind, hnew, hloop]
    exact ⟨_, rfl⟩

/-- The parser returns iff the directory is accepted, and records then what it points to; a pass that
stores a callback does so below `PE_MAX_TLS_CALLBACKS`. -/
theorem tls_recorded (hnew : img.tlsCallbackRvas = []) (hfuel : peMaxTlsCallbacks < fuel) :
    ((∃ img', peParseTlsDir fuel img dirRva dirSize = .ok img') ↔ TlsAccepted img dirRva dirSize) ∧
      (∀ img', peParseTlsDir fuel img dirRva dirSize = .ok img' → TlsRecorded img dirRva dirSize img') ∧
        ∀ arrRva k s s', Passes (tlsStep img arrRva) k ⟨0, img.tlsCallbackRvas⟩ s →
          tlsStep img arrRva s = .ok (.more s') → s.rvas.length < peMaxTlsCallbacks := by
  refine ⟨⟨?_, exists_peParseTlsDir hnew hfuel⟩, fun img' h => (peParseTlsDir_eq_ok hnew h).2, ?_⟩
  · rintro ⟨img', h⟩
    exact (peParseTlsDir_eq_ok hnew h).1
  · intro arrRva k s s' hp hmore
    rw [hnew] at hp
    obtain ⟨-, -, -, -, hroom, -⟩ := (tlsStep_eq_more (tlsStep_passes hp).1).mp hmore
    exact hroom

end

/-- The loader runs the parser on an image with no callbacks yet. -/
theorem peImageLoad_tls {alloc : Alloc} {fuel : Nat} {raw : Buffer} {img' : PeImage}
    (h : peImageLoad alloc fuel raw = .ok img') :
    ∃ (img : PeImage) (dirs : PeDirs), img.tlsCallbackRvas = [] ∧
      peParseTlsDir fuel img dirs.tls.virtualAddress dirs.tls.size = .ok img' := by
  obtain ⟨img₀, img₁, img, dirs, hhdr, himp, hrel, htls⟩ := peImageLoad_parts h
  obtain ⟨-, -, hnew, -⟩ := peReadHeaders_new hhdr
  refine ⟨img, dirs, ?_, htls⟩
  rw [peParseRelocsDir_eq hrel, (wp_peParseImportsDir (F := fun _ => True) alloc fuel _).of_ok himp]
  exact hnew

/-- A header page that holds a directory at 0x10 and, at 0x28, an array of two callbacks. -/
def twoCallbacks : PeImage where
  imageBase := 0x400000
  entryPointRva := 0
  sizeOfImage := 0x1000
  sizeOfHeaders := 0x34
  subsystem := peSubsystemWindowsCui
  sectionAlignment := 0x1000
  fileAlignment := 0x200
  sections := []
  imports := []
  importsCap := 0
  relocs := []
  hasTls := false
  tlsHasCallbacks := false
  tlsCallbackRvas := []
  raw := (⟨0x34, fun _ => 0⟩ : Buffer).patches [(0x1C, 0x400028), (0x28, 0x401000), (0x2C, 0x400000)]

theorem tls_recorded_twoCallbacks : ∃ img', peParseTlsDir 17 twoCallbacks 0x10 24 = .ok img' ∧
    img'.tlsCallbackRvas = [0x1000, 0] ∧ TlsAccepted twoCallbacks 0x10 24 ∧
      TlsRecorded twoCallbacks 0x10 24 img' := by
  have hrun : ((peParseTlsDir 17 twoCallbacks 0x10 24).okAnd fun img' =>
    img'.tlsCallbackRvas = [0x1000, 0]) = true := by decide
  obtain ⟨img', h, hrvas⟩ := Res.okAnd_iff.mp hrun
  have hdir : (∃ img', peParseTlsDir 17 twoCallbacks 0x10 24 = .ok img') ↔
      TlsAccepted twoCallbacks 0x10 24 := (tls_recorded rfl (by decide)).1
  exact ⟨img', h, of_decide_eq_true hrvas, hdir.mp ⟨img', h⟩,
    (tls_recorded rfl (by decide)).2.1 img' h⟩

end Winlift

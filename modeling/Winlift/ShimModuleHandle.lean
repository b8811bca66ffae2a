import Winlift.FileLayout

/-!
# `GetModuleHandleA` (`shim_kernel32.c`)

The shim is built once, with one address for the handle of the running program. Every program keeps
the `ImageBase` of its own file (`headerAt_iff`), so the handle is right for one value of that field.
-/

namespace Winlift
open CSem

/-- `shim_GetModuleHandleA`; `name` is a pointer. -/
def Kernel32.getModuleHandleA (name : UInt32) : UInt32 := if name = 0 then 0x00400000 else 0

/-- The field `ImageBase` of the optional header. -/
def imageBaseField (raw : Buffer) : UInt32 :=
  (peOptionalHeader32At raw ((peDosHeaderAt raw 0).eLfanew.toNat + 4 + peCoffHeaderSize)).imageBase

/-- The segment the layout puts in front maps the first `SizeOfHeaders` bytes of the file to `addr`. -/
def HeaderAt (r : StubPatched) (addr : UInt32) : Prop :=
  ∃ seg, r.spec.segments.head? = some seg ∧ seg.vaddr = addr ∧ seg.filesz = r.img.sizeOfHeaders ∧
    (0 < seg.filesz → seg.data = some ⟨.raw, 0⟩)

section
variable {alloc : Alloc} {fuel : Nat} {raw blob : Buffer} {grant : Nat → Bool} {img : PeImage}
  {spec : Spec} {r : StubPatched}

theorem peReadHeaders_imageBase {dirs : PeDirs} (h : peReadHeaders grant raw = .ok (img, dirs)) :
    img.imageBase = imageBaseField raw := by
  simp only [peReadHeaders, Res.bind_eq_ok] at h
  obtain ⟨_, -, _, hdos, _, -, _, -, _, -, _, -, _, -, _, -, _, -, _, -, _, -, _, -, _, hopt, _, -, _, -,
    _, -, _, -, h⟩ := h
  cases (readable_eq_ok.mp hdos).1
  cases (readable_eq_ok.mp hopt).1
  cases h
  rfl

theorem peImageLoad_imageBase (h : peImageLoad alloc fuel raw = .ok img) :
    img.imageBase = imageBaseField raw := by
  obtain ⟨img₀, dirs, hhdr, heq⟩ := peImageLoad_headers h
  have hkeep : img.imageBase = img₀.imageBase := by rw [heq]
  rw [hkeep, peReadHeaders_imageBase hhdr]

theorem headerAt_iff (hspec : peLayoutToElfSpec img = .ok spec)
    (hr : stubPatchApply grant blob img spec = .ok r) (addr : UInt32) :
    HeaderAt r addr ↔ img.imageBase = addr := by
  have hlay := (peLayoutToElfSpec_eq_ok hspec).segments
  have hstub := stubPatchApply_eq_ok hr
  obtain ⟨hframe, -⟩ := patchImports_frame hstub.patched
  obtain ⟨shimSegs, happend, -, -⟩ := hstub.segments
  obtain ⟨hdr, rest, hsegs⟩ := List.exists_cons_of_ne_nil (l := spec.segments) (by
    rintro hnil
    rw [hnil] at hlay
    cases hlay)
  rw [hsegs, List.map_cons, imageSegments, List.cons.injEq] at hlay
  have hvaddr : hdr.vaddr = img.imageBase := congrArg (·.vaddr) hlay.1
  have hsize : hdr.filesz = img.sizeOfHeaders := congrArg (·.filesz) hlay.1
  have hdata : hdr.data = if 0 < img.sizeOfHeaders then some ⟨.raw, 0⟩ else none :=
    congrArg (·.data) hlay.1
  rw [HeaderAt, happend, hsegs, hframe]
  constructor
  · rintro ⟨seg, hseg, haddr, -⟩
    cases hseg
    rw [← hvaddr, haddr]
  · intro haddr
    refine ⟨hdr, rfl, by rw [hvaddr, haddr], hsize, fun hpos => ?_⟩
    rw [hdata, if_pos (hsize ▸ hpos)]

/-- The handle is the address of the headers iff the file has the `ImageBase` the shim was built for. -/
theorem moduleHandle_iff (himg : peImageLoad alloc fuel raw = .ok img)
    (hspec : peLayoutToElfSpec img = .ok spec) (hr : stubPatchApply grant blob img spec = .ok r) :
    HeaderAt r (Kernel32.getModuleHandleA 0) ↔ imageBaseField raw = 0x00400000 := by
  rw [headerAt_iff hspec hr, peImageLoad_imageBase himg]
  rfl

end

theorem moduleHandle_ordinalImport : ∃ img spec r,
    peImageLoad .generous 9 MkMiniPe.ordinalImport = .ok img ∧ peLayoutToElfSpec img = .ok spec ∧
      stubPatchApply (fun _ => true) miniShim img spec = .ok r ∧
        HeaderAt r (Kernel32.getModuleHandleA 0) := by
  obtain ⟨img, spec, r, himg, hspec, hr, -⟩ := ordinalImport_converts
  have hbase : imageBaseField MkMiniPe.ordinalImport = 0x00400000 := by decide +kernel
  exact ⟨img, spec, r, himg, hspec, hr, (moduleHandle_iff himg hspec hr).mpr hbase⟩

/-- The smallest fixture, linked for another address. -/
def otherBaseFile : Buffer := MkMiniPe.minimalNoimport.patches [(116, 0x00500000)]

theorem otherBaseFile_handle : ¬ ∀ alloc fuel raw grant blob img spec r,
    peImageLoad alloc fuel raw = .ok img → peLayoutToElfSpec img = .ok spec →
      stubPatchApply grant blob img spec = .ok r → HeaderAt r (Kernel32.getModuleHandleA 0) := by
  intro h
  have hrun : ((peImageLoad .generous 1 otherBaseFile).okAnd fun img =>
      (peLayoutToElfSpec img).okAnd fun spec =>
        (stubPatchApply (fun _ => true) miniShim img spec).okAnd fun _ =>
          img.imageBase = 0x00500000) = true := by decide +kernel
  obtain ⟨img, spec, r, himg, hspec, hr, hbase⟩ := converts_of_okAnd hrun
  have hhandle := (headerAt_iff hspec hr _).mp (h _ _ _ _ _ _ _ _ himg hspec hr)
  rw [of_decide_eq_true hbase] at hhandle
  exact absurd hhandle (by decide)

end Winlift

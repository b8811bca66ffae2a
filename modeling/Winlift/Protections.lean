import Winlift.FixtureConverts
import Winlift.ShimProtect

/-!
# Access rights, from the section table to the running program

A section's characteristics become the flags of a segment, the segment's flags the rights of its pages, and from
then on only `VirtualProtect` changes these, on the pages of the range it is given. Which these are is computed
in 32 bits (`len_toNat`); along a whole run see `protections_kept`.
-/

namespace Winlift
open CSem Kernel32

/-! ### Asking for access -/

/-- The access that a section asks for; one that asks for none can be read. -/
def PeSection.access (s : PeSection) : Access :=
  let a : Access := ⟨s.characteristics &&& peScnMemRead ≠ 0, s.characteristics &&& peScnMemWrite ≠ 0,
    s.characteristics &&& peScnMemExecute ≠ 0⟩
  if a = ⟨false, false, false⟩ then ⟨true, false, false⟩ else a

def readOnly : Access := ⟨true, false, false⟩

def flagsAccess (flags : UInt32) : Access := ⟨flags &&& pfR ≠ 0, flags &&& pfW ≠ 0, flags &&& pfX ≠ 0⟩

theorem flagsAccess_section (s : PeSection) :
    flagsAccess (peSectionFlagsToElf s.characteristics) = s.access := by
  unfold peSectionFlagsToElf PeSection.access
  by_cases hr : s.characteristics &&& peScnMemRead = 0 <;>
    by_cases hw : s.characteristics &&& peScnMemWrite = 0 <;>
      by_cases hx : s.characteristics &&& peScnMemExecute = 0 <;>
        simp only [hr, hw, hx, ne_eq, not_true, not_false_eq_true, if_true, if_false] <;> decide

theorem flagsAccess_header : flagsAccess pfR = readOnly := by decide

/-- What the loadable segments of a file ask for, page by page. -/
def elfParts (phdrs : List Elf32Phdr) : List (Extent × Access) :=
  (phdrs.filter (·.pType = ptLoad)).map fun ph => (pages ph.region, flagsAccess ph.pFlags)

/-- The rights of a process that has been made from the ELF file `b`. -/
def ElfMapped (policy : AccessPolicy) (b : Buffer) (m : Rights) : Prop :=
  ∃ entry phdrs, elf32Decode b = some (entry, phdrs) ∧
    ∀ x a, Rights.setAll policy (fun _ => none) (elfParts phdrs) x = some a → m x = some a

/-! ### Calls -/

namespace Kernel32
namespace ProtectCall

/-- The pages whose rights a call changes: from that of `addr` on, as many as reach to the end of the range
passed, with their bytes counted modulo `2 ^ 32`. -/
def range (c : ProtectCall) : Extent :=
  let page := c.addr.toNat / 0x1000 * 0x1000
  ⟨page, page + roundUp (c.addr.toNat % 0x1000 + c.size.toNat) 0x1000 % 2 ^ 32⟩

def access (c : ProtectCall) : Access := protAccess (posixProt c.newprot)

theorem and_not_page (x : UInt32) : (x &&& ~~~0xFFF).toNat = x.toNat / 0x1000 * 0x1000 :=
  @toNat_and_high _ 12 (by omega) rfl x

theorem page_toNat (c : ProtectCall) : c.page.toNat = c.addr.toNat / 0x1000 * 0x1000 := and_not_page c.addr

theorem len_toNat (c : ProtectCall) :
    c.len.toNat = roundUp (c.addr.toNat % 0x1000 + c.size.toNat) 0x1000 % 2 ^ 32 := by
  have hpage := c.page_toNat
  have hmask : UInt32.toNat 0xFFF = 0xFFF := rfl
  have hextra : (c.addr - c.page).toNat = c.addr.toNat % 0x1000 := by
    rw [toNat_sub_of_le (by omega)]
    omega
  have hsum : (c.size + (c.addr - c.page) + 0xFFF).toNat =
      (c.size.toNat + c.addr.toNat % 0x1000 + 0xFFF) % 2 ^ 32 := by
    rw [UInt32.toNat_add, UInt32.toNat_add, hextra, hmask, Nat.mod_add_mod]
  rw [len, and_not_page, hsum, roundUp]
  omega

/-- Where the count does not wrap, these are the pages of the range passed. -/
theorem range_eq_pages {c : ProtectCall} (h : roundUp (c.addr.toNat % 0x1000 + c.size.toNat) 0x1000 < 2 ^ 32) :
    c.range = Extent.roundOut 0x1000 ⟨c.addr.toNat, c.addr.toNat + c.size.toNat⟩ := by
  rw [range, Nat.mod_eq_of_lt h, Extent.roundOut]
  simp only [Extent.mk.injEq, true_and, roundUp]
  omega

/-- Nearly the whole address space from `0x401000` on: no page, and the call reports success. -/
example : range ⟨0x401000, 0xFFFFFFFF, 0x04, false⟩ = ⟨0x401000, 0x401000⟩ := by decide

end ProtectCall

/-- What a call asks of the system. -/
def rightsRequest (call : ProtectCall × ProtectReply) : RightsRequest :=
  ⟨call.1.range, call.1.access, call.2.ret = 1⟩

theorem rightsRequest_range (c : ProtectCall) :
    (⟨c.page.toNat, c.page.toNat + roundUp c.len.toNat 0x1000⟩ : Extent) = c.range := by
  have hdvd : 0x1000 ∣ c.len.toNat := by
    rw [c.len_toNat, roundUp]
    omega
  rw [roundUp_of_dvd (by omega) hdvd, c.page_toNat, c.len_toNat]
  rfl

theorem ProtectStep.protects {policy : AccessPolicy} {m m' : Rights} {call : ProtectCall × ProtectReply}
    (h : ProtectStep policy m call m') : Protects policy m (rightsRequest call) m' := by
  obtain ⟨r, hmprotect, hreply⟩ := h
  rw [Mprotect, rightsRequest_range] at hmprotect
  have hgranted : decide (call.2.ret = 1) = decide (r = 0) := by
    rw [hreply, virtualProtect]
    split_ifs with hr <;> simp [hr]
  rwa [rightsRequest, hgranted]

end Kernel32

/-! ### Runs -/

section
variable {policy : AccessPolicy} {blob : Buffer} {img : PeImage} {spec : Spec} {r : StubPatched}
  {m m' : Rights}

theorem pages_header (img : PeImage) :
    pages (headerSegment img 0).phdr.region = pages ((headerRegion img).shift img.imageBase.toNat) := by
  simp [pages, headerSegment, ElfSegment.phdr, Elf32Phdr.region, headerRegion, Region.addrs, Region.shift]

theorem pages_section (hwf : WellFormed img blob) {s : PeSection} (hs : s ∈ img.sections) :
    pages (sectionSegment img s 0).phdr.region = pages (s.region.shift img.imageBase.toNat) := by
  have hmemsz := sectionSegment_memsz img s 0
  simp only [pages, ElfSegment.phdr, Elf32Phdr.region, Region.addrs, hmemsz]
  simp only [sectionSegment, hwf.section_vaddr hs, PeSection.region, Region.shift, Nat.max_assoc, Nat.max_self]

/-- After its segments are mapped, each part of the image has the rights of its own segment. -/
theorem setAll_segments (hlay : LayoutOf img spec) (hstub : StubPatchOf blob img spec r)
    (hwf : WellFormed img blob) (hblob : ShimBlobOk blob) {s : Segment} (hs : s ∈ r.spec.segments) {x : Nat}
    (hx : x ∈ pages s.phdr.region) :
    Rights.setAll policy (fun _ => none) (elfParts (r.spec.segments.map ElfSegment.phdr)) x =
      some (policy.grants (flagsAccess s.flags)) := by
  have hload : elfParts (r.spec.segments.map ElfSegment.phdr) =
      r.spec.segments.map fun s => (pages s.phdr.region, flagsAccess s.flags) := by
    rw [elfParts, List.filter_eq_self.mpr, List.map_map]
    · rfl
    · simp [ElfSegment.phdr]
  have hpages : r.spec.segments.map (fun s => pages s.phdr.region) = (programRegions img blob).map pages := by
    have haddrs := congrArg (List.map (Extent.roundOut 0x1000)) (segments_addrs hlay hstub hwf)
    rwa [List.map_map, List.map_map] at haddrs
  have happart := hwf.all_apart hblob
  rw [← hpages] at happart
  rw [hload]
  refine Rights.setAll_of_apart ?_ (List.mem_map_of_mem hs) hx
  rwa [List.map_map]

/-- The rights that an address of the image has when the program starts. -/
theorem rights_of_mapped (hlay : LayoutOf img spec) (hstub : StubPatchOf blob img spec r)
    (hwf : WellFormed img blob) (hblob : ShimBlobOk blob) {io : Stdio} {file : List UInt8}
    (hfile : (elfWrite io r.mem r.spec).result = .ok file) (hm : ElfMapped policy (.ofList file) m) :
    (∀ x ∈ pages ((headerRegion img).shift img.imageBase.toNat), m x = some (policy.grants readOnly)) ∧
      ∀ s ∈ img.sections, ∀ x ∈ pages (s.region.shift img.imageBase.toNat),
        m x = some (policy.grants s.access) := by
  obtain ⟨entry, phdrs, hdecode, hmapped⟩ := hm
  cases hdecode.symm.trans (elfWrite_decodes hfile)
  have hsegs : ∀ s ∈ r.spec.segments, ∀ x ∈ pages s.phdr.region,
      m x = some (policy.grants (flagsAccess s.flags)) :=
    fun s hs x hx => hmapped x _ (setAll_segments hlay hstub hwf hblob hs hx)
  obtain ⟨hhdr, hsecs, -⟩ := (forall_segments hlay hstub fun s => Iff.rfl).mp hsegs
  constructor
  · intro x hx
    rw [← flagsAccess_header]
    exact hhdr x (by rwa [pages_header])
  · intro s hs x hx
    rw [← flagsAccess_section]
    exact hsecs s hs x (by rwa [pages_section hwf hs])

/-- The rights `initial` at `x`, after calls of `VirtualProtect`: those of the last call that succeeded
there, or of one that has failed since. Where none has asked to write there, nothing has become writable. -/
structure Kept (policy : AccessPolicy) (initial : Access) (calls : List (ProtectCall × ProtectReply))
    (m : Rights) (x : Nat) : Prop where
  candidate : ∃ a ∈ candidates x initial (calls.map rightsRequest), m x = some (policy.grants a)
  no_write : initial.write = false → (∀ c ∈ calls, x ∈ c.1.range → c.1.access.write = false) →
    ∃ a, m x = some a ∧ a.write = false

theorem kept_of_run {calls : List (ProtectCall × ProtectReply)} {initial : Access} {x : Nat}
    (hrun : Runs (ProtectStep policy) m calls m') (hm : m x = some (policy.grants initial)) :
    Kept policy initial calls m' x := by
  have hreqs := hrun.relabel rightsRequest fun _ _ _ _ hstep => hstep.protects
  obtain ⟨a, ha, hm'⟩ := exists_candidate hreqs hm
  refine ⟨⟨a, ha, hm'⟩, fun hinitial hcalls => ⟨_, hm', ?_⟩⟩
  rw [policy.write]
  rcases of_mem_candidates ha with rfl | ⟨req, hreq, hx, rfl⟩
  · exact hinitial
  · obtain ⟨c, hc, rfl⟩ := List.mem_map.mp hreq
    exact hcalls c hc hx

end

/-- A call whose range wraps to none, which is granted, and one that the system refuses. -/
def sampleProtects : List (ProtectCall × ProtectReply) :=
  [(⟨0x401000, 0xFFFFFFFF, 0x04, false⟩, ⟨1, none⟩), (⟨0x401000, 16, 0x40, true⟩, ⟨0, some 0x04⟩)]

end Winlift

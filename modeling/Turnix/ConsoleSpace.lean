import Turnix.Console
import Turnix.LoadedImage

/-!
# The console in the address space of a process

The loader hands over the address of the framebuffer as the firmware has it, which is in the lower half,
and the console uses that address whatever `CR3` is. `create_process_pml4` leaves the lower half empty, so
in the address space of a process that address is not mapped, or it is an address of the process: the
console is reachable only if there is nothing to draw on (`console_reachable_iff`).
-/

namespace Turnix

open Lib Lib.Paging PanicM RegionLemmas ImageLemmas ConsoleLemmas

/-! ## Address spaces -/

/-- An argument of `map_user_region`. -/
structure UserRegion where
  virtStart : Nat
  size : Nat
  extraFlags : Flags
deriving DecidableEq, Repr

/-- The region is not empty and lies in the lower half. -/
def UserRegion.Lower (r : UserRegion) : Prop := 0 < r.size ∧ r.virtStart + r.size ≤ 2 ^ 47

/-- Calls of `map_user_region`. -/
def mapUserRegions (c : Mapper) (pml4 : Frame) : List UserRegion → PanicM PhysMem Unit
  | [] => pure ()
  | r :: rs => do
    mapUserRegion c pml4 r.virtStart r.size r.extraFlags
    mapUserRegions c pml4 rs

/-- `create_process_pml4`, and then calls of `map_user_region`. -/
def processSpace (c : Mapper) (cr3 : Frame) (regions : List UserRegion) : PanicM PhysMem Frame := do
  let pml4 ← createProcessPml4 cr3
  mapUserRegions c pml4 regions
  return pml4

/-- The console gets to the same memory as in the address space `boot`. -/
def ConsoleReachable (fb : Framebuffer) (ram : Ram) (boot : Frame) (ram' : Ram) (pml4 : Frame) : Prop :=
  ∀ va, fb.Touched va → physAddr ram' pml4 va = physAddr ram boot va

/-- The framebuffer is where the loader has it: in the lower half, identity-mapped at boot, and not in
memory of the frame allocator. -/
structure HandedOver (fb : Framebuffer) (boot : Frame) (s : PhysMem) : Prop where
  addr : fb.addr < 2 ^ 64
  lower : ∀ va, fb.Touched va → va < 2 ^ 47
  identity : ∀ va, fb.Touched va → physAddr s.ram boot va = some va
  apart : ∀ va, fb.Touched va → ∀ f ∈ s.frames, f.toNat ≠ va / 4096

namespace ReachLemmas

variable {c : Mapper} {cr3 pml4 : Frame} {frames : List Frame} {kind : Frame → Kind} {s s' : PhysMem}

theorem mapUserRegions_ends (hc : c.Lawful) {regions : List UserRegion} :
    ∀ {kind : Frame → Kind} {s' : PhysMem}, Loading cr3 pml4 frames s kind s' →
      (∀ r ∈ regions, r.Lower) →
      Ends (mapUserRegions c pml4 regions) s' (fun _ s'' => ∃ kind', Loading cr3 pml4 frames s kind' s'')
        (fun _ => True) := by
  induction regions with
  | nil => exact fun h _ => ⟨_, h⟩
  | cons r regions ih =>
    intro kind s' hloading hlower
    have hroot := Loading.root hloading
    obtain ⟨hframes, hgrows⟩ := hloading
    obtain ⟨hsize, hend⟩ := hlower r List.mem_cons_self
    unfold mapUserRegions
    rw [ends_bind]
    refine (mapUserRegion_ends hc hgrows.shape hgrows.free hroot hgrows.left.subset (fun _ h => h) hsize
      (fun page _ hpage => index_lower (by omega))).mono ?_ fun _ _ => trivial
    rintro _ s₁ ⟨kind₁, hregion⟩
    exact ih ⟨hframes, Grows.trans hgrows hregion.toGrows⟩
      fun q hq => hlower q (List.mem_cons_of_mem _ hq)

theorem processSpace_ends (hc : c.Lawful) (hnodup : s.frames.Nodup) {regions : List UserRegion}
    (hlower : ∀ r ∈ regions, r.Lower) :
    Ends (processSpace c cr3 regions) s
      (fun pml4 s' => ∃ frames kind, Loading cr3 pml4 frames s kind s') (fun _ => True) := by
  unfold processSpace
  rw [ends_bind, ends_createProcessPml4]
  refine ⟨fun _ => trivial, fun pml4 frames hframes => ?_⟩
  have hfree : Free (rootOnly pml4) (created cr3 pml4 frames s).frames :=
    free_created (hframes ▸ hnodup)
  show Ends _ (created cr3 pml4 frames s) _ _
  rw [ends_bind]
  refine (mapUserRegions_ends hc ⟨hframes, grows_refl shape_created hfree⟩ hlower).mono ?_
    fun _ _ => trivial
  exact fun _ s' ⟨kind, h⟩ => ⟨frames, kind, h⟩

/-- In the lower half of a new address space only frames of the allocator are mapped. -/
theorem Loading.physAddr_lower (h : Loading cr3 pml4 frames s kind s') {va : Nat} (hva : va < 2 ^ 47) :
    physAddr s'.ram pml4 va = none ∨
      ∃ f ∈ s.frames, physAddr s'.ram pml4 va = some (f.toNat * 4096 + va % 4096) := by
  unfold physAddr
  rcases hw : walk s'.ram 3 pml4 (va / 4096) with _ | tr
  · exact .inl rfl
  · have hdata := h.2.shape.walk_data (Nat.le_refl 3) (holds_lower (Loading.root h) (by omega)) hw
    exact .inr ⟨tr.frame, Loading.taken h (ne_other_of_data hdata), rfl⟩

end ReachLemmas

open ReachLemmas

/-- In the address space of a process, whatever is mapped there for the user, the console is reachable only
if the framebuffer is blank. What the terminal asks of the console there faults, or it goes to memory of
the process. -/
theorem console_reachable_iff {c : Mapper} (hc : c.Lawful) {s s' : PhysMem} (hnodup : s.frames.Nodup)
    {cr3 boot pml4 : Frame} {regions : List UserRegion} (hlower : ∀ r ∈ regions, r.Lower)
    (hspace : (processSpace c cr3 regions).result s = some (pml4, s')) {fb : Framebuffer}
    (hfb : HandedOver fb boot s) :
    (ConsoleReachable fb s.ram boot s'.ram pml4 ↔ fb.Blank) ∧
    ∀ (op : ConsoleOp) (console : Console), console.framebuffer = some fb → console.accesses = [] →
      ∀ a ∈ (op.run console).2.accesses, ∀ va, a.Touches va → physAddr s'.ram pml4 va = none ∨
        ∃ f ∈ s.frames, physAddr s'.ram pml4 va = some (f.toNat * 4096 + va % 4096) := by
  obtain ⟨frames, kind, hloading⟩ := (processSpace_ends hc hnodup hlower).returns hspace
  have haccess : ∀ va, fb.Touched va → physAddr s'.ram pml4 va = none ∨
      ∃ f ∈ s.frames, physAddr s'.ram pml4 va = some (f.toNat * 4096 + va % 4096) :=
    fun va hva => Loading.physAddr_lower hloading (hfb.lower va hva)
  refine ⟨⟨fun hreach => ?_, fun hblank va hva => ?_⟩, fun op console hconsole hnew a ha va hva => ?_⟩
  · by_contra hblank
    obtain ⟨va, hva⟩ := (touched_iff hfb.addr).mpr hblank
    have hsame := (hreach va hva).trans (hfb.identity va hva)
    rcases haccess va hva with hnone | ⟨f, hf, hphys⟩
    · rw [hnone] at hsame
      cases hsame
    · rw [hphys] at hsame
      refine hfb.apart va hva f hf ?_
      have := Option.some.inj hsame
      omega
  · exact absurd hblank ((touched_iff hfb.addr).mp ⟨va, hva⟩)
  · exact haccess va ⟨a, ConsoleOp.issues op hconsole hnew ha, hva⟩

/-- Page tables in frame 1 that map the page `0x80000` to its own frame. -/
def identityTables : Ram := fun f i =>
  if f = 1 ∧ i = 0 then ⟨kernelFlags, 2⟩
  else if f = 2 ∧ i = 2 then ⟨kernelFlags, 3⟩
  else if f = 3 ∧ i = 0 then ⟨kernelFlags, 4⟩
  else if f = 4 ∧ i = 0 then ⟨kernelFlags, 0x80000⟩
  else .unused

/-- A framebuffer of 32 times 8 pixels in that page. -/
def sampleFramebuffer : Framebuffer := ⟨0x80000000, 32, 8, 32, 1, Nat.succ_ne_zero 0x7fffffff⟩

/-- Memory at boot, with frames 16 to 63 free. -/
def identityMemory : PhysMem := ⟨identityTables, emptyMemory.frames, [], [], []⟩

theorem sampleFramebuffer_within {va : Nat} (h : sampleFramebuffer.Touched va) : va / 4096 = 0x80000 := by
  obtain ⟨hge, hlt⟩ := touched_within (by decide) h
  unfold sampleFramebuffer at hge hlt
  dsimp only at hge hlt
  omega

theorem identityMemory_walk : (walk identityMemory.ram 3 1 0x80000).map (·.frame) = some 0x80000 := by
  decide +kernel

theorem sampleFramebuffer_handedOver : HandedOver sampleFramebuffer 1 identityMemory where
  addr := by decide
  lower va h := by
    have := sampleFramebuffer_within h
    omega
  identity va h := by
    obtain ⟨tr, hw, hframe⟩ := Option.map_eq_some_iff.mp identityMemory_walk
    unfold physAddr
    rw [sampleFramebuffer_within h, hw, Option.map_some, hframe]
    refine congrArg some ?_
    have := sampleFramebuffer_within h
    show 0x80000 * 4096 + va % 4096 = va
    omega
  apart va h f hf := by
    have hall : (identityMemory.frames.all fun f => decide (f.toNat < 64)) = true := by decide +kernel
    have hf' := of_decide_eq_true (List.all_eq_true.mp hall f hf)
    rw [sampleFramebuffer_within h]
    omega

theorem console_reachable_iff_sample : ∃ s',
    (processSpace plainMapper 1 [⟨0x400000, 4096, .writable⟩]).result identityMemory = some (16, s') ∧
    (ConsoleReachable sampleFramebuffer identityMemory.ram 1 s'.ram 16 ↔ sampleFramebuffer.Blank) := by
  have hok : ((processSpace plainMapper 1 [⟨0x400000, 4096, .writable⟩]).result identityMemory).map
      Prod.fst = some 16 := by decide +kernel
  obtain ⟨⟨pml4, s'⟩, hspace, rfl⟩ := Option.map_eq_some_iff.mp hok
  refine ⟨s', hspace, (console_reachable_iff plainMapper_lawful (by decide +kernel) ?_ hspace
    sampleFramebuffer_handedOver).1⟩
  intro r hr
  rw [List.mem_singleton.mp hr]
  exact ⟨by decide, by decide⟩

/-- The first pixel of the framebuffer is not mapped in the address space of a new process, where it was
mapped at boot. -/
theorem console_faults : ∃ s',
    (processSpace plainMapper 1 []).result identityMemory = some (16, s') ∧
    sampleFramebuffer.Touched 0x80000000 ∧ physAddr identityMemory.ram 1 0x80000000 = some 0x80000000 ∧
    physAddr s'.ram 16 0x80000000 = none ∧
    ¬ ConsoleReachable sampleFramebuffer identityMemory.ram 1 s'.ram 16 := by
  have hrun : ((processSpace plainMapper 1 []).result identityMemory).map
      (fun r => (r.1, physAddr r.2.ram r.1 0x80000000)) = some (16, none) := by decide +kernel
  have hboot : physAddr identityMemory.ram 1 0x80000000 = some 0x80000000 := by decide +kernel
  obtain ⟨⟨pml4, s'⟩, hspace, hr⟩ := Option.map_eq_some_iff.mp hrun
  obtain ⟨rfl, hphys⟩ := Prod.mk.inj hr
  have htouched : sampleFramebuffer.Touched 0x80000000 :=
    ⟨_, issues_first (by decide) (by decide) (by decide) (by decide), Nat.le_refl _, by decide⟩
  refine ⟨s', hspace, htouched, hboot, hphys, fun hreach => ?_⟩
  have hsame := (hreach _ htouched).symm.trans hphys
  rw [hboot] at hsame
  cases hsame

end Turnix

import Turnix.AddressSpaces
import Turnix.Lib.RamBytes

/-!
# Isolation of a forked process

`clone_user_mappings_cow` marks the leaves of the child as read-only and leaves those of the parent as
they are, although both map the same frames. So parent and child are isolated exactly if the parent has
no writable page (`fork_isolates_iff`), and a parent with one writes into the memory of its child
(`writable_page_shared`). Nothing copies a page later: the handler of page faults terminates the process.
-/

namespace Turnix

open Lib Lib.Paging PanicM

/-! ## User mode -/

/-- A store from ring 3. One that the page tables do not allow terminates the process. -/
def userStore (root : Frame) (ram : Ram) (store : Nat × UInt8) : Option Ram :=
  match walk ram 3 root (store.1 / 4096) with
  | some tr =>
    if tr.user && tr.writable then some (ram.setByte tr.frame (store.1 % 4096) store.2) else none
  | none => none

/-- What ring 3 reads at an address. -/
def userRead (root : Frame) (ram : Ram) (va : Nat) : Option UInt8 :=
  match walk ram 3 root (va / 4096) with
  | some tr => if tr.user then some (ram.byte tr.frame (va % 4096)) else none
  | none => none

/-- No stores in the address space `p` change what can be read in `q`. -/
def StoresApart (ram : Ram) (p q : Frame) : Prop :=
  ∀ stores ram', run (userStore p) ram stores = some ram' →
    ∀ va, userRead q ram' va = userRead q ram va

/-- No frame that is mapped in both lower halves is writable in one of them, and stores in one address
space are not seen in the other. -/
structure Isolated (ram : Ram) (p q : Frame) : Prop where
  frames : ∀ page page' tr tr', (index 3 page).val < 256 → (index 3 page').val < 256 →
    walk ram 3 p page = some tr → walk ram 3 q page' = some tr' → tr.frame = tr'.frame →
    tr.writable = false ∧ tr'.writable = false
  forward : StoresApart ram p q
  backward : StoresApart ram q p

/-- No page of the lower half is writable. -/
def ReadOnly (ram : Ram) (p : Frame) : Prop :=
  ∀ page, (index 3 page).val < 256 → ∀ tr, walk ram 3 p page = some tr → tr.writable = false

open RegionLemmas CloneLemmas SpaceLemmas

namespace ForkLemmas

variable {kernel p q : Frame} {ram ram' : Ram} {page : Nat}

/-- A page is accessible from ring 3 only if the entry of the PML4 is. -/
theorem user_of_root {tr : Translation} (h : walk ram 3 p page = some tr) (hu : tr.user = true) :
    (ram p (index 3 page)).flags.isUser = true := by
  unfold walk at h
  obtain ⟨-, h⟩ := Option.ite_none_right_eq_some.mp h
  split at h
  · split at h
    · omega
    · cases h
  · obtain ⟨tr', -, rfl⟩ := Option.map_eq_some_iff.mp h
    exact (Bool.and_eq_true_iff.mp hu).1

/-- Where no page is writable from ring 3, there is no store. -/
theorem storesApart_of_readOnly (hlower : ReadOnly ram p)
    (hupper : ∀ i : Fin 512, 256 ≤ i.val → (ram p i).flags.isUser = false) : StoresApart ram p q := by
  have hnone : ∀ store, userStore p ram store = none := by
    intro store
    unfold userStore
    rcases hw : walk ram 3 p (store.1 / 4096) with _ | tr
    · rfl
    · dsimp only
      rw [if_neg]
      intro h
      obtain ⟨huser, hwritable⟩ := Bool.and_eq_true_iff.mp h
      by_cases hi : (index 3 (store.1 / 4096)).val < 256
      · rw [hlower _ hi tr hw] at hwritable
        cases hwritable
      · have hroot := user_of_root hw huser
        rw [hupper _ (by omega)] at hroot
        cases hroot
  intro stores ram' hrun va
  cases stores with
  | nil =>
    cases hrun
    rfl
  | cons store stores =>
    obtain ⟨m, hm, -⟩ := run_cons.mp hrun
    rw [hnone store] at hm
    cases hm

/-- Two address spaces without a writable page and without user pages in the upper half. -/
theorem isolated_of_readOnly (hp : ReadOnly ram p) (hq : ReadOnly ram q)
    (hpu : ∀ i : Fin 512, 256 ≤ i.val → (ram p i).flags.isUser = false)
    (hqu : ∀ i : Fin 512, 256 ≤ i.val → (ram q i).flags.isUser = false) : Isolated ram p q where
  frames page page' tr tr' hi hi' hw hw' _ := ⟨hp page hi tr hw, hq page' hi' tr' hw'⟩
  forward := storesApart_of_readOnly hp hpu
  backward := storesApart_of_readOnly hq hqu

end ForkLemmas

open ForkLemmas

/-- A fork isolates parent and child if and only if the parent has no writable page in its lower half. -/
theorem fork_isolates_iff {c : Mapper} (hc : c.Lawful) {kernel : Frame} {boot mem : PhysMem}
    (hboot : BootTables kernel boot)
    (hsupervisor : ∀ i : Fin 512, 256 ≤ i.val → (boot.ram kernel i).flags.isUser = false)
    (hinit : (initKernelSpace c kernel).result boot = some ((), mem)) {events : List SpaceEvent}
    {m : Spaces} (hrun : run (spaceStep c kernel) ⟨mem, []⟩ events = some m) {cr3 : Frame}
    (hcr3 : cr3 ∈ kernel :: m.spaces) {parent child : Process} (hparent : parent.pml4 ∈ m.spaces)
    {mem' : PhysMem} (hfork : (parent.fork cr3).result m.mem = some (child, mem')) :
    Isolated mem'.ram parent.pml4 child.pml4 ↔ ReadOnly m.mem.ram parent.pml4 := by
  obtain ⟨hinv, huser, -⟩ := (initKernelSpace_ends hc hboot).returns hinit
  obtain ⟨kind, h⟩ := run_invariant
    (P := fun m : Spaces => ∃ kind, SpaceInv kernel (mem.ram kernel) m.spaces kind m.mem)
    (fun _ _ _ hm hstep => spaceStep_inv hc hm hstep) hinv hrun
  obtain ⟨kind', hforked⟩ := (forked_of_inv h hcr3 hparent).returns hfork
  have h' := SpaceInv.fork h hparent hforked
  have hroot : ∀ r ∈ m.spaces, ∀ page, (index 3 page).val < 256 →
      Holds (known kernel) kind 3 page r := fun r hr page hi =>
    holds_root (h.roots r (List.mem_cons_of_mem _ hr)) (.inr (.inr ⟨SpaceInv.ne_kernel h hr, hi⟩))
  -- the parent is as before, and the child maps the same frames
  have hsame : ∀ page, (index 3 page).val < 256 →
      walk mem'.ram 3 parent.pml4 page = walk m.mem.ram 3 parent.pml4 page := fun page hi =>
    h.shape.walk_kept (fun f _ _ _ hf => Copies.same hforked.copies h.free hf.ne_other) (Nat.le_refl 3)
      (hroot _ hparent page hi)
  have htwin : ∀ page, (index 3 page).val < 256 →
      walk mem'.ram 3 child.pml4 page = (walk m.mem.ram 3 parent.pml4 page).map cowed := by
    intro page hi
    rw [← hsame page hi]
    refine walk_twin ?_ (hforked.twins _ hi)
    have hholds := (hroot _ hparent page hi).mono (Copies.ext hforked.copies h.free)
    exact (h'.shape.points (Nat.le_refl 3) hholds).imp id (Sits.tree h'.shape)
  have hupper : ∀ r ∈ kernel :: child.pml4 :: m.spaces, ∀ i : Fin 512, 256 ≤ i.val →
      (mem'.ram r i).flags.isUser = false := by
    intro r hr i hi
    rw [h'.upper r hr i hi, ← Bool.not_eq_true]
    intro hu
    have hbootUser := huser i hu
    rw [hsupervisor i hi] at hbootUser
    cases hbootUser
  constructor
  · intro hiso page hi tr hw
    refine (hiso.frames page page tr (cowed tr) hi hi ?_ ?_ rfl).1
    · rw [hsame page hi, hw]
    · rw [htwin page hi, hw]
      rfl
  · intro hread
    have hparent' : ReadOnly mem'.ram parent.pml4 := by
      intro page hi tr hw
      rw [hsame page hi] at hw
      exact hread page hi tr hw
    have hchild' : ReadOnly mem'.ram child.pml4 := by
      intro page hi tr hw
      rw [htwin page hi] at hw
      obtain ⟨tr', -, rfl⟩ := Option.map_eq_some_iff.mp hw
      rfl
    refine isolated_of_readOnly hparent' hchild' (hupper _ ?_) (hupper _ ?_)
    · exact List.mem_cons_of_mem _ (List.mem_cons_of_mem _ hparent)
    · exact List.mem_cons_of_mem _ List.mem_cons_self

/-- Nothing under the entry of a table is writable. -/
def entryReadOnly (ram : Ram) : Nat → Entry → Bool
  | 0, e => !e.flags.isPresent || !e.flags.isWritable
  | level + 1, e => !e.flags.isPresent || !e.flags.isWritable ||
    (!e.flags.isHuge && decide (∀ i, entryReadOnly ram level (ram e.frame i) = true))

theorem not_writable_of_entry {ram : Ram} {page : Nat} : ∀ {level : Nat} {t : Frame} {tr : Translation},
    entryReadOnly ram level (ram t (index level page)) = true → walk ram level t page = some tr → tr.writable = false
  | 0, t, tr, h, hw => by
    obtain ⟨hp, hw⟩ := Option.ite_none_right_eq_some.mp hw
    cases hw
    simp only [entryReadOnly, hp, Bool.not_true, Bool.false_or, Bool.not_eq_true'] at h
    exact h
  | level + 1, t, tr, h, hw => by
    obtain ⟨hp, hw⟩ := Option.ite_none_right_eq_some.mp hw
    simp only [entryReadOnly, hp, Bool.not_true, Bool.false_or, Bool.or_eq_true, Bool.not_eq_true', Bool.and_eq_true,
      decide_eq_true_iff] at h
    -- the entry is read-only itself, or it is the entry of a table
    rcases h with h | ⟨hh, h⟩
    · split at hw
      · obtain ⟨-, hw⟩ := Option.ite_none_right_eq_some.mp hw
        cases hw
        exact h
      · obtain ⟨tr', -, rfl⟩ := Option.map_eq_some_iff.mp hw
        show (_ && _) = false
        rw [h, Bool.false_and]
    · rw [hh, if_neg Bool.false_ne_true] at hw
      obtain ⟨tr', hw', rfl⟩ := Option.map_eq_some_iff.mp hw
      show (_ && _) = false
      rw [not_writable_of_entry (h _) hw', Bool.and_false]

/-- A process with one read-only page is forked: the page is mapped in both, and neither may write it. -/
theorem fork_isolates_read_only : ∃ m child mem',
    runFromBoot plainMapper 1 sampleBoot [.createProcessPml4 1,
      .mapUserRegion ⟨48, 0, 0⟩ 0x400000 4096 .empty] = some m ∧
    (Process.fork 1 ⟨48, 0, 0⟩).result m.mem = some (child, mem') ∧
    (walk mem'.ram 3 48 0x400).map Translation.frame = some 49 ∧
    (walk mem'.ram 3 child.pml4 0x400).map Translation.frame = some 49 ∧
    Isolated mem'.ram 48 child.pml4 := by
  have hcalls : (runFromBoot plainMapper 1 sampleBoot [.createProcessPml4 1,
      .mapUserRegion ⟨48, 0, 0⟩ 0x400000 4096 .empty]).bind (fun m =>
        ((Process.fork 1 ⟨48, 0, 0⟩).result m.mem).map fun r => (m.spaces,
          decide (∀ i : Fin 512, i.val < 256 → entryReadOnly m.mem.ram 3 (m.mem.ram 48 i) = true),
          (walk r.2.ram 3 48 0x400).map Translation.frame,
          (walk r.2.ram 3 r.1.pml4 0x400).map Translation.frame)) =
      some ([48], true, some 49, some 49) := by decide +kernel
  obtain ⟨m, hm, hfork⟩ := Option.bind_eq_some_iff.mp hcalls
  obtain ⟨⟨child, mem'⟩, hfork, hstate⟩ := Option.map_eq_some_iff.mp hfork
  simp only [Prod.mk.injEq, decide_eq_true_iff] at hstate
  obtain ⟨hspaces, hentries, hp, hq⟩ := hstate
  obtain ⟨⟨u, mem⟩, hinit, hrun⟩ := Option.bind_eq_some_iff.mp hm
  have hread : ReadOnly m.mem.ram 48 := fun page hi tr hw => not_writable_of_entry (hentries _ hi) hw
  have hparent : Process.pml4 ⟨48, 0, 0⟩ ∈ m.spaces := by
    rw [hspaces]
    exact List.mem_cons_self
  refine ⟨m, child, mem', hm, hfork, hp, hq, ?_⟩
  exact (fork_isolates_iff plainMapper_lawful sampleBoot_tables (by decide +kernel) hinit hrun
    List.mem_cons_self hparent hfork).mpr hread

/-- A process with one writable page is forked: the page is mapped in both, and the parent may write it. -/
theorem writable_page_shared : ∃ m child mem',
    runFromBoot plainMapper 1 sampleBoot [.createProcessPml4 1,
      .mapUserRegion ⟨48, 0, 0⟩ 0x400000 4096 .writable] = some m ∧
    (Process.fork 1 ⟨48, 0, 0⟩).result m.mem = some (child, mem') ∧
    ¬ Isolated mem'.ram 48 child.pml4 := by
  have hcalls : (runFromBoot plainMapper 1 sampleBoot [.createProcessPml4 1,
      .mapUserRegion ⟨48, 0, 0⟩ 0x400000 4096 .writable]).bind (fun m =>
        ((Process.fork 1 ⟨48, 0, 0⟩).result m.mem).map fun r =>
          ((walk r.2.ram 3 48 0x400).map fun tr => (tr.frame, tr.writable),
            (walk r.2.ram 3 r.1.pml4 0x400).map fun tr => (tr.frame, tr.writable))) =
      some (some (49, true), some (49, false)) := by decide +kernel
  obtain ⟨m, hm, hfork⟩ := Option.bind_eq_some_iff.mp hcalls
  obtain ⟨⟨child, mem'⟩, hfork, hstate⟩ := Option.map_eq_some_iff.mp hfork
  obtain ⟨hp, hq⟩ := Prod.mk.inj hstate
  obtain ⟨tr, hw, htr⟩ := Option.map_eq_some_iff.mp hp
  obtain ⟨tr', hw', htr'⟩ := Option.map_eq_some_iff.mp hq
  refine ⟨m, child, mem', hm, hfork, fun hiso => ?_⟩
  have hframe : tr.frame = tr'.frame := (Prod.mk.inj htr).1.trans (Prod.mk.inj htr').1.symm
  have hfalse := (hiso.frames _ _ tr tr' (by decide) (by decide) hw hw' hframe).1
  rw [(Prod.mk.inj htr).2] at hfalse
  cases hfalse

end Turnix

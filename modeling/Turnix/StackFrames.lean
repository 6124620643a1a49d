import Turnix.KernelStacks
import Turnix.ProcessIsolation

/-!
# The first frames of the tasks

`Task::new` and `Task::new_user` map the stack of a task and then write the context with which it is to start to the
top of it, through the page tables of the kernel. A page that could not be mapped is a fault in the kernel.

`StackRegion` is what the kernel knows of its stacks: behind the last one nothing is mapped, so the pages of the next
one can be mapped unless the allocator runs out (`mapTo_region`); and the words that were written to the stacks are
still there, in frames that are used for nothing else.
-/

namespace Turnix

open Lib Lib.Paging PanicM

/-- The word at an address, through the page tables. -/
def readWord (ram : Ram) (pml4 : Frame) (va : Nat) : Option Nat :=
  (walk ram 3 pml4 (va / 4096)).map fun tr => (ram tr.frame (Fin.ofNat 512 (va % 4096 / 8))).bits.toNat

/-- A write of the kernel, with its page tables. A fault in the kernel is a panic. -/
def writeWord (kernel : Frame) (va word : Nat) : PanicM PhysMem Unit := do
  let s ← PanicM.get
  let tr ← PanicM.expect (walk s.ram 3 kernel (va / 4096))
  PanicM.ensure tr.writable
  PanicM.modify fun s => { s with
    ram := s.ram.set tr.frame (Fin.ofNat 512 (va % 4096 / 8)) (.ofBits (BitVec.ofNat 64 word)) }

/-- `stack_ptr = stack_ptr.sub(1); stack_ptr.write(word)` for each word: the stack pointer after that. -/
def pushFrame (kernel : Frame) : List Nat → Nat → PanicM PhysMem Nat
  | [], sp => pure sp
  | word :: words, sp => do
    writeWord kernel (sp - 8) word
    pushFrame kernel words (sp - 8)

/-- Where these words are then. -/
def pushed : List Nat → Nat → List (Nat × Nat)
  | [], _ => []
  | word :: words, sp => (sp - 8, word) :: pushed words (sp - 8)

/-! ## The region -/

/-- An address of a word in the region of the stacks, below the page `bound`. -/
structure StackWord (bound va : Nat) : Prop where
  aligned : va % 8 = 0
  above : kernelStackRegionBase ≤ va
  below : va < kernelStackRegionBase + bound * 4096

/-- The kernel can write to the page. -/
def Usable (kernel : Frame) (ram : Ram) (n : Nat) : Prop :=
  ∃ tr, walk ram 3 kernel (anchorPage + n) = some tr ∧ tr.writable = true

/-- The pages from `low` to `bound` can be used, there is nothing from `bound` on, and the words are on the
stacks. -/
structure StackRegion (kernel : Frame) (top : Table) (pml4s : List Frame) (low bound : Nat)
    (words : List (Nat × Nat)) (kind : Frame → Kind) (s : PhysMem) : Prop
    extends KernelInv kernel top pml4s kind s where
  clear : s.frames ≠ [] → ∀ n, bound ≤ n → n < 2 ^ 27 → leafAt s.ram 3 kernel (anchorPage + n) = .unused
  ready : s.frames ≠ [] → ∀ n, low ≤ n → n < bound → Usable kernel s.ram n
  words : ∀ x ∈ words, StackWord bound x.1 ∧ readWord s.ram kernel x.1 = some x.2
  small : bound ≤ 2 ^ 27

open RegionLemmas SpaceLemmas KernelLemmas

namespace StackFrameLemmas

variable {c : Mapper} {kernel r f frame : Frame} {top : Table} {pml4s pool frames : List Frame}
  {kind kind' : Frame → Kind} {s s' : PhysMem} {low bound n va : Nat} {words : List (Nat × Nat)}

theorem regionBase_eq : kernelStackRegionBase = anchorPage * 4096 := rfl

theorem StackWord.page (h : StackWord bound va) (hsmall : bound ≤ 2 ^ 27) :
    ∃ m < 2 ^ 27, va / 4096 = anchorPage + m := by
  obtain ⟨-, habove, hbelow⟩ := h
  rw [regionBase_eq] at habove hbelow
  exact ⟨va / 4096 - anchorPage, by omega, by omega⟩

theorem StackWord.mono {bound' : Nat} (h : StackWord bound va) (hle : bound ≤ bound') : StackWord bound' va :=
  ⟨h.aligned, h.above, Nat.lt_of_lt_of_le h.below (Nat.add_le_add_left (Nat.mul_le_mul_right _ hle) _)⟩

theorem holds_stack (h : KernelInv kernel top pml4s kind s) (hr : r ∈ kernel :: pml4s) (hn : n < 2 ^ 27) :
    Holds (kernelSlots kernel) kind 3 (anchorPage + n) r :=
  holds_root (h.roots r hr) (.inl (index_stack hn))

/-- All PML4s have the same tables for the stacks. -/
theorem upper_stack (h : KernelInv kernel top pml4s kind s) (hr : r ∈ kernel :: pml4s) (hn : n < 2 ^ 27) :
    s.ram r (index 3 (anchorPage + n)) = s.ram kernel (index 3 (anchorPage + n)) := by
  rw [index_stack hn, h.upper r hr _ (by decide), h.upper kernel List.mem_cons_self _ (by decide)]

theorem leafAt_shared (h : KernelInv kernel top pml4s kind s) (hr : r ∈ kernel :: pml4s) (hn : n < 2 ^ 27) :
    leafAt s.ram 3 r (anchorPage + n) = leafAt s.ram 3 kernel (anchorPage + n) := by
  unfold leafAt
  rw [upper_stack h hr hn]

theorem walk_shared (h : KernelInv kernel top pml4s kind s) (hr : r ∈ kernel :: pml4s) (hn : n < 2 ^ 27) :
    walk s.ram 3 r (anchorPage + n) = walk s.ram 3 kernel (anchorPage + n) :=
  walk_congr_root (upper_stack h hr hn)

theorem kind_stack (h : KernelInv kernel top pml4s kind s) (hn : n < 2 ^ 27) {tr : Translation}
    (hw : walk s.ram 3 kernel (anchorPage + n) = some tr) : kind tr.frame = .data (position 0 (anchorPage + n)) :=
  h.shape.walk_data (Nat.le_refl 3) (holds_stack h List.mem_cons_self hn) hw

/-- A word stays if its page does, and what the page contains. -/
theorem readWord_kept (h : KernelInv kernel top pml4s kind s) {m : Nat} (hm : m < 2 ^ 27) {word : Nat}
    (hpage : va / 4096 = anchorPage + m) (hread : readWord s.ram kernel va = some word)
    (hwalk : ∀ tr, walk s.ram 3 kernel (anchorPage + m) = some tr →
      ∃ tr', walk s'.ram 3 kernel (anchorPage + m) = some tr' ∧ tr'.frame = tr.frame)
    (hdata : ∀ f key, kind f = .data key → s'.ram f = s.ram f) : readWord s'.ram kernel va = some word := by
  unfold readWord at hread ⊢
  rw [hpage] at hread ⊢
  obtain ⟨tr, hw, hword⟩ := Option.map_eq_some_iff.mp hread
  obtain ⟨tr', hw', hframe⟩ := hwalk tr hw
  rw [hw', Option.map_some, hframe, hdata _ _ (kind_stack h hm hw), hword]

/-- The frame rule: the frames of the kernel stay as they are. -/
theorem StackRegion.keep (h : StackRegion kernel top pml4s low bound words kind s)
    (hsame : ∀ f, kind f ≠ .other → s'.ram f = s.ram f) (hleft : s'.frames <:+ s.frames) :
    StackRegion kernel top pml4s low bound words kind s' := by
  have hwalk : ∀ m < 2 ^ 27, walk s'.ram 3 kernel (anchorPage + m) = walk s.ram 3 kernel (anchorPage + m) :=
    fun m hm => h.shape.walk_kept (fun f i l k hin => hsame f hin.ne_other) (Nat.le_refl 3)
      (holds_stack h.toKernelInv List.mem_cons_self hm)
  have hne : s'.frames ≠ [] → s.frames ≠ [] := fun hne hnil => hne (List.suffix_nil.mp (hnil ▸ hleft))
  constructor
  case toKernelInv => exact KernelInv.keep h.toKernelInv hsame hleft
  case clear =>
    intro hframes n hbound hn
    rw [← h.clear (hne hframes) n hbound hn]
    exact h.shape.leafAt_congr (Nat.le_refl 3) (holds_stack h.toKernelInv List.mem_cons_self hn)
      fun l f _ hf => .inl (congrFun (hsame f hf.ne_other) _)
  case ready =>
    intro hframes n hlow hbound
    unfold Usable
    rw [hwalk n (Nat.lt_of_lt_of_le hbound h.small)]
    exact h.ready (hne hframes) n hlow hbound
  case words =>
    intro x hx
    obtain ⟨hword, hread⟩ := h.words x hx
    obtain ⟨m, hm, hpage⟩ := StackWord.page hword h.small
    refine ⟨hword, readWord_kept h.toKernelInv hm hpage hread (fun tr hw => ⟨tr, ?_, rfl⟩) fun f key hf => ?_⟩
    · rw [hwalk m hm]
      exact hw
    · exact hsame f (ne_other_of_data hf)
  case small => exact h.small

/-! ## Mapping pages -/

/-- What mapping the page `n` of the region leaves: the other pages, the frames of those that are mapped, and what
is in them. -/
structure MapsPage (kernel : Frame) (n : Nat) (kind : Frame → Kind) (s s' : PhysMem) : Prop where
  leaves : ∀ m < 2 ^ 27, m ≠ n → leafAt s'.ram 3 kernel (anchorPage + m) = leafAt s.ram 3 kernel (anchorPage + m)
  walks : ∀ m < 2 ^ 27, ∀ tr, walk s.ram 3 kernel (anchorPage + m) = some tr →
    ∃ tr', walk s'.ram 3 kernel (anchorPage + m) = some tr' ∧ tr'.frame = tr.frame ∧
      (tr.writable = true → tr'.writable = true)
  data : ∀ f key, kind f = .data key → s'.ram f = s.ram f

theorem mapsPage_of_effect {used : List Frame} {out : MapOutcome} (h : KernelInv kernel top pml4s kind s)
    (h' : KernelInv kernel top pml4s kind' s') (hr : r ∈ kernel :: pml4s) (hn : n < 2 ^ 27)
    (hspare : Spare kind (anchorPage + n) frame s.frames)
    (hmap : MapTo (anchorPage + n) frame kernelFlags 3 r s.ram s.frames out)
    (heffect : MapEffect (kernelSlots kernel) kind kind' (anchorPage + n) kernelFlags frame 3 r s.ram s.frames used out)
    (hram : s'.ram = out.ram) : MapsPage kernel n kind s s' := by
  have hused : ∀ f, kind f ≠ .other → f ∉ used := fun f hf hmem =>
    hf (hspare.other f (heffect.frames_eq ▸ List.mem_append_left _ hmem))
  constructor
  case leaves =>
    intro m hm hne
    rw [← leafAt_shared h' hr hm, ← leafAt_shared h hr hm, hram,
      hmap.leafAt_eq (Nat.le_refl 3) h.shape (holds_stack h hr hn) hspare.toFree _ (holds_stack h hr hm)]
    exact if_neg fun heq => hne ((position_stack hm hn).mp heq.1)
  case walks =>
    intro m hm tr hw
    rw [hram]
    exact h.shape.walk_gains (fun f i l k hin hne => heffect.kept f i (hused f hin.ne_other) hne) (Nat.le_refl 3)
      (holds_stack h List.mem_cons_self hm) hw
  case data =>
    intro f key hf
    funext j
    rw [hram]
    by_contra hne
    rcases heffect.changed f j hne with hin | ⟨rfl, -⟩ | ⟨l, k, -, htable⟩
    · exact hused f (ne_other_of_data hf) hin
    · rw [h.roots f hr] at hf
      cases hf
    · rw [htable] at hf
      cases hf

theorem MapsPage.usable {m : Nat} (h : MapsPage kernel n kind s s') (hm : m < 2 ^ 27) (huse : Usable kernel s.ram m) :
    Usable kernel s'.ram m := by
  obtain ⟨tr, hw, hwritable⟩ := huse
  obtain ⟨tr', hw', -, hwritable'⟩ := h.walks m hm tr hw
  exact ⟨tr', hw', hwritable' hwritable⟩

/-- The region after a page is mapped. -/
theorem StackRegion.mapped {bound' : Nat} (h : StackRegion kernel top pml4s low bound words kind s)
    (hinv : KernelInv kernel top pml4s kind' s') (hleft : s'.frames <:+ s.frames)
    (hmaps : MapsPage kernel n kind s s') (hbound : bound ≤ bound') (hn : n < bound') (hsmall : bound' ≤ 2 ^ 27)
    (hready : s'.frames ≠ [] → ∀ m, bound ≤ m → m < bound' → Usable kernel s'.ram m) :
    StackRegion kernel top pml4s low bound' words kind' s' := by
  have hne : s'.frames ≠ [] → s.frames ≠ [] := fun hne hnil => hne (List.suffix_nil.mp (hnil ▸ hleft))
  constructor
  case toKernelInv => exact hinv
  case clear =>
    intro hframes m hm hlt
    rw [hmaps.leaves m hlt (by omega)]
    exact h.clear (hne hframes) m (by omega) hlt
  case ready =>
    intro hframes m hlow hm
    by_cases hold : m < bound
    · exact MapsPage.usable hmaps (by omega) (h.ready (hne hframes) m hlow hold)
    · exact hready hframes m (by omega) hm
  case words =>
    intro x hx
    obtain ⟨hword, hread⟩ := h.words x hx
    obtain ⟨m, hm, hpage⟩ := StackWord.page hword h.small
    refine ⟨StackWord.mono hword hbound, readWord_kept h.toKernelInv hm hpage hread (fun tr hw => ?_) hmaps.data⟩
    obtain ⟨tr', hw', hframe, -⟩ := hmaps.walks m hm tr hw
    exact ⟨tr', hw', hframe⟩
  case small => exact hsmall

/-- The next page is mapped in the kernel's tables, to the first of the frames that are left. -/
theorem mapTo_next (hc : c.Lawful) (h : StackRegion kernel top pml4s low n words kind s) (hn : n < 2 ^ 27)
    (hframes : s.frames = frame :: frames) (hpool : s.frames ⊆ pool) :
    Ends (mapTo c kernel (anchorPage + n) frame kernelFlags) { s with frames := frames }
      (fun result s' => ∃ kind', StackRegion kernel top pml4s low (n + 1) words kind' s' ∧
        KernelWork pool kind s kind' s' ∧ Spare kind' (anchorPage + n) frame s'.frames ∧
        (s'.frames ≠ [] → result = .ok ()))
      fun _ => False := by
  have hfree : Free kind (frame :: frames) := hframes ▸ h.free
  have hne : s.frames ≠ [] := hframes ▸ List.cons_ne_nil frame frames
  have hleft : frames <:+ s.frames := hframes ▸ List.suffix_cons frame frames
  have hspare : Spare kind (anchorPage + n) frame frames := hfree.take
  have htake : KernelWork pool kind s kind { s with frames := frames } :=
    { KernelWork.refl pool kind s with left := hleft }
  have hinv : KernelInv kernel top pml4s kind { s with frames := frames } :=
    KernelInv.work h.toKernelInv htake h.shape hfree.tail
  refine ends_mapTo_kernel hc hinv List.mem_cons_self hspare (hpool (hframes ▸ List.mem_cons_self))
    (fun f hf => hpool (hleft.subset hf)) (h.slot hne) (index_stack hn)
    fun kind' used out s' hmap heffect hram hout hinv' hwork => ?_
  have hmaps := mapsPage_of_effect hinv hinv' List.mem_cons_self hn hspare hmap heffect hram
  have hok : s'.frames ≠ [] → out.result = .ok () := by
    intro hne'
    refine (hmap.ok_or_exhausted (Nat.le_refl 3) h.shape (holds_stack hinv List.mem_cons_self hn) hspare.toFree
      (h.clear hne n (Nat.le_refl n) hn)).resolve_right fun hnil => hne' (hout.trans hnil)
  refine ⟨kind', ?_, KernelWork.trans htake hwork, hout ▸ heffect.spare hspare, hok⟩
  refine StackRegion.mapped h hinv' (hwork.left.trans hleft) ⟨hmaps.leaves, hmaps.walks, hmaps.data⟩
    (Nat.le_succ n) (Nat.lt_succ_self n) hn fun hne' m hm hlt => ?_
  obtain rfl : m = n := by omega
  obtain ⟨tr, hw, -, hwritable⟩ := heffect.walks (hok hne')
  exact ⟨tr, hram ▸ hw, hwritable⟩

/-- It is mapped once more, through the PML4 of a process. -/
theorem mapTo_again (hc : c.Lawful) (h : StackRegion kernel top pml4s low (n + 1) words kind s)
    (hr : r ∈ kernel :: pml4s) (hspare : Spare kind (anchorPage + n) frame s.frames) (hframe : frame ∈ pool)
    (hpool : s.frames ⊆ pool) (hslot : (top stackSlot).flags.union kernelFlags = (top stackSlot).flags) :
    Ends (mapTo c r (anchorPage + n) frame kernelFlags) s
      (fun _ s' => ∃ kind', StackRegion kernel top pml4s low (n + 1) words kind' s' ∧ KernelWork pool kind s kind' s')
      fun _ => False := by
  have hn : n < 2 ^ 27 := h.small
  refine ends_mapTo_kernel hc h.toKernelInv hr hspare hframe hpool hslot (index_stack hn)
    fun kind' used out s' hmap heffect hram _ hinv' hwork => ⟨kind', ?_, hwork⟩
  have hmaps := mapsPage_of_effect h.toKernelInv hinv' hr hn hspare hmap heffect hram
  exact StackRegion.mapped h hinv' hwork.left hmaps (Nat.le_refl _) (Nat.lt_succ_self n) h.small
    fun _ m hm hlt => absurd hlt (Nat.not_lt.mpr hm)

/-- A page of the region has a successor. -/
theorem canonical_next (hn : n < 2 ^ 27) : canonical ((anchorPage + n + 1) * 4096) = true := by
  rw [canonical_iff]
  right
  show 2 ^ 64 - 2 ^ 47 ≤ (0xFFFFFE0000000000 / 4096 + n + 1) * 4096 ∧
    (0xFFFFFE0000000000 / 4096 + n + 1) * 4096 < 2 ^ 64
  omega

/-- The loop of `Task::new`. It panics only if the allocator has run out. -/
theorem mapStackPages_ready (hc : c.Lawful) : ∀ (count n : Nat) {kind : Frame → Kind} {s : PhysMem},
    StackRegion kernel top pml4s low n words kind s → n + count ≤ 2 ^ 27 → s.frames ⊆ pool →
    Ends (mapStackPages c kernel count (anchorPage + n)) s
      (fun _ s' => ∃ kind', StackRegion kernel top pml4s low (n + count) words kind' s' ∧
        KernelWork pool kind s kind' s')
      fun s' => s'.frames = []
  | 0, n, kind, s, h, _, _ => ⟨kind, h, KernelWork.refl pool kind s⟩
  | count + 1, n, kind, s, h, hend, hpool => by
    have hn : n < 2 ^ 27 := by omega
    unfold mapStackPages
    rw [ends_bind, ends_nextPage]
    refine ⟨fun _ => ?_, fun hnot => absurd (.inr (canonical_next hn)) hnot⟩
    rw [ends_expect_allocateFrame]
    refine ⟨id, fun frame frames hframes => ?_⟩
    rw [ends_bind]
    refine (mapTo_next hc h hn hframes hpool).mono ?_ fun _ h => h.elim
    rintro result s₁ ⟨kind₁, h₁, hwork₁, -, hok⟩
    rw [ends_bind, ends_expectOk]
    refine ⟨fun _ => ?_, fun e hresult => ?_⟩
    · refine (mapStackPages_ready hc count (n + 1) h₁ (by omega) fun f hf => hpool (hwork₁.left.subset hf)).mono ?_
        fun _ h => h
      rintro _ s₂ ⟨kind₂, h₂, hwork₂⟩
      rw [Nat.add_assoc, Nat.add_comm 1 count] at h₂
      exact ⟨kind₂, h₂, KernelWork.trans hwork₁ hwork₂⟩
    · by_contra hne
      rw [hok hne] at hresult
      cases hresult

/-- The loop of `Task::new_user`. -/
theorem mapUserTaskPages_ready (hc : c.Lawful) (hr : r ∈ pml4s) :
    ∀ (count n : Nat) {kind : Frame → Kind} {s : PhysMem},
    StackRegion kernel top pml4s low n words kind s → n + count ≤ 2 ^ 27 → s.frames ⊆ pool →
    Ends (mapUserTaskPages c kernel r count (anchorPage + n)) s
      (fun _ s' => ∃ kind', StackRegion kernel top pml4s low (n + count) words kind' s' ∧
        KernelWork pool kind s kind' s')
      fun s' => s'.frames = []
  | 0, n, kind, s, h, _, _ => ⟨kind, h, KernelWork.refl pool kind s⟩
  | count + 1, n, kind, s, h, hend, hpool => by
    have hn : n < 2 ^ 27 := by omega
    unfold mapUserTaskPages
    rw [ends_bind, ends_nextPage]
    refine ⟨fun _ => ?_, fun hnot => absurd (.inr (canonical_next hn)) hnot⟩
    rw [ends_expect_allocateFrame]
    refine ⟨id, fun frame frames hframes => ?_⟩
    have hslot := h.slot (hframes ▸ List.cons_ne_nil frame frames)
    rw [ends_bind]
    refine (mapTo_next hc h hn hframes hpool).mono ?_ fun _ h => h.elim
    rintro _ s₁ ⟨kind₁, h₁, hwork₁, hspare₁, -⟩
    have hpool₁ : s₁.frames ⊆ pool := fun f hf => hpool (hwork₁.left.subset hf)
    rw [ends_bind]
    refine (mapTo_again hc h₁ (List.mem_cons_of_mem _ hr) hspare₁ (hpool (hframes ▸ List.mem_cons_self)) hpool₁
      hslot).mono ?_ fun _ h => h.elim
    rintro _ s₂ ⟨kind₂, h₂, hwork₂⟩
    refine (mapUserTaskPages_ready hc hr count (n + 1) h₂ (by omega)
      fun f hf => hpool₁ (hwork₂.left.subset hf)).mono ?_ fun _ h => h
    rintro _ s₃ ⟨kind₃, h₃, hwork₃⟩
    rw [Nat.add_assoc, Nat.add_comm 1 count] at h₃
    exact ⟨kind₃, h₃, KernelWork.trans hwork₁ (KernelWork.trans hwork₂ hwork₃)⟩

/-! ## Writing words -/

/-- A frame is mapped as one page of the region only. -/
theorem page_unique {m m' : Nat} (h : KernelInv kernel top pml4s kind s) (hm : m < 2 ^ 27) (hm' : m' < 2 ^ 27)
    {tr tr' : Translation} (hw : walk s.ram 3 kernel (anchorPage + m) = some tr)
    (hw' : walk s.ram 3 kernel (anchorPage + m') = some tr') (heq : tr.frame = tr'.frame) : m = m' := by
  have hkind := kind_stack h hm hw
  have hkind' := kind_stack h hm' hw'
  rw [heq, hkind'] at hkind
  exact ((position_stack hm' hm).mp (Kind.data.inj hkind)).symm

/-- A word has one place. -/
theorem StackWord.eq_of_index {va' m : Nat} (h : StackWord bound va) (h' : StackWord bound va')
    (hpage : va / 4096 = anchorPage + m) (hpage' : va' / 4096 = anchorPage + m)
    (hindex : Fin.ofNat 512 (va % 4096 / 8) = Fin.ofNat 512 (va' % 4096 / 8)) : va = va' := by
  have haligned := h.aligned
  have haligned' := h'.aligned
  have hval : va % 4096 / 8 % 512 = va' % 4096 / 8 % 512 := congrArg Fin.val hindex
  omega

/-- The region after a write. -/
theorem StackRegion.store (h : StackRegion kernel top pml4s low bound words kind s) {m word : Nat}
    (hva : StackWord bound va) (hpage : va / 4096 = anchorPage + m) (hm : m < 2 ^ 27)
    (hnew : ∀ x ∈ words, x.1 ≠ va) (hword : word < 2 ^ 64) {tr : Translation}
    (hw : walk s.ram 3 kernel (anchorPage + m) = some tr) {ram : Ram}
    (hram : ram = s.ram.set tr.frame (Fin.ofNat 512 (va % 4096 / 8)) (.ofBits (BitVec.ofNat 64 word)))
    (hinv : KernelInv kernel top pml4s kind { s with ram := ram }) :
    StackRegion kernel top pml4s low bound ((va, word) :: words) kind { s with ram := ram } := by
  have hdata := kind_stack h.toKernelInv hm hw
  have hinner : ∀ f i l k, Inner (kernelSlots kernel) kind l k f i → ram f = s.ram f := by
    intro f i l k hin
    rw [hram]
    refine Ram.set_of_frame_ne ?_ _ _
    rintro rfl
    rcases hin with htable | ⟨-, -, hroot, -⟩
    · rw [hdata] at htable
      cases htable
    · rw [hdata] at hroot
      cases hroot
  have hwalk : ∀ k < 2 ^ 27, walk ram 3 kernel (anchorPage + k) = walk s.ram 3 kernel (anchorPage + k) :=
    fun k hk => h.shape.walk_kept hinner (Nat.le_refl 3) (holds_stack h.toKernelInv List.mem_cons_self hk)
  constructor
  case toKernelInv => exact hinv
  case clear =>
    intro hne n hbound hn
    rw [← h.clear hne n hbound hn]
    exact h.shape.leafAt_congr (Nat.le_refl 3) (holds_stack h.toKernelInv List.mem_cons_self hn)
      fun l f _ hf => .inl (congrFun (hinner f _ _ _ hf) _)
  case ready =>
    intro hne n hlow hn
    unfold Usable
    rw [hwalk n (Nat.lt_of_lt_of_le hn h.small)]
    exact h.ready hne n hlow hn
  case words =>
    intro x hx
    rcases List.mem_cons.mp hx with rfl | hx
    · refine ⟨hva, ?_⟩
      unfold readWord
      dsimp only
      rw [hpage, hwalk m hm, hw, Option.map_some, hram, Ram.set_self, Entry.bits_ofBits, BitVec.toNat_ofNat,
        Nat.mod_eq_of_lt hword]
    · obtain ⟨hx', hread⟩ := h.words x hx
      refine ⟨hx', ?_⟩
      obtain ⟨k, hk, hpage'⟩ := StackWord.page hx' h.small
      unfold readWord at hread ⊢
      dsimp only
      rw [hpage'] at hread ⊢
      rw [hwalk k hk]
      obtain ⟨tr', hw', hword'⟩ := Option.map_eq_some_iff.mp hread
      rw [hw', Option.map_some, hram, Ram.set_of_ne, hword']
      -- the same word of the same frame would be the same address
      rintro ⟨hframe, hindex⟩
      obtain rfl := page_unique h.toKernelInv hk hm hw' hw hframe
      exact hnew x hx (StackWord.eq_of_index hx' hva hpage' hpage hindex)
  case small => exact h.small

/-- A write to a page that can be used. -/
theorem writeWord_region (h : StackRegion kernel top pml4s low bound words kind s) {m word : Nat}
    (hva : StackWord bound va) (hpage : va / 4096 = anchorPage + m) (hlow : low ≤ m) (hm : m < bound)
    (hnew : ∀ x ∈ words, x.1 ≠ va) (hword : word < 2 ^ 64) :
    Ends (writeWord kernel va word) s
      (fun _ s' => StackRegion kernel top pml4s low bound ((va, word) :: words) kind s' ∧
        ∀ pool, KernelWork pool kind s kind s')
      fun s' => s'.frames = [] := by
  have hlt : m < 2 ^ 27 := Nat.lt_of_lt_of_le hm h.small
  have hready : s.frames ≠ [] → Usable kernel s.ram m := fun hne => h.ready hne m hlow hm
  unfold writeWord
  rw [ends_bind, ends_get, ends_bind, ends_expect, hpage]
  refine ⟨fun tr hw => ?_, fun hnone => ?_⟩
  · rw [ends_bind, ends_ensure]
    refine ⟨fun _ => ?_, fun hnot => ?_⟩
    · have hdata : kernelData va := .inr (by rw [hpage]; exact index_stack hlt)
      obtain ⟨hinv, hwork⟩ := KernelInv.store h.toKernelInv hdata (hpage ▸ hw) (Fin.ofNat 512 (va % 4096 / 8))
        (.ofBits (BitVec.ofNat 64 word))
      exact ⟨StackRegion.store h hva hpage hlt hnew hword hw rfl hinv, hwork⟩
    · by_contra hne
      obtain ⟨tr', hw', hwritable⟩ := hready hne
      rw [hw] at hw'
      cases hw'
      rw [hnot] at hwritable
      cases hwritable
  · by_contra hne
    obtain ⟨tr', hw', -⟩ := hready hne
    rw [hnone] at hw'
    cases hw'

theorem StackRegion.reword (h : StackRegion kernel top pml4s low bound words kind s) {words' : List (Nat × Nat)}
    (hsub : ∀ x ∈ words', x ∈ words) : StackRegion kernel top pml4s low bound words' kind s :=
  { h with words := fun x hx => h.words x (hsub x hx) }

theorem room_next {a l sp : Nat} (h : a + 8 * (l + 1) ≤ sp) : a + 8 * l ≤ sp - 8 ∧ 8 ≤ sp := by omega

theorem page_between {m : Nat} (hpage : va / 4096 = anchorPage + m)
    (hlow : kernelStackRegionBase + low * 4096 ≤ va) (hhigh : va < kernelStackRegionBase + bound * 4096) :
    low ≤ m ∧ m < bound := by
  rw [regionBase_eq] at hlow hhigh
  omega

/-- The words of a frame go below each other, into pages that can be used. -/
theorem pushFrame_region : ∀ {ws : List Nat} {sp : Nat} {words : List (Nat × Nat)} {s : PhysMem},
    StackRegion kernel top pml4s low bound words kind s → sp % 8 = 0 →
    kernelStackRegionBase + low * 4096 + 8 * ws.length ≤ sp → sp ≤ kernelStackRegionBase + bound * 4096 →
    (∀ x ∈ words, x.1 + 8 * ws.length < sp ∨ sp ≤ x.1) → (∀ w ∈ ws, w < 2 ^ 64) →
    Ends (pushFrame kernel ws sp) s
      (fun sp' s' => sp' = sp - 8 * ws.length ∧
        StackRegion kernel top pml4s low bound (pushed ws sp ++ words) kind s' ∧ ∀ pool, KernelWork pool kind s kind s')
      fun s' => s'.frames = []
  | [], sp, words, s, h, _, _, _, _, _ => ⟨rfl, h, fun pool => KernelWork.refl pool kind s⟩
  | word :: ws, sp, words, s, h, haligned, hlow, hhigh, hapart, hwords => by
    rw [List.length_cons] at hlow hapart
    obtain ⟨hlow', hpos⟩ := room_next hlow
    have hhigh' : sp - 8 ≤ kernelStackRegionBase + bound * 4096 := Nat.le_trans (Nat.sub_le sp 8) hhigh
    have hva : StackWord bound (sp - 8) := by
      refine ⟨by omega, ?_, Nat.lt_of_lt_of_le (by omega) hhigh⟩
      exact Nat.le_trans (Nat.le_trans (Nat.le_add_right _ _) (Nat.le_add_right _ _)) hlow'
    obtain ⟨m, hm, hpage⟩ := StackWord.page hva h.small
    obtain ⟨hlow_m, hbound_m⟩ := page_between hpage (Nat.le_trans (Nat.le_add_right _ _) hlow') hva.below
    unfold pushFrame
    rw [ends_bind]
    refine (writeWord_region h hva hpage hlow_m hbound_m (fun x hx => ?_)
      (hwords word List.mem_cons_self)).mono ?_ fun _ h => h
    · have := hapart x hx
      omega
    · rintro _ s₁ ⟨h₁, hwork₁⟩
      refine (pushFrame_region h₁ (by omega) hlow' hhigh' (fun x hx => ?_)
        fun w hw => hwords w (List.mem_cons_of_mem _ hw)).mono ?_ fun _ h => h
      · rcases List.mem_cons.mp hx with rfl | hx
        · exact .inr (Nat.le_refl _)
        · have := hapart x hx
          omega
      · rintro sp' s₂ ⟨rfl, h₂, hwork₂⟩
        refine ⟨?_, StackRegion.reword h₂ fun x hx => ?_, fun pool => KernelWork.trans (hwork₁ pool) (hwork₂ pool)⟩
        · rw [List.length_cons]
          omega
        · unfold pushed at hx
          rcases List.mem_cons.mp hx with rfl | hx
          · exact List.mem_append_right _ List.mem_cons_self
          · rcases List.mem_append.mp hx with hx | hx
            · exact List.mem_append_left _ hx
            · exact List.mem_append_right _ (List.mem_cons_of_mem _ hx)

/-! ## A new task -/

theorem StackRegion.advance (h : StackRegion kernel top pml4s low bound words kind s) {next : Nat}
    (hle : bound ≤ next) (hsmall : next ≤ 2 ^ 27) : StackRegion kernel top pml4s next next words kind s :=
  { h with
    clear := fun hne n hn => h.clear hne n (Nat.le_trans hle hn)
    ready := fun _ _ hn hlt => absurd hlt (Nat.not_lt.mpr hn)
    words := fun x hx => ⟨StackWord.mono (h.words x hx).1 hle, (h.words x hx).2⟩
    small := hsmall }

theorem mapKernelTaskStack_ready (hc : c.Lawful) {id : Nat}
    (h : StackRegion kernel top pml4s (id * 10) (id * 10) words kind s) (hid : (id + 1) * 10 ≤ 2 ^ 27)
    (hpool : s.frames ⊆ pool) :
    Ends (mapKernelTaskStack c kernel id) s
      (fun _ s' => ∃ kind', StackRegion kernel top pml4s (id * 10 + 1) (id * 10 + 9) words kind' s' ∧
        KernelWork pool kind s kind' s')
      fun s' => s'.frames = [] :=
  mapStackPages_ready hc 8 (id * 10 + 1) (StackRegion.advance h (Nat.le_succ _) (by omega)) (by omega) hpool

theorem mapUserTaskStack_ready (hc : c.Lawful) (hr : r ∈ pml4s) {id : Nat}
    (h : StackRegion kernel top pml4s (id * 10) (id * 10) words kind s) (hid : (id + 1) * 10 ≤ 2 ^ 27)
    (hpool : s.frames ⊆ pool) :
    Ends (mapUserTaskStack c kernel r id) s
      (fun _ s' => ∃ kind', StackRegion kernel top pml4s (id * 10 + 1) (id * 10 + 9) words kind' s' ∧
        KernelWork pool kind s kind' s')
      fun s' => s'.frames = [] :=
  mapUserTaskPages_ready hc hr 8 (id * 10 + 1) (StackRegion.advance h (Nat.le_succ _) (by omega)) (by omega) hpool

theorem stackTop_eq (id : Nat) : stackTop id = kernelStackRegionBase + (id * 10 + 9) * 4096 := by
  unfold stackTop stackBottom stackStride
  omega

/-- The twenty words of a context are in the last page of a stack. -/
theorem frame_room (base id : Nat) : base + (id * 10 + 1) * 4096 + 8 * 20 ≤ base + (id * 10 + 9) * 4096 := by
  omega

theorem frame_apart {base id va : Nat} (h : va < base + id * 10 * 4096) :
    va + 8 * 20 < base + (id * 10 + 9) * 4096 := by
  omega

/-- The context of a new task is written to its stack, which has been mapped. -/
theorem pushFrame_task {id : Nat} {ws : List Nat}
    (h : StackRegion kernel top pml4s (id * 10 + 1) (id * 10 + 9) words kind s)
    (hid : (id + 1) * 10 ≤ 2 ^ 27) (hwords : ∀ x ∈ words, StackWord (id * 10) x.1) (hlength : ws.length = 20)
    (hws : ∀ w ∈ ws, w < 2 ^ 64) :
    Ends (pushFrame kernel ws (stackTop id)) s
      (fun sp s' => sp = stackTop id - 160 ∧
        StackRegion kernel top pml4s ((id + 1) * 10) ((id + 1) * 10) (pushed ws (stackTop id) ++ words) kind s' ∧
        ∀ pool, KernelWork pool kind s kind s')
      fun s' => s'.frames = [] := by
  refine (pushFrame_region h (MachineLemmas.stackTop_mod id) ?_ ?_ (fun x hx => .inl ?_) hws).mono ?_ fun _ h => h
  · rw [hlength, stackTop_eq]
    exact frame_room _ _
  · exact Nat.le_of_eq (stackTop_eq id)
  · rw [hlength, stackTop_eq]
    exact frame_apart (hwords x hx).below
  · rintro sp s' ⟨rfl, h', hwork⟩
    rw [hlength]
    exact ⟨rfl, StackRegion.advance h' (by omega) hid, hwork⟩

end StackFrameLemmas

end Turnix

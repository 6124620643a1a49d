import Turnix.HeapAssertions
import Turnix.Lib.Chain

/-!
# The region list in memory

`linked_list.rs` again, with the nodes where they are: `head` in the allocator, each other node at the start of its
region. `find_region` walks along the nodes with a reference to the node in front, and unlinks with two calls of
`take`. `Holds` says which regions such a list has.

* `find_region_first_fit`: the walk is the search of the region list that the heap is modelled with
  (`findRegion_refines`), and so exact first fit.
* `region_list_in_memory`: in every state of the heap's runs the operations on the nodes are those on the regions,
  so that what holds of the heap holds of the lists in memory.
-/

namespace Turnix

open Lib

/-- `ListNode` of the region list; a reference to a node is its address. -/
structure ListNode where
  size : Nat
  next : Option Nat
deriving DecidableEq, Repr

/-- Where a node is: `head`, or at an address. -/
inductive Place
  | head
  | node (addr : Nat)
deriving DecidableEq, Repr

/-- `LinkedListAllocator` and the memory that its list is threaded through. -/
structure FreeList where
  node : Place → ListNode

namespace FreeList

/-- `LinkedListAllocator::new`, with the memory as it is. -/
def new (memory : Nat → ListNode) : FreeList where
  node
    | .head => ⟨0, none⟩
    | .node addr => memory addr

/-- The node behind a node. -/
def next (l : FreeList) (p : Place) : Option Place := (l.node p).next.map .node

/-- The region of a node, from `start_addr` to `end_addr`. -/
def region (l : FreeList) (addr : Nat) : Span := ⟨addr, (l.node (.node addr)).size⟩

/-- Write a node. -/
def write (l : FreeList) (p : Place) (n : ListNode) : FreeList := ⟨Function.update l.node p n⟩

/-- `p.next = next`. -/
def setNext (l : FreeList) (p : Place) (next : Option Nat) : FreeList := l.write p ⟨(l.node p).size, next⟩

/-- `p.next.take()`. -/
def takeNext (l : FreeList) (p : Place) : Option Nat × FreeList := ((l.node p).next, l.setNext p none)

/-- `Option::unwrap`. -/
def unwrap (o : Option Nat) : Except Panic Nat := expect "called `Option::unwrap()` on a `None` value" o

/-- A new node between `head` and the rest. -/
def pushFront (l : FreeList) (addr size : Nat) : FreeList :=
  let (next, l) := l.takeNext .head
  (l.write (.node addr) ⟨size, next⟩).setNext .head (some addr)

/-- `add_free_region`. -/
def addFreeRegion (l : FreeList) (addr size : Nat) : Except Panic FreeList := do
  ensure ((← alignUp addr nodeAlign) = addr) "assertion `left == right` failed"
  ensure (size ≥ nodeSize) "assertion failed: size >= core::mem::size_of::<ListNode>()"
  return l.pushFront addr size

/-- `current.next.take().unwrap()`, and what is behind that node becomes the next one of `current`. -/
def unlinkNext (l : FreeList) (current : Place) : Except Panic (Nat × FreeList) := do
  let (taken, l) := l.takeNext current
  let nextNode ← unwrap taken
  let (rest, l) := l.takeNext (.node nextNode)
  return (nextNode, l.setNext current rest)

/-- The loop of `find_region`, at most `fuel` times around. -/
def findRegionFrom (l : FreeList) (size align : Nat) :
    Nat → Place → Option (Except Panic (Option (Nat × Nat) × FreeList))
  | 0, _ => none
  | fuel + 1, current =>
    match (l.node current).next with
    | none => some (.ok (none, l))
    | some next =>
      match LinkedListAllocator.allocFromRegion (l.region next) size align with
      | .error p => some (.error p)
      | .ok (some allocStart) => some do
        let (nextNode, l) ← l.unlinkNext current
        return (some (nextNode, allocStart), l)
      | .ok none =>
        match unwrap (l.node current).next with
        | .error p => some (.error p)
        | .ok next => l.findRegionFrom size align fuel (.node next)

/-- `find_region`. -/
def findRegion (l : FreeList) (size align fuel : Nat) : Option (Except Panic (Option (Nat × Nat) × FreeList)) :=
  l.findRegionFrom size align fuel .head

/-- `allocate`, behind the search. -/
def carve (l : FreeList) (size : Nat) : Option (Nat × Nat) → Except Panic (Nat × FreeList)
  | none => return (0, l)
  | some (node, allocStart) => do
    let allocEnd ← expect "overflow" (checkedAdd allocStart size)
    let endAddr ← add64 (l.region node).start (l.region node).size
    let excessSize ← usub endAddr allocEnd
    if excessSize > 0 then
      return (allocStart, ← l.addFreeRegion allocEnd excessSize)
    else return (allocStart, l)

/-- `allocate`; a null pointer is 0. -/
def allocate (l : FreeList) (layout : Layout) (fuel : Nat) : Option (Except Panic (Nat × FreeList)) :=
  match LinkedListAllocator.sizeAlign layout with
  | .error p => some (.error p)
  | .ok (size, align) => (l.findRegion size align fuel).map (· >>= fun found => found.2.carve size found.1)

/-- `deallocate`. -/
def deallocate (l : FreeList) (ptr : Nat) (layout : Layout) : Except Panic FreeList := do
  let (size, _) ← LinkedListAllocator.sizeAlign layout
  l.addFreeRegion ptr size

/-- The nodes of the regions. -/
def places (regions : List Span) : List Place := regions.map fun region => .node region.start

/-- The list has these regions, in this order. A reference is not null. -/
structure Holds (l : FreeList) (regions : List Span) : Prop where
  chain : Chain l.next (l.next .head) (places regions)
  size : ∀ region ∈ regions, (l.node (.node region.start)).size = region.size
  nonnull : ∀ region ∈ regions, region.start ≠ 0

end FreeList

/-- The sums of `alloc_from_region` are addresses. -/
def Addressable (align : Nat) (region : Span) : Prop :=
  region.start + align < 2 ^ 64 ∧ region.start + region.size < 2 ^ 64

instance (align : Nat) (region : Span) : Decidable (Addressable align region) := inferInstanceAs (Decidable (_ ∧ _))

open LinkedListAllocator in
/-- What `find_region` has found in a list, and the list that it leaves. -/
structure FirstFit (l : FreeList) (regions : List Span) (size align : Nat) (found : Option (Nat × Nat))
    (l' : FreeList) : Prop where
  none_iff : found = none ↔ ∀ region ∈ regions, allocFromRegion region size align = .ok none
  unchanged : found = none → l' = l
  first : ∀ node start, found = some (node, start) → ∃ before region after, regions = before ++ region :: after ∧
    l'.region node = region ∧ (∀ r ∈ before, allocFromRegion r size align = .ok none) ∧
    allocFromRegion region size align = .ok (some start) ∧
    (align ∣ start ∧ region.start ≤ start ∧ ∀ addr, align ∣ addr → region.start ≤ addr → start ≤ addr) ∧
    l'.Holds (before ++ after)

/-! ## The walk -/

namespace FreeListLemmas

open FreeList HeapLemmas

variable {l l' : FreeList} {p q : Place} {regions : List Span}

theorem write_self (n : ListNode) : (l.write p n).node p = n := Function.update_self _ _ _

theorem write_of_ne (n : ListNode) (h : q ≠ p) : (l.write p n).node q = l.node q := Function.update_of_ne h _ _

theorem setNext_self (link : Option Nat) : (l.setNext p link).node p = ⟨(l.node p).size, link⟩ := write_self _

theorem setNext_of_ne (link : Option Nat) (h : q ≠ p) : (l.setNext p link).node q = l.node q := write_of_ne _ h

theorem setNext_size (link : Option Nat) : ((l.setNext p link).node q).size = (l.node q).size := by
  by_cases h : q = p
  · rw [h, setNext_self]
  · rw [setNext_of_ne _ h]

theorem places_cons (r : Span) (rest : List Span) : places (r :: rest) = .node r.start :: places rest := rfl

/-- A list in which a node has been taken out behind `current`. -/
structure Unlinked (l l' : FreeList) (current : Place) (regions : List Span) (region : Span)
    (rest : List Span) : Prop where
  chain : Chain l'.next (l'.next current) (places rest)
  size : ∀ p, (l'.node p).size = (l.node p).size
  frame : ∀ p, p ≠ current → p ∉ places regions → l'.node p = l.node p
  member : region ∈ regions
  within : ∀ r ∈ rest, r ∈ regions

/-- The walk over the nodes has found what the search of the regions has. -/
inductive Found (l : FreeList) (current : Place) (regions : List Span) :
    Option (Nat × Nat) × FreeList → Option (Span × Nat × List Span) → Prop
  | none : Found l current regions (none, l) none
  | some {l' : FreeList} {region : Span} {start : Nat} {rest : List Span} :
      Unlinked l l' current regions region rest →
      Found l current regions (some (region.start, start), l') (some (region, start, rest))

theorem unlinkNext_ok {current : Place} {region : Span} {rest : List Span}
    (hnodup : (current :: places (region :: rest)).Nodup)
    (hchain : Chain l.next (l.next current) (places (region :: rest))) :
    ∃ l', l.unlinkNext current = .ok (region.start, l') ∧ Unlinked l l' current (region :: rest) region rest := by
  rw [places_cons] at hnodup hchain
  obtain ⟨hlink, hrest⟩ := chain_cons_iff.mp hchain
  obtain ⟨addr, haddr, hplace⟩ := Option.map_eq_some_iff.mp hlink
  cases hplace
  obtain ⟨hcur, htail⟩ := List.nodup_cons.mp hnodup
  obtain ⟨hcurrent, hcurrent'⟩ := List.ne_and_not_mem_of_not_mem_cons hcur
  obtain ⟨hregion, -⟩ := List.nodup_cons.mp htail
  have hbehind : (l.setNext current none).node (.node region.start) = l.node (.node region.start) :=
    setNext_of_ne none (Ne.symm hcurrent)
  -- the two `take`s and the assignment
  refine ⟨((l.setNext current none).setNext (.node region.start) none).setNext current
    (l.node (.node region.start)).next, ?_, ⟨?_, ?_, ?_, List.mem_cons_self, fun r hr => List.mem_cons_of_mem _ hr⟩⟩
  · simp only [unlinkNext, takeNext, haddr, unwrap, expect, bind, Except.bind, hbehind]
    rfl
  · rw [FreeList.next, setNext_self]
    refine hrest.congr fun p hp => ?_
    have hne : p ≠ current := fun h => hcurrent' (h ▸ hp)
    have hne' : p ≠ .node region.start := fun h => hregion (h ▸ hp)
    rw [FreeList.next, setNext_of_ne _ hne, setNext_of_ne _ hne', setNext_of_ne _ hne]
    rfl
  · intro p
    rw [setNext_size, setNext_size, setNext_size]
  · intro p hne hp
    rw [places_cons] at hp
    rw [setNext_of_ne _ hne, setNext_of_ne _ (List.ne_of_not_mem_cons hp), setNext_of_ne _ hne]

/-- A node that the walk has passed stays in front of the rest. -/
theorem Unlinked.cons {current : Place} {r region : Span} {rest : List Span}
    (hlink : l.next current = some (.node r.start)) (hnodup : (current :: places (r :: regions)).Nodup)
    (h : Unlinked l l' (.node r.start) regions region rest) :
    Unlinked l l' current (r :: regions) region (r :: rest) := by
  obtain ⟨hcur, -⟩ := List.nodup_cons.mp hnodup
  obtain ⟨hcurrent, hcurrent'⟩ := List.ne_and_not_mem_of_not_mem_cons hcur
  refine ⟨chain_cons_iff.mpr ⟨?_, h.chain⟩, h.size, fun p _ hp => ?_, List.mem_cons_of_mem _ h.member, ?_⟩
  · rw [FreeList.next, h.frame current hcurrent hcurrent']
    exact hlink
  · obtain ⟨hp, hp'⟩ := List.ne_and_not_mem_of_not_mem_cons hp
    exact h.frame p hp hp'
  · exact List.forall_mem_cons.mpr ⟨List.mem_cons_self, fun x hx => List.mem_cons_of_mem _ (h.within x hx)⟩

theorem findRegionFrom_refines {size align : Nat} : ∀ {regions : List Span} {current : Place} {fuel : Nat},
    (current :: places regions).Nodup → Chain l.next (l.next current) (places regions) →
    (∀ r ∈ regions, (l.node (.node r.start)).size = r.size) → regions.length < fuel →
    ∃ result, l.findRegionFrom size align fuel current = some result ∧
      Refines (Found l current regions) result (LinkedListAllocator.findRegion size align regions)
  | _, _, 0, _, _, _, hfuel => absurd hfuel (Nat.not_lt_zero _)
  | [], current, fuel + 1, _, hchain, _, _ => by
    have hnone : (l.node current).next = none := Option.map_eq_none_iff.mp (chain_nil_iff.mp hchain)
    refine ⟨.ok (none, l), ?_, .ok .none⟩
    simp only [findRegionFrom, hnone]
  | r :: rest, current, fuel + 1, hnodup, hchain, hsize, hfuel => by
    obtain ⟨hlink, hrest⟩ := chain_cons_iff.mp hchain
    obtain ⟨addr, haddr, hplace⟩ := Option.map_eq_some_iff.mp hlink
    cases hplace
    have hregion : l.region r.start = r := by
      rw [FreeList.region, hsize r List.mem_cons_self]
    simp only [findRegionFrom, haddr, hregion]
    unfold LinkedListAllocator.findRegion
    cases LinkedListAllocator.allocFromRegion r size align with
    | error p => exact ⟨.error p, rfl, .error p⟩
    | ok taken =>
      cases taken with
      | some start =>
        obtain ⟨l', hunlink, hl'⟩ := unlinkNext_ok hnodup hchain
        rw [hunlink]
        exact ⟨_, rfl, .ok (.some hl')⟩
      | none =>
        -- the reference moves on to the node that has just been tried
        obtain ⟨result, hwalk, hfound⟩ := @findRegionFrom_refines size align rest (.node r.start) fuel
          (List.nodup_cons.mp hnodup).2 hrest (fun x hx => hsize x (List.mem_cons_of_mem _ hx))
          (Nat.lt_of_succ_lt_succ hfuel)
        refine ⟨result, hwalk, ?_⟩
        show Refines _ result (LinkedListAllocator.findRegion size align rest >>= _)
        generalize LinkedListAllocator.findRegion size align rest = search at hfound
        cases hfound with
        | error p => exact .error p
        | ok hfound =>
          cases hfound with
          | none => exact .ok .none
          | some hl' => exact .ok (.some (hl'.cons hlink hnodup))

theorem new_holds (memory : Nat → ListNode) : (FreeList.new memory).Holds [] :=
  ⟨.nil, fun _ hr => absurd hr List.not_mem_nil, fun _ hr => absurd hr List.not_mem_nil⟩

theorem head_nodup (h : l.Holds regions) : (Place.head :: places regions).Nodup := by
  refine List.nodup_cons.mpr ⟨fun hmem => ?_, h.chain.nodup⟩
  obtain ⟨r, -, hr⟩ := List.mem_map.mp hmem
  cases hr

theorem findRegion_refines {size align fuel : Nat} (h : l.Holds regions) (hfuel : regions.length < fuel) :
    ∃ result, l.findRegion size align fuel = some result ∧
      Refines (Found l .head regions) result (LinkedListAllocator.findRegion size align regions) :=
  findRegionFrom_refines (head_nodup h) h.chain h.size hfuel

theorem Unlinked.holds {region : Span} {rest : List Span} (h : l.Holds regions)
    (hl' : Unlinked l l' .head regions region rest) : l'.Holds rest ∧ l'.region region.start = region := by
  refine ⟨⟨hl'.chain, fun r hr => ?_, fun r hr => h.nonnull r (hl'.within r hr)⟩, ?_⟩
  · rw [hl'.size]
    exact h.size r (hl'.within r hr)
  · rw [FreeList.region, hl'.size, h.size region hl'.member]

/-! ## The operations -/

theorem pushFront_eq (addr size : Nat) : l.pushFront addr size =
    ((l.setNext .head none).write (.node addr) ⟨size, (l.node .head).next⟩).setNext .head (some addr) := rfl

theorem pushFront_head (addr size : Nat) : (l.pushFront addr size).next .head = some (.node addr) := by
  rw [pushFront_eq, FreeList.next, setNext_self]
  rfl

theorem pushFront_new (addr size : Nat) :
    (l.pushFront addr size).node (.node addr) = ⟨size, (l.node .head).next⟩ := by
  rw [pushFront_eq, setNext_of_ne _ Place.noConfusion, write_self]

theorem pushFront_of_ne {addr r : Nat} (size : Nat) (h : Place.node r ≠ .node addr) :
    (l.pushFront addr size).node (.node r) = l.node (.node r) := by
  rw [pushFront_eq, setNext_of_ne _ Place.noConfusion, write_of_ne _ h, setNext_of_ne _ Place.noConfusion]

/-- The node of the new region is written where no node of the list is. -/
theorem pushFront_holds {addr size : Nat} (h : l.Holds regions) (haddr : addr ≠ 0)
    (hnew : .node addr ∉ places regions) : (l.pushFront addr size).Holds (⟨addr, size⟩ :: regions) := by
  have hold : ∀ r ∈ regions, (l.pushFront addr size).node (.node r.start) = l.node (.node r.start) := by
    refine fun r hr => pushFront_of_ne size fun heq => ?_
    exact hnew (heq ▸ List.mem_map_of_mem hr)
  refine ⟨chain_cons_iff.mpr ⟨pushFront_head addr size, ?_⟩, List.forall_mem_cons.mpr ⟨?_, fun r hr => ?_⟩,
    List.forall_mem_cons.mpr ⟨haddr, h.nonnull⟩⟩
  · rw [FreeList.next, pushFront_new]
    refine h.chain.congr fun p hp => ?_
    obtain ⟨r, hr, rfl⟩ := List.mem_map.mp hp
    rw [FreeList.next, hold r hr]
    rfl
  · rw [pushFront_new]
  · rw [hold r hr]
    exact h.size r hr

theorem addFreeRegion_refines {addr size : Nat} (h : l.Holds regions) (haddr : addr ≠ 0)
    (hnew : .node addr ∉ places regions) :
    Refines (fun l' a' => l'.Holds a'.regions) (l.addFreeRegion addr size)
      (LinkedListAllocator.addFreeRegion ⟨regions⟩ addr size) := by
  unfold FreeList.addFreeRegion LinkedListAllocator.addFreeRegion
  exact Refines.bind_same fun _ _ => Refines.bind_same fun _ _ => Refines.bind_same fun _ _ =>
    .ok (pushFront_holds h haddr hnew)

/-- What is left behind an allocation starts at no other region. -/
theorem rest_not_mem {region : Span} {rest : List Span} {ptr : Nat}
    (hapart : ∀ r ∈ rest, region.Disjoint r) (hnode : ∀ r ∈ rest, nodeSize ≤ r.size)
    (hlow : region.start ≤ ptr) (hhigh : ptr < region.start + region.size) : .node ptr ∉ places rest := by
  intro hmem
  obtain ⟨r, hr, heq⟩ := List.mem_map.mp hmem
  cases heq
  have hsize := hnode r hr
  unfold nodeSize at hsize
  rcases hapart r hr with hle | hle
  · omega
  · omega

/-- The results of the operations agree: the same pointer, and a list with the regions that are left. -/
def SameResult (r : Nat × FreeList) (r' : Nat × LinkedListAllocator) : Prop := r.1 = r'.1 ∧ r.2.Holds r'.2.regions

/-- An allocation starts where the search has found it. -/
theorem carve_ptr {size node start ptr : Nat} (h : l.carve size (some (node, start)) = .ok (ptr, l')) :
    start = ptr := by
  obtain ⟨allocEnd, -, hend⟩ := bind_eq_ok.mp h
  obtain ⟨endAddr, -, hstop⟩ := bind_eq_ok.mp hend
  obtain ⟨excess, -, hrest⟩ := bind_eq_ok.mp hstop
  split at hrest
  · obtain ⟨l'', -, hptr⟩ := bind_eq_ok.mp hrest
    cases hptr
    rfl
  · cases hrest
    rfl

theorem allocate_refines {layout : Layout} {fuel : Nat} (h : l.Holds regions)
    (hapart : regions.Pairwise Span.Disjoint) (hnode : ∀ r ∈ regions, nodeSize ≤ r.size)
    (hfuel : regions.length < fuel) :
    ∃ result, l.allocate layout fuel = some result ∧
      Refines SameResult result (LinkedListAllocator.allocate ⟨regions⟩ layout) := by
  unfold FreeList.allocate LinkedListAllocator.allocate
  cases hsa : LinkedListAllocator.sizeAlign layout with
  | error p => exact ⟨.error p, rfl, .error p⟩
  | ok sa =>
    obtain ⟨size, align⟩ := sa
    obtain ⟨-, halign⟩ := sizeAlign_eq_ok hsa
    obtain ⟨k, hk, hmax, -⟩ := max_nodeAlign layout
    obtain ⟨result, hwalk, hfound⟩ := @findRegion_refines l regions size align fuel h hfuel
    dsimp only
    rw [hwalk]
    refine ⟨_, rfl, hfound.bind fun found found' _ hsearch hfound => ?_⟩
    cases hfound with
    | none => exact .ok ⟨rfl, h⟩
    | @some l' region start rest hl' =>
      obtain ⟨hholds, hregion⟩ := hl'.holds h
      obtain ⟨hperm, htake⟩ := findRegion_some hsearch
      have hrest : ∀ r ∈ rest, region.Disjoint r :=
        (List.pairwise_cons.mp ((hperm.pairwise_iff Span.Disjoint.symm).mp hapart)).1
      have hlow : region.start ≤ start := by
        rw [show align = 2 ^ k from halign.trans hmax] at htake
        exact (allocFromRegion_some hk htake).2.1
      show Refines SameResult (l'.carve size (some (region.start, start))) (_ >>= _)
      simp only [carve, hregion]
      refine Refines.bind_same fun allocEnd hend => Refines.bind_same fun endAddr hEnd =>
        Refines.bind_same fun excess hexcess => ?_
      obtain ⟨-, rfl⟩ := checkedAdd_eq_some.mp (expect_eq_ok.mp hend)
      obtain ⟨-, rfl⟩ := add64_eq_ok.mp hEnd
      obtain ⟨-, rfl⟩ := usub_eq_ok.mp hexcess
      have hne := h.nonnull region hl'.member
      split
      · next hpos =>
        have hnew := @rest_not_mem region rest (start + size) hrest (fun r hr => hnode r (hl'.within r hr))
          (by omega) (by omega)
        exact (addFreeRegion_refines hholds (by omega) hnew).bind fun _ _ _ _ hlist => .ok ⟨rfl, hlist⟩
      · exact .ok ⟨rfl, hholds⟩

/-- Memory that is given back overlaps no region. -/
theorem deallocate_refines {layout : Layout} {ptr : Nat} (h : l.Holds regions) (hptr : ptr ≠ 0)
    (hapart : ∀ r ∈ regions, (⟨ptr, paddedSize layout⟩ : Span).Disjoint r) (hnode : ∀ r ∈ regions, nodeSize ≤ r.size) :
    Refines (fun l' a' => l'.Holds a'.regions) (l.deallocate ptr layout)
      (LinkedListAllocator.deallocate ⟨regions⟩ ptr layout) := by
  unfold FreeList.deallocate LinkedListAllocator.deallocate
  refine Refines.bind_same fun sa _ => addFreeRegion_refines h hptr ?_
  have hpos : 0 < paddedSize layout := Nat.lt_of_lt_of_le (by decide) (nodeSize_le_paddedSize layout)
  exact rest_not_mem hapart hnode (Nat.le_refl ptr) (Nat.lt_add_of_pos_right hpos)

/-! ## Runs -/

theorem regions_disjoint {s : HeapRun} (hs : HeapInv s) :
    s.heap.fallbackAllocator.regions.Pairwise Span.Disjoint :=
  (List.pairwise_append.mp hs.packed.separated).1

theorem live_apart {s : HeapRun} (hs : HeapInv s) {ptr : Nat} {layout : Layout} (hlive : (ptr, layout) ∈ s.live)
    (hi : FixedSizeBlockAllocator.listIndex layout = none) :
    ptr ≠ 0 ∧ ∀ r ∈ s.heap.fallbackAllocator.regions, (⟨ptr, paddedSize layout⟩ : Span).Disjoint r := by
  have hmem : (⟨ptr, paddedSize layout⟩ : Span) ∈ blockSpans s.heap.listHeads ++ s.live.map carved :=
    List.mem_append_right _ (List.mem_map.mpr ⟨(ptr, layout), hlive, carved_of_none hi⟩)
  constructor
  · have hstart : heapStart ≤ ptr := (hs.packed.inside _ (List.mem_append_right _ hmem)).1
    unfold heapStart at hstart
    omega
  · intro r hr
    exact ((List.pairwise_append.mp hs.packed.separated).2.2 r hr _ hmem).symm

/-! ## First fit -/

theorem findRegion_firstFit {size k fuel : Nat} (h : l.Holds regions) (hfuel : regions.length < fuel)
    (haddr : ∀ r ∈ regions, Addressable (2 ^ k) r) :
    ∃ found l', l.findRegion size (2 ^ k) fuel = some (.ok (found, l')) ∧
      FirstFit l regions size (2 ^ k) found l' := by
  have htry : ∀ r ∈ regions, LinkedListAllocator.allocFromRegion r size (2 ^ k) =
      .ok (if HasRoom size (2 ^ k) r then some (firstMultiple r.start (2 ^ k)) else none) := fun r hr =>
    allocFromRegion_eq (haddr r hr).1 (haddr r hr).2
  obtain ⟨search, hsearch⟩ := findRegion_ok fun r hr => ⟨_, htry r hr⟩
  obtain ⟨result, hwalk, hrefines⟩ := @findRegion_refines l regions size (2 ^ k) fuel h hfuel
  rw [hsearch] at hrefines
  cases hrefines with
  | ok hfound =>
    rcases findRegion_cases hsearch with ⟨rfl, hnone⟩ | ⟨before, region, after, start, rfl, hbefore, htake, rfl⟩
    · cases hfound with
      | none =>
        refine ⟨none, l, hwalk, ⟨fun _ => hnone, fun _ => rfl⟩, fun _ => rfl, fun node start heq => ?_⟩
        cases heq
    · cases hfound with
      | @some l' _ _ _ hl' =>
        obtain ⟨hholds, hregion⟩ := hl'.holds h
        refine ⟨some (region.start, start), l', hwalk, ⟨fun heq => ?_, fun hall => ?_⟩, fun heq => ?_, ?_⟩
        · cases heq
        · rw [hall region hl'.member] at htake
          cases htake
        · cases heq
        · intro node start' heq
          cases heq
          refine ⟨before, region, after, rfl, hregion, hbefore, htake, ?_, hholds⟩
          rw [htry region hl'.member] at htake
          split at htake
          · cases htake
            have hpos := Nat.two_pow_pos k
            exact ⟨Nat.dvd_mul_left _ _, le_firstMultiple hpos, fun addr => firstMultiple_least hpos⟩
          · cases htake

/-- Null stands for no region: a region in memory is not at address 0. -/
theorem allocate_null_iff {layout : Layout} {fuel : Nat} (h : l.Holds regions) (hfuel : regions.length < fuel)
    (haddr : ∀ r ∈ regions, Addressable (max layout.align nodeAlign) r) :
    l.allocate layout fuel = some (.ok (0, l')) ↔ Roundable layout ∧
      (∀ r ∈ regions, LinkedListAllocator.allocFromRegion r (paddedSize layout) (max layout.align nodeAlign) =
        .ok none) ∧ l' = l := by
  by_cases hround : Roundable layout
  · obtain ⟨k, -, hmax, -⟩ := max_nodeAlign layout
    simp only [FreeList.allocate, sizeAlign_ok hround, hround, true_and]
    rw [hmax] at haddr ⊢
    obtain ⟨found, l'', hfind, hfit⟩ := @findRegion_firstFit l regions (paddedSize layout) k fuel h hfuel haddr
    rw [hfind, ← hfit.none_iff]
    cases found with
    | none =>
      cases hfit.unchanged rfl
      constructor
      · intro hnull
        cases hnull
        exact ⟨rfl, rfl⟩
      · rintro ⟨-, rfl⟩
        rfl
    | some found =>
      obtain ⟨node, start⟩ := found
      obtain ⟨before, region, after, rfl, hregion, -, -, ⟨-, hle, -⟩, -⟩ := hfit.first node start rfl
      have hne := h.nonnull region (List.mem_append_right _ List.mem_cons_self)
      constructor
      · intro hnull
        have hcarve := Option.some.inj hnull
        have hzero : start = 0 := carve_ptr hcarve
        omega
      · rintro ⟨hnone, -⟩
        cases hnone
  · refine ⟨fun hnull => ?_, fun hnull => absurd hnull.1 hround⟩
    simp only [FreeList.allocate, sizeAlign_error hround] at hnull
    cases hnull

end FreeListLemmas

open FreeListLemmas HeapLemmas in
/-- In every state of a run of the heap, and for every list in memory that has its regions, `allocate` and the calls
of `deallocate` do in memory what they do with the regions. -/
theorem region_list_in_memory {heap : FixedSizeBlockAllocator} {es : List HeapEvent} {s : HeapRun} {l : FreeList}
    (hinit : FixedSizeBlockAllocator.new.init heapStart heapSize = .ok heap)
    (hrun : run heapStep ⟨heap, []⟩ es = some s) (h : l.Holds s.heap.fallbackAllocator.regions) :
    (∀ layout fuel, s.heap.fallbackAllocator.regions.length < fuel →
      ∃ result, l.allocate layout fuel = some result ∧
        Refines SameResult result (s.heap.fallbackAllocator.allocate layout)) ∧
    ∀ ptr layout, (ptr, layout) ∈ s.live → FixedSizeBlockAllocator.listIndex layout = none →
      Refines (fun l' a' => l'.Holds a'.regions) (l.deallocate ptr layout)
        (s.heap.fallbackAllocator.deallocate ptr layout) := by
  have hs : HeapInv s := run_invariant (fun _ _ _ => heapStep_inv) (init_inv hinit) hrun
  have hassert : AssertInv s := run_invariant (fun _ _ _ => heapStep_assertInv)
    (init_assertInv ⟨by decide, by decide, by decide⟩ hinit) hrun
  have hnode : ∀ r ∈ s.heap.fallbackAllocator.regions, nodeSize ≤ r.size := fun r hr => (hassert.regions r hr).node
  refine ⟨fun layout fuel hfuel => allocate_refines h (regions_disjoint hs) hnode hfuel,
    fun ptr layout hlive hi => ?_⟩
  obtain ⟨hptr, hapart⟩ := live_apart hs hlive hi
  exact deallocate_refines h hptr hapart hnode

/-- For every list in memory and every fuel that suffices to walk along it: `find_region` is exact first fit for
every size and every power of two, and `allocate` returns null exactly for the layouts that can be rounded up and
for which no region is large enough, and then the list is as it was. -/
theorem find_region_first_fit {l : FreeList} {regions : List Span} {fuel : Nat} (h : l.Holds regions)
    (hfuel : regions.length < fuel) :
    (∀ size k, (∀ r ∈ regions, Addressable (2 ^ k) r) →
      ∃ found l', l.findRegion size (2 ^ k) fuel = some (.ok (found, l')) ∧
        FirstFit l regions size (2 ^ k) found l') ∧
    ∀ layout : Layout, (∀ r ∈ regions, Addressable (max layout.align nodeAlign) r) → ∀ l',
      (l.allocate layout fuel = some (.ok (0, l')) ↔ Roundable layout ∧
        (∀ r ∈ regions, LinkedListAllocator.allocFromRegion r (HeapLemmas.paddedSize layout)
          (max layout.align nodeAlign) = .ok none) ∧ l' = l) :=
  ⟨fun _ _ haddr => FreeListLemmas.findRegion_firstFit h hfuel haddr,
    fun _ haddr _ => FreeListLemmas.allocate_null_iff h hfuel haddr⟩

/-- A list of a region of 32 bytes and one of 64 bytes. -/
def twoRegions : FreeList := ((FreeList.new fun _ => ⟨0, none⟩).pushFront 0x2000 64).pushFront 0x1000 32

/-- 48 bytes are found in the second region. -/
theorem find_region_first_fit_sample : ∃ found l', twoRegions.findRegion 48 (2 ^ 4) 3 = some (.ok (found, l')) ∧
    FirstFit twoRegions [⟨0x1000, 32⟩, ⟨0x2000, 64⟩] 48 (2 ^ 4) found l' ∧ found = some (0x2000, 0x2000) := by
  have hholds : twoRegions.Holds [⟨0x1000, 32⟩, ⟨0x2000, 64⟩] :=
    FreeListLemmas.pushFront_holds (FreeListLemmas.pushFront_holds (FreeListLemmas.new_holds _) (by decide)
      (by decide)) (by decide) (by decide)
  obtain ⟨found, l', hfind, hfit⟩ := (@find_region_first_fit _ _ 3 hholds (by decide)).1 48 4 (by decide)
  have heval : (twoRegions.findRegion 48 (2 ^ 4) 3).map (Except.map Prod.fst) =
      some (.ok (some (0x2000, 0x2000))) := by
    decide +kernel
  rw [hfind] at heval
  cases heval
  exact ⟨_, l', hfind, hfit, rfl⟩

end Turnix

import Turnix.FrameAllocator
import Turnix.Syscall

/-!
# The memory map in memory

`abi/src/boot.rs` with the pointer as an address and the records as the bytes behind it: `get` makes a
reference into the map, `next` of `BootMemoryMapIter` returns the next one. `memory_map_iter` says which
references any number of calls of `next` return. The frame allocator works on the records alone; `load_iter`
says that these are the ones behind the references.

The map may have any stride. The language does not allow a reference to a record that is not aligned to 8 bytes;
there is none if the pointer and the stride are multiples of 8, which `memory_map_iter` says too.
-/

namespace Turnix.Boot

open Lib

/-- `BootMemoryDescriptor`, all of it. -/
structure BootMemoryDescriptor where
  ty : Nat
  reserved : Nat
  physStart : Nat
  virtStart : Nat
  pageCount : Nat
  att : Nat
deriving DecidableEq, Repr

/-- The record in the bytes; `repr(C)` keeps the order of the fields. -/
def BootMemoryDescriptor.read (bytes : List UInt8) : BootMemoryDescriptor where
  ty := leAt bytes 0 4
  reserved := leAt bytes 4 4
  physStart := leAt bytes 8 8
  virtStart := leAt bytes 16 8
  pageCount := leAt bytes 24 8
  att := leAt bytes 32 8

/-- `*ptr`. -/
def BootMemoryDescriptor.load (mem : Nat → UInt8) (ptr : Nat) : BootMemoryDescriptor :=
  .read (bytesAt mem ptr descriptorSize)

/-- `BootMemoryMap`. The pointer is an address, `0` if it is null. -/
structure BootMemoryMap where
  descriptors : Nat
  mapSize : Nat
  descSize : Nat
  descriptors_lt : descriptors < 2 ^ 64
  mapSize_lt : mapSize < 2 ^ 64
  descSize_lt : descSize < 2 ^ 64

/-- `BootMemoryMap::entry_count`. -/
def BootMemoryMap.entryCount (map : BootMemoryMap) : Nat :=
  if map.descSize = 0 then 0 else map.mapSize / map.descSize

/-- `BootMemoryMap::get`, the address of the reference. -/
def BootMemoryMap.get (map : BootMemoryMap) (index : Nat) : Option Nat :=
  if index ≥ map.entryCount ∨ map.descriptors = 0 ∨ map.descSize < descriptorSize then none
  else do
    let offset ← checkedMul index map.descSize
    return map.descriptors + offset

/-- `BootMemoryMapIter`. -/
structure BootMemoryMapIter where
  map : BootMemoryMap
  index : Nat

/-- `BootMemoryMap::iter`. -/
def BootMemoryMap.iter (map : BootMemoryMap) : BootMemoryMapIter := ⟨map, 0⟩

/-- `BootMemoryMapIter::next`, with the iterator after it. -/
def BootMemoryMapIter.next (it : BootMemoryMapIter) : Except Panic (Option Nat × BootMemoryMapIter) :=
  match it.map.get it.index with
  | none => .ok (none, it)
  | some item => do
    let index ← add64 it.index 1
    return (some item, { it with index })

/-- What a number of calls of `next` return, in order. -/
def BootMemoryMapIter.nexts : Nat → BootMemoryMapIter → Except Panic (List (Option Nat))
  | 0, _ => .ok []
  | calls + 1, it => do
    let (item, it) ← it.next
    let items ← it.nexts calls
    return item :: items

/-- The same of `iter()`, with the records behind the references. -/
def BootMemoryMap.yields (map : BootMemoryMap) (mem : Nat → UInt8) (calls : Nat) :
    Except Panic (List (Option BootMemoryDescriptor)) := do
  let items ← map.iter.nexts calls
  return items.map fun item => item.map (.load mem)

/-- The number of records that can be read: none if the pointer is null or the stride too small. -/
def BootMemoryMap.readable (map : BootMemoryMap) : Nat :=
  if map.descriptors = 0 ∨ map.descSize < descriptorSize then 0 else map.mapSize / map.descSize

/-- The fields that are read. -/
def BootMemoryDescriptor.fields (d : BootMemoryDescriptor) : Turnix.BootMemoryDescriptor :=
  ⟨d.ty, d.physStart, d.pageCount⟩

/-- The map with the records in memory in place of the pointer. -/
def BootMemoryMap.load (map : BootMemoryMap) (mem : Nat → UInt8) : Turnix.BootMemoryMap where
  descriptors :=
    if map.descriptors = 0 then none
    else some fun offset => (BootMemoryDescriptor.load mem (map.descriptors + offset)).fields
  mapSize := map.mapSize
  descSize := map.descSize

namespace MemoryMapLemmas

variable {map : BootMemoryMap} {i : Nat}

theorem readable_eq (hnull : map.descriptors ≠ 0) (hsize : descriptorSize ≤ map.descSize) :
    map.readable = map.mapSize / map.descSize := by
  unfold BootMemoryMap.readable
  rw [if_neg]
  rintro (h | h)
  · exact hnull h
  · omega

theorem readable_lt (map : BootMemoryMap) : map.readable < 2 ^ 64 := by
  unfold BootMemoryMap.readable
  split
  · decide
  · exact Nat.lt_of_le_of_lt (Nat.div_le_self _ _) map.mapSize_lt

/-- A record that is counted lies in the map. -/
theorem record_le (hsize : descriptorSize ≤ map.descSize) (hi : i < map.mapSize / map.descSize) :
    i * map.descSize + descriptorSize ≤ map.mapSize := by
  have hend : (i + 1) * map.descSize ≤ map.mapSize :=
    Nat.le_trans (Nat.mul_le_mul_right _ hi) (Nat.div_mul_le_self _ _)
  rw [Nat.succ_mul] at hend
  omega

theorem checkedMul_eq (hsize : descriptorSize ≤ map.descSize) (hi : i < map.mapSize / map.descSize) :
    checkedMul i map.descSize = some (i * map.descSize) := by
  have hle := record_le hsize hi
  have hlt := map.mapSize_lt
  unfold checkedMul
  rw [if_pos (by omega)]

theorem get_eq : map.get i = if i < map.readable then some (map.descriptors + i * map.descSize) else none := by
  by_cases hbad : map.descriptors = 0 ∨ map.descSize < descriptorSize
  · have hnone : map.readable = 0 := if_pos hbad
    unfold BootMemoryMap.get
    rw [if_pos (Or.inr hbad), hnone, if_neg (Nat.not_lt_zero i)]
  · have hsize : descriptorSize ≤ map.descSize := Nat.le_of_not_lt fun h => hbad (Or.inr h)
    have hpos : map.descSize ≠ 0 := by
      unfold descriptorSize at hsize
      omega
    have hread : map.readable = map.mapSize / map.descSize := if_neg hbad
    have hcount : map.entryCount = map.mapSize / map.descSize := if_neg hpos
    unfold BootMemoryMap.get
    rw [hread, hcount]
    by_cases hi : i < map.mapSize / map.descSize
    · have hgood : ¬ (i ≥ map.mapSize / map.descSize ∨ map.descriptors = 0 ∨ map.descSize < descriptorSize) := by
        rintro (h | h)
        · omega
        · exact hbad h
      rw [if_neg hgood, if_pos hi, checkedMul_eq hsize hi]
      rfl
    · rw [if_pos (Or.inl (Nat.le_of_not_lt hi)), if_neg hi]

theorem next_of_lt (hi : i < map.readable) :
    BootMemoryMapIter.next ⟨map, i⟩ = .ok (map.get i, ⟨map, i + 1⟩) := by
  have hget : map.get i = some (map.descriptors + i * map.descSize) := by rw [get_eq, if_pos hi]
  have hindex : add64 i 1 = .ok (i + 1) := by
    have hlt := readable_lt map
    exact add64_eq_ok.mpr ⟨by omega, rfl⟩
  unfold BootMemoryMapIter.next
  dsimp only
  rw [hget]
  dsimp only
  rw [hindex]
  rfl

theorem get_of_le (hi : map.readable ≤ i) : map.get i = none := by
  rw [get_eq, if_neg (Nat.not_lt.mpr hi)]

theorem next_of_le (hi : map.readable ≤ i) :
    BootMemoryMapIter.next ⟨map, i⟩ = .ok (map.get i, ⟨map, i⟩) := by
  unfold BootMemoryMapIter.next
  dsimp only
  rw [get_of_le hi]

theorem map_get_of_le (hi : map.readable ≤ i) (n : Nat) :
    (List.range' i n).map map.get = List.replicate n none := by
  refine List.eq_replicate_iff.mpr ⟨by rw [List.length_map, List.length_range'], fun item hitem => ?_⟩
  obtain ⟨j, hj, rfl⟩ := List.mem_map.mp hitem
  exact get_of_le (Nat.le_trans hi (List.mem_range'_1.mp hj).1)

/-- The iterator goes through the indices and stays at the first one that is not readable; what `get` returns
there it would also return at all later ones. -/
theorem nexts_eq (calls : Nat) :
    BootMemoryMapIter.nexts calls ⟨map, i⟩ = .ok ((List.range' i calls).map map.get) := by
  induction calls generalizing i with
  | zero => rfl
  | succ calls ih =>
    unfold BootMemoryMapIter.nexts
    rcases Nat.lt_or_ge i map.readable with hi | hi
    · rw [next_of_lt hi]
      show (BootMemoryMapIter.nexts calls ⟨map, i + 1⟩ >>= fun items => _) = _
      rw [ih]
      rfl
    · rw [next_of_le hi]
      show (BootMemoryMapIter.nexts calls ⟨map, i⟩ >>= fun items => _) = _
      rw [ih, List.range'_succ, List.map_cons, map_get_of_le hi, map_get_of_le (by omega)]
      rfl

theorem yields_eq (mem : Nat → UInt8) (calls : Nat) :
    map.yields mem calls = .ok ((List.range calls).map fun i =>
      if i < map.readable then some (.load mem (map.descriptors + i * map.descSize)) else none) := by
  unfold BootMemoryMap.yields BootMemoryMap.iter
  rw [nexts_eq, ← List.range_eq_range']
  show Except.ok (((List.range calls).map map.get).map _) = _
  rw [List.map_map]
  refine congrArg Except.ok (List.map_congr_left fun i _ => ?_)
  show (map.get i).map _ = _
  rw [get_eq]
  split
  · rfl
  · rfl

end MemoryMapLemmas

open MemoryMapLemmas

/-- Every number of calls of `next` returns the records of the map in order, one for each whole stride, and
after them nothing: no index and no offset overflows, and no byte past the end of the map is read. A map with a null
pointer or a stride below the size of a record gives none. -/
theorem memory_map_iter (mem : Nat → UInt8) (map : BootMemoryMap) :
    (map.descriptors ≠ 0 → 40 ≤ map.descSize →
      (∀ calls, map.yields mem calls = .ok ((List.range calls).map fun i =>
        if i < map.mapSize / map.descSize then
          some (.read (bytesAt mem (map.descriptors + i * map.descSize) 40))
        else none)) ∧
      ∀ i < map.mapSize / map.descSize,
        checkedMul i map.descSize = some (i * map.descSize) ∧
        i * map.descSize + 40 ≤ map.mapSize ∧
        (map.descriptors + map.mapSize ≤ 2 ^ 64 → map.descriptors + i * map.descSize + 40 ≤ 2 ^ 64) ∧
        (8 ∣ map.descriptors → 8 ∣ map.descSize → 8 ∣ map.descriptors + i * map.descSize)) ∧
    (map.descriptors = 0 ∨ map.descSize < 40 → ∀ calls, map.yields mem calls = .ok (List.replicate calls none)) := by
  constructor
  · intro hnull hsize
    constructor
    · intro calls
      rw [yields_eq, readable_eq hnull hsize]
      rfl
    · intro i hi
      have hle : i * map.descSize + 40 ≤ map.mapSize := record_le hsize hi
      refine ⟨checkedMul_eq hsize hi, hle, fun hspace => by omega, fun hptr hstride => ?_⟩
      exact Nat.dvd_add hptr (Dvd.dvd.mul_left hstride i)
  · intro hbad calls
    have hnone : map.readable = 0 := if_pos hbad
    rw [yields_eq, hnone]
    simp only [Nat.not_lt_zero, if_false, List.map_const', List.length_range]

/-- Two records with a stride of 48, in memory that holds the value `k` at every address `k`, modulo 256. -/
def twoRecords : BootMemoryMap where
  descriptors := 0x1000
  mapSize := 100
  descSize := 48
  descriptors_lt := by omega
  mapSize_lt := by omega
  descSize_lt := by omega

theorem memory_map_iter_sample :
    ∃ first second, twoRecords.yields UInt8.ofNat 3 = .ok [some first, some second, none] ∧
      first.ty = 0x03020100 ∧ second.ty = 0x33323130 ∧ second.att = 0x5756555453525150 := by
  have h := ((memory_map_iter UInt8.ofNat twoRecords).1 (by decide) (by decide)).1 3
  exact ⟨_, _, h, by decide +kernel⟩

/-! ## The records of the frame allocator -/

namespace MemoryMapLemmas

variable {map : BootMemoryMap} {i : Nat}

theorem load_get (mem : Nat → UInt8) :
    (map.load mem).get i = (map.get i).map fun item => (BootMemoryDescriptor.load mem item).fields := by
  unfold Turnix.BootMemoryMap.get BootMemoryMap.load BootMemoryMap.get
  by_cases hnull : map.descriptors = 0
  · rw [if_pos (Or.inr (Or.inl hnull))]
    simp only [if_pos hnull, Option.map_none]
  · have hcond : (i ≥ map.entryCount ∨ map.descriptors = 0 ∨ map.descSize < descriptorSize) ↔
        (i ≥ map.entryCount ∨ map.descSize < descriptorSize) := by
      simp only [hnull, false_or]
    simp only [if_neg hnull, hcond]
    show (if i ≥ map.entryCount ∨ map.descSize < descriptorSize then none else _) = _
    split
    · rfl
    · cases checkedMul i map.descSize with
      | none => rfl
      | some offset => rfl

/-- The loop over the records ends at the first index without one, and there is none at any later index. -/
theorem load_iterFrom (mem : Nat → UInt8) (calls : Nat) :
    (map.load mem).iterFrom calls i = (List.range' i calls).filterMap (map.load mem).get := by
  induction calls generalizing i with
  | zero => rfl
  | succ calls ih =>
    unfold Turnix.BootMemoryMap.iterFrom
    rw [List.range'_succ, List.filterMap_cons]
    cases hget : (map.load mem).get i with
    | some d =>
      dsimp only
      rw [ih]
    | none =>
      have hi : map.readable ≤ i := by
        rw [load_get, get_eq] at hget
        split at hget
        · cases hget
        · omega
      dsimp only
      symm
      refine List.filterMap_eq_nil_iff.mpr fun j hj => ?_
      have hij := (List.mem_range'_1.mp hj).1
      rw [load_get, get_of_le (by omega), Option.map_none]

end MemoryMapLemmas

/-- The frame allocator sees the records behind the references that `next` returns. -/
theorem load_iter (mem : Nat → UInt8) (map : BootMemoryMap) :
    ∃ items, map.iter.nexts map.entryCount = .ok items ∧
      (map.load mem).iter = items.reduceOption.map fun item => (BootMemoryDescriptor.load mem item).fields := by
  refine ⟨_, nexts_eq _, ?_⟩
  unfold Turnix.BootMemoryMap.iter
  rw [load_iterFrom]
  show _ = (((List.range' 0 map.entryCount).map map.get).filterMap id).map _
  rw [List.map_filterMap, List.filterMap_map]
  exact List.filterMap_congr fun i _ => load_get mem

end Turnix.Boot

import Turnix.Elf

/-!
# Mounting ext2

`fs/ext2.rs`: `init` reads the superblock of a device and computes the size of the table of group descriptors from
three of its fields. The magic number is all that is checked before. `superblock_safe_iff` says which superblocks
get through the computation: the others stop the kernel, by a shift of 64 bits or more, by a block size of which
no bit is left, by a division by zero or by a sum that does not fit in 32 bits. Whether the heap has room for the
table is another matter: a superblock that gets through can still ask for more than there is.
-/

namespace Turnix.Ext2

open Lib

/-- `Ext2Superblock`, the fields that are used. -/
structure Superblock where
  blockCount : Nat
  logBlockSize : Nat
  blocksPerGroup : Nat
  magic : Nat
deriving DecidableEq, Repr

/-- `Ext2Superblock::is_valid`. -/
def Superblock.isValid (sb : Superblock) : Bool := sb.magic = 0xEF53

/-- `Ext2Superblock::block_size`. -/
def Superblock.blockSize (sb : Superblock) : Except Panic Nat := shl64 1024 sb.logBlockSize

/-- The `Ext2Superblock` at the start of a buffer. -/
def Superblock.read (buffer : List UInt8) : Superblock where
  blockCount := leAt buffer 4 4
  logBlockSize := leAt buffer 24 4
  blocksPerGroup := leAt buffer 32 4
  magic := leAt buffer 56 2

/-- `read_superblock`, with what `read_blocks` has put into the buffer, if it has not failed. -/
def readSuperblock (blocks : Option (List UInt8)) : Option Superblock :=
  match blocks with
  | none => some ⟨0, 0, 8192, 0xEF53⟩
  | some buffer =>
    let sb := Superblock.read buffer
    if sb.isValid then some sb else none

/-- The three sizes that `init` computes. -/
structure Sizes where
  blockSize : Nat
  groupCount : Nat
  gdSize : Nat
deriving DecidableEq, Repr

/-- The computation in `init`. -/
def Superblock.sizes (sb : Superblock) : Except Panic Sizes := do
  let blockSize ← sb.blockSize
  let blocks ← usub (← add32 sb.blockCount sb.blocksPerGroup) 1
  let groupCount ← udiv blocks sb.blocksPerGroup
  let gdBytes ← usub (← add64 (← mul64 groupCount 32) blockSize) 1
  let gdSize ← mul64 (← udiv gdBytes blockSize) blockSize
  return ⟨blockSize, groupCount, gdSize⟩

/-- `Ext2Fs`; its `group_desc` stays empty. -/
structure Fs where
  superblock : Superblock
  blockSize : Nat
  deviceId : Nat
deriving DecidableEq, Repr

/-- `init`: what it returns, and `EXT2_FS` afterwards. `readBlocks` is the AHCI driver and `zeroed` the
allocation of `vec![0u8; gd_size]`. -/
def init (readBlocks : Nat → Option (List UInt8)) (zeroed : Nat → Except Panic Unit) (deviceId : Nat)
    (fs : Option Fs) : Except Panic (Bool × Option Fs) :=
  match readSuperblock (readBlocks deviceId) with
  | none => .ok (false, fs)
  | some superblock => do
    let sizes ← superblock.sizes
    zeroed sizes.gdSize
    return (true, some ⟨superblock, sizes.blockSize, deviceId⟩)

/-! ## Arbitrary superblocks -/

/-- `init` returns `false`, or it computes the sizes without a panic, with all bits of the block size and with a group
for all blocks, and ends as the allocation of the table ends. -/
def SafeToMount (buffer : List UInt8) : Prop :=
  ∀ readBlocks deviceId, readBlocks deviceId = some buffer → ∀ zeroed fs,
    init readBlocks zeroed deviceId fs = .ok (false, fs) ∨
      ∃ sizes, (Superblock.read buffer).sizes = .ok sizes ∧
        sizes.blockSize = 1024 * 2 ^ (Superblock.read buffer).logBlockSize ∧
        (Superblock.read buffer).blockCount / (Superblock.read buffer).blocksPerGroup ≤ sizes.groupCount ∧
        init readBlocks zeroed deviceId fs = (zeroed sizes.gdSize >>= fun _ =>
          .ok (true, some ⟨Superblock.read buffer, sizes.blockSize, deviceId⟩))

namespace Ext2Lemmas

variable {sb : Superblock} {buffer : List UInt8}

theorem pow_block_size {n : Nat} (hn : n ≤ 53) : 1024 * 2 ^ n ≤ 2 ^ 63 :=
  calc 1024 * 2 ^ n ≤ 1024 * 2 ^ 53 := Nat.mul_le_mul_left _ (Nat.pow_le_pow_right (by decide) hn)
    _ = 2 ^ 63 := by decide

/-- From 54 on all bits of the block size are lost. -/
theorem block_size_lost {n : Nat} (hn : 54 ≤ n) : 1024 * 2 ^ n % 2 ^ 64 = 0 := by
  obtain ⟨k, rfl⟩ := Nat.exists_eq_add_of_le hn
  rw [Nat.pow_add, ← Nat.mul_assoc, show 1024 * 2 ^ 54 = 2 ^ 64 by decide]
  exact Nat.mul_mod_right _ _

/-- The sizes, if no operation panics. -/
theorem sizes_eq (hlog : sb.logBlockSize ≤ 53) (hpos : 0 < sb.blocksPerGroup)
    (hsum : sb.blockCount + sb.blocksPerGroup < 2 ^ 32) : ∃ gdSize,
    sb.sizes = .ok ⟨1024 * 2 ^ sb.logBlockSize,
      (sb.blockCount + sb.blocksPerGroup - 1) / sb.blocksPerGroup, gdSize⟩ := by
  have hsize := pow_block_size hlog
  have hbig : 0 < 1024 * 2 ^ sb.logBlockSize := Nat.mul_pos (by decide) (Nat.two_pow_pos _)
  have hgroups : (sb.blockCount + sb.blocksPerGroup - 1) / sb.blocksPerGroup ≤ 2 ^ 32 :=
    (Nat.div_le_self _ _).trans (by omega)
  unfold Superblock.sizes Superblock.blockSize
  generalize hb : 1024 * 2 ^ sb.logBlockSize = blockSize at *
  generalize hg : (sb.blockCount + sb.blocksPerGroup - 1) / sb.blocksPerGroup = groups at *
  have hround := Nat.div_mul_le_self (groups * 32 + blockSize - 1) blockSize
  refine ⟨(groups * 32 + blockSize - 1) / blockSize * blockSize, ?_⟩
  refine bind_eq_ok.mpr ⟨blockSize, shl64_eq_ok.mpr ⟨by omega, by rw [hb]; omega⟩, ?_⟩
  refine bind_eq_ok.mpr ⟨_, add32_eq_ok.mpr ⟨hsum, rfl⟩, ?_⟩
  refine bind_eq_ok.mpr ⟨_, usub_eq_ok.mpr ⟨by omega, rfl⟩, ?_⟩
  refine bind_eq_ok.mpr ⟨groups, udiv_eq_ok.mpr ⟨hpos, hg⟩, ?_⟩
  refine bind_eq_ok.mpr ⟨_, mul64_eq_ok.mpr ⟨by omega, rfl⟩, ?_⟩
  refine bind_eq_ok.mpr ⟨_, add64_eq_ok.mpr ⟨by omega, rfl⟩, ?_⟩
  refine bind_eq_ok.mpr ⟨_, usub_eq_ok.mpr ⟨by omega, rfl⟩, ?_⟩
  refine bind_eq_ok.mpr ⟨_, udiv_eq_ok.mpr ⟨hbig, rfl⟩, ?_⟩
  exact bind_eq_ok.mpr ⟨_, mul64_eq_ok.mpr ⟨by omega, rfl⟩, rfl⟩

/-- What the operations need. -/
theorem limits_of_sizes {sizes : Sizes} (h : sb.sizes = .ok sizes) :
    sb.logBlockSize ≤ 53 ∧ 0 < sb.blocksPerGroup ∧ sb.blockCount + sb.blocksPerGroup < 2 ^ 32 := by
  unfold Superblock.sizes Superblock.blockSize at h
  obtain ⟨blockSize, hshift, h⟩ := bind_eq_ok.mp h
  obtain ⟨sum, hsum, h⟩ := bind_eq_ok.mp h
  obtain ⟨blocks, -, h⟩ := bind_eq_ok.mp h
  obtain ⟨groups, hgroups, h⟩ := bind_eq_ok.mp h
  obtain ⟨product, -, h⟩ := bind_eq_ok.mp h
  obtain ⟨total, -, h⟩ := bind_eq_ok.mp h
  obtain ⟨gdBytes, -, h⟩ := bind_eq_ok.mp h
  obtain ⟨quotient, hquotient, -⟩ := bind_eq_ok.mp h
  refine ⟨?_, (udiv_eq_ok.mp hgroups).1, (add32_eq_ok.mp hsum).1⟩
  have hpos := (udiv_eq_ok.mp hquotient).1
  rw [← (shl64_eq_ok.mp hshift).2] at hpos
  by_contra hlog
  rw [block_size_lost (by omega)] at hpos
  exact absurd hpos (by decide)

/-- A valid superblock leads to the computation. -/
theorem init_valid {readBlocks : Nat → Option (List UInt8)} {zeroed : Nat → Except Panic Unit} {deviceId : Nat}
    {fs : Option Fs} (hread : readBlocks deviceId = some buffer)
    (hvalid : (Superblock.read buffer).isValid = true) : init readBlocks zeroed deviceId fs =
      ((Superblock.read buffer).sizes >>= fun sizes => zeroed sizes.gdSize >>= fun _ =>
        .ok (true, some ⟨Superblock.read buffer, sizes.blockSize, deviceId⟩)) := by
  have hsuper : readSuperblock (some buffer) = some (Superblock.read buffer) := if_pos hvalid
  unfold init
  rw [hread, hsuper]
  rfl

end Ext2Lemmas

open Ext2Lemmas

/-- A superblock that `is_valid` accepts gets through the computation in `init` if and only if three of its fields
are in these limits. -/
theorem superblock_safe_iff {buffer : List UInt8} (hvalid : (Superblock.read buffer).isValid = true) :
    SafeToMount buffer ↔ (Superblock.read buffer).logBlockSize ≤ 53 ∧
      0 < (Superblock.read buffer).blocksPerGroup ∧
      (Superblock.read buffer).blockCount + (Superblock.read buffer).blocksPerGroup < 2 ^ 32 := by
  constructor
  · intro h
    rcases h (fun _ => some buffer) 0 rfl (fun _ => .ok ()) none with hrefused | ⟨sizes, hsizes, -⟩
    · rw [init_valid rfl hvalid] at hrefused
      obtain ⟨sizes, hsizes, -⟩ := bind_eq_ok.mp hrefused
      exact limits_of_sizes hsizes
    · exact limits_of_sizes hsizes
  · rintro ⟨hlog, hpos, hsum⟩ readBlocks deviceId hread zeroed fs
    obtain ⟨gdSize, hsizes⟩ := sizes_eq hlog hpos hsum
    refine .inr ⟨_, hsizes, rfl, Nat.div_le_div_right (by omega), ?_⟩
    rw [init_valid hread hvalid, hsizes]
    rfl

/-- The first 1024 bytes of a file system with these fields. -/
def superblockBytes (blockCount logBlockSize blocksPerGroup : Nat) : List UInt8 :=
  List.replicate 4 0 ++ Lib.toLeBytes 4 blockCount ++ List.replicate 16 0 ++ Lib.toLeBytes 4 logBlockSize ++
    List.replicate 4 0 ++ Lib.toLeBytes 4 blocksPerGroup ++ List.replicate 20 0 ++ Lib.toLeBytes 2 0xEF53 ++
    List.replicate 966 0

/-- Eight megabytes in blocks of 1024 bytes. -/
theorem superblock_safe_sample : SafeToMount (superblockBytes 8192 0 8192) :=
  (superblock_safe_iff (by decide +kernel)).mpr (by decide +kernel)

/-- What `init` does with such a device. -/
def mountBytes (blockCount logBlockSize blocksPerGroup : Nat) : Except Panic (Bool × Option Fs) :=
  init (fun _ => some (superblockBytes blockCount logBlockSize blocksPerGroup)) (fun _ => .ok ()) 0 none

/-- Superblocks with the right magic number that stop the kernel. -/
theorem superblock_panics :
    mountBytes 8192 64 8192 = .error ⟨"attempt to shift left with overflow"⟩ ∧
    mountBytes 8192 54 8192 = .error ⟨"attempt to divide by zero"⟩ ∧
    mountBytes 8192 0 0 = .error ⟨"attempt to divide by zero"⟩ ∧
    mountBytes 0xFFFFFFFF 0 8192 = .error ⟨"attempt to add with overflow"⟩ ∧
    (Superblock.read (superblockBytes 8192 64 8192)).isValid = true ∧
    (superblockBytes 8192 64 8192).length = 1024 ∧ ¬ SafeToMount (superblockBytes 8192 64 8192) := by
  have hshift : mountBytes 8192 64 8192 = .error ⟨"attempt to shift left with overflow"⟩ := by decide +kernel
  refine ⟨hshift, by decide +kernel, by decide +kernel, by decide +kernel, by decide +kernel, by decide +kernel,
    fun h => ?_⟩
  have hsizes : (Superblock.read (superblockBytes 8192 64 8192)).sizes =
      .error ⟨"attempt to shift left with overflow"⟩ := by decide +kernel
  rcases h (fun _ => some (superblockBytes 8192 64 8192)) 0 rfl (fun _ => .ok ()) none with hfalse | ⟨sizes, hok, -⟩
  · rw [show init _ _ _ _ = _ from hshift] at hfalse
    cases hfalse
  · rw [hsizes] at hok
    cases hok

end Turnix.Ext2

import Mathlib.Data.BitVec
import Turnix.Lib.Rust

/-!
# Words in byte memory

A memory of bytes in which 32-bit words are stored and blocks of bytes are moved, seen as an array of words that
begins at `base`.
-/

namespace Turnix.Lib

/-- The word at an address, in little-endian order. -/
def wordAt (m : Nat → UInt8) (ptr : Nat) : Nat := fromLeBytes ((List.range 4).map fun i => m (ptr + i))

/-- Store a word. -/
def storeWord (m : Nat → UInt8) (ptr value : Nat) : Nat → UInt8 := fun a =>
  if ptr ≤ a ∧ a < ptr + 4 then (toLeBytes 4 value).getD (a - ptr) 0 else m a

/-- Move `count` bytes. The two ranges may overlap: every byte is read before it is overwritten. -/
def moveBytes (m : Nat → UInt8) (src dest count : Nat) : Nat → UInt8 := fun a =>
  if dest ≤ a ∧ a < dest + count then m (src + (a - dest)) else m a

variable {m m' : Nat → UInt8} {base i j : Nat}

theorem wordAt_congr {ptr ptr' : Nat} (h : ∀ i < 4, m (ptr + i) = m' (ptr' + i)) :
    wordAt m ptr = wordAt m' ptr' := by
  unfold wordAt
  congr 1
  refine List.map_congr_left fun i hi => h i ?_
  exact List.mem_range.mp hi

theorem wordAt_storeWord_self {ptr value : Nat} (hvalue : value < 2 ^ 32) :
    wordAt (storeWord m ptr value) ptr = value := by
  have hbytes : (List.range 4).map (fun i => storeWord m ptr value (ptr + i)) = toLeBytes 4 value := by
    refine List.ext_getElem ?_ fun i hi hlt => ?_
    · rw [List.length_map, List.length_range, length_toLeBytes]
    · have hfour : i < 4 := by rwa [length_toLeBytes] at hlt
      rw [List.getElem_map, List.getElem_range, storeWord, if_pos ⟨by omega, by omega⟩, Nat.add_sub_cancel_left,
        List.getD_eq_getElem?_getD, List.getElem?_eq_getElem hlt, Option.getD_some]
  unfold wordAt
  rw [hbytes, fromLeBytes_toLeBytes (by omega)]

/-- Storing a word changes this word of the array and no other. -/
theorem wordAt_storeWord {value : Nat} (hvalue : value < 2 ^ 32) :
    wordAt (storeWord m (base + i * 4) value) (base + j * 4) = if j = i then value else wordAt m (base + j * 4) := by
  by_cases hij : j = i
  · rw [if_pos hij, hij, wordAt_storeWord_self hvalue]
  · rw [if_neg hij]
    refine wordAt_congr fun k hk => ?_
    unfold storeWord
    rw [if_neg (by omega)]

/-- Moving the array down by `d` words. -/
theorem wordAt_moveBytes {d count : Nat} :
    wordAt (moveBytes m (base + d * 4) base (count * 4)) (base + j * 4) =
      if j < count then wordAt m (base + (j + d) * 4) else wordAt m (base + j * 4) := by
  by_cases hj : j < count
  · rw [if_pos hj]
    refine wordAt_congr fun k hk => ?_
    unfold moveBytes
    rw [if_pos ⟨by omega, by omega⟩]
    congr 1
    omega
  · rw [if_neg hj]
    refine wordAt_congr fun k hk => ?_
    unfold moveBytes
    rw [if_neg (by omega)]

end Turnix.Lib

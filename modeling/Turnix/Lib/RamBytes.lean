import Turnix.Lib.Paging

/-!
# Bytes of memory

The words of memory are entries of page tables; code that copies data accesses them by bytes. A word is
64 bits: the high flags, the frame, the low flags.
-/

namespace Turnix.Lib.Paging

/-- The word as the hardware stores it. -/
def Entry.bits (e : Entry) : BitVec 64 := e.flags.high ++ e.frame ++ e.flags.low

/-- The fields of a word. -/
def Entry.ofBits (b : BitVec 64) : Entry :=
  ⟨⟨b.extractLsb' 52 12, b.extractLsb' 0 12⟩, b.extractLsb' 12 40⟩

/-- The byte `k` of a word, the least significant one first. -/
def Entry.byte (e : Entry) (k : Nat) : UInt8 := .ofBitVec (e.bits.extractLsb' (8 * k) 8)

/-- Store the byte `k` of a word. -/
def Entry.setByte (e : Entry) (k : Nat) (b : UInt8) : Entry :=
  .ofBits ((e.bits &&& ~~~((BitVec.allOnes 8).setWidth 64 <<< (8 * k))) |||
    (b.toBitVec.setWidth 64 <<< (8 * k)))

/-- The byte at an offset in a frame. -/
def Ram.byte (ram : Ram) (f : Frame) (offset : Nat) : UInt8 :=
  (ram f (Fin.ofNat 512 (offset / 8))).byte (offset % 8)

/-- Store the byte at an offset in a frame. -/
def Ram.setByte (ram : Ram) (f : Frame) (offset : Nat) (b : UInt8) : Ram :=
  ram.set f (Fin.ofNat 512 (offset / 8))
    ((ram f (Fin.ofNat 512 (offset / 8))).setByte (offset % 8) b)

/-- Store bytes from an offset in a frame on. -/
def Ram.setBytes (ram : Ram) (f : Frame) : Nat → List UInt8 → Ram
  | _, [] => ram
  | offset, b :: bytes => (ram.setByte f offset b).setBytes f (offset + 1) bytes

theorem Entry.bits_ofBits (b : BitVec 64) : (Entry.ofBits b).bits = b := by
  refine BitVec.eq_of_getLsbD_eq fun i hi => ?_
  unfold bits ofBits
  dsimp only
  rw [BitVec.getLsbD_append, BitVec.getLsbD_append]
  simp only [BitVec.getLsbD_extractLsb']
  by_cases h12 : i < 12
  · simp [h12]
  · by_cases h52 : i - 12 < 40
    · simp [h12, h52]
      congr 1
      omega
    · have : i - 12 - 40 < 12 := by omega
      simp [h12, h52, this]
      congr 1
      omega

/-- The bits of a word in which a byte was stored. -/
theorem Entry.getLsbD_setByte (e : Entry) {k j : Nat} (b : UInt8) (hj : j < 64) :
    (e.setByte k b).bits.getLsbD j =
      if 8 * k ≤ j ∧ j < 8 * k + 8 then b.toBitVec.getLsbD (j - 8 * k) else e.bits.getLsbD j := by
  unfold setByte
  rw [bits_ofBits, BitVec.getLsbD_or, BitVec.getLsbD_and, BitVec.getLsbD_not,
    BitVec.getLsbD_shiftLeft, BitVec.getLsbD_shiftLeft, BitVec.getLsbD_setWidth,
    BitVec.getLsbD_setWidth, BitVec.getLsbD_allOnes]
  by_cases hlow : j < 8 * k
  · simp [hj, hlow, Nat.not_le.mpr hlow]
  · by_cases hhigh : j < 8 * k + 8
    · have h8 : j - 8 * k < 8 := by omega
      have h64 : j - 8 * k < 64 := by omega
      simp [hj, hlow, hhigh, h8, h64, Nat.le_of_not_lt hlow]
    · have h8 : ¬ j - 8 * k < 8 := by omega
      have hb : b.toBitVec.getLsbD (j - 8 * k) = false := BitVec.getLsbD_of_ge _ _ (by omega)
      simp [hj, hlow, hhigh, h8, hb]

theorem Entry.byte_setByte_self (e : Entry) {k : Nat} (hk : k < 8) (b : UInt8) :
    (e.setByte k b).byte k = b := by
  refine UInt8.toBitVec_inj.mp (BitVec.eq_of_getLsbD_eq fun i hi => ?_)
  show ((e.setByte k b).bits.extractLsb' (8 * k) 8).getLsbD i = b.toBitVec.getLsbD i
  rw [BitVec.getLsbD_extractLsb', getLsbD_setByte e b (by omega), if_pos (by omega),
    Nat.add_sub_cancel_left, decide_eq_true hi, Bool.true_and]

theorem Entry.byte_setByte_of_ne (e : Entry) {j k : Nat} (hj : j < 8) (hne : j ≠ k) (b : UInt8) :
    (e.setByte k b).byte j = e.byte j := by
  refine UInt8.toBitVec_inj.mp (BitVec.eq_of_getLsbD_eq fun i hi => ?_)
  show ((e.setByte k b).bits.extractLsb' (8 * j) 8).getLsbD i =
    (e.bits.extractLsb' (8 * j) 8).getLsbD i
  rw [BitVec.getLsbD_extractLsb', BitVec.getLsbD_extractLsb', getLsbD_setByte e b (by omega),
    if_neg (by omega)]

/-! ## Memory -/

variable {ram : Ram} {f f' : Frame} {offset offset' : Nat} {b : UInt8}

theorem Ram.setByte_of_frame_ne (h : f' ≠ f) : ram.setByte f offset b f' = ram f' :=
  Ram.set_of_frame_ne h _ _

theorem Ram.byte_setByte_self : (ram.setByte f offset b).byte f offset = b := by
  unfold Ram.byte Ram.setByte
  rw [Ram.set_self]
  exact Entry.byte_setByte_self _ (Nat.mod_lt _ (by decide)) b

theorem Ram.byte_setByte_of_ne (ho : offset < 4096) (ho' : offset' < 4096)
    (h : ¬ (f' = f ∧ offset' = offset)) :
    (ram.setByte f offset b).byte f' offset' = ram.byte f' offset' := by
  unfold Ram.byte Ram.setByte
  by_cases hword : f' = f ∧ Fin.ofNat 512 (offset' / 8) = Fin.ofNat 512 (offset / 8)
  · obtain ⟨rfl, hindex⟩ := hword
    have hdiv : offset' / 8 = offset / 8 := by
      have hval := congrArg Fin.val hindex
      rw [Fin.val_ofNat, Fin.val_ofNat] at hval
      omega
    have hne : offset' ≠ offset := fun heq => h ⟨rfl, heq⟩
    rw [hindex, Ram.set_self]
    exact Entry.byte_setByte_of_ne _ (Nat.mod_lt _ (by decide)) (by omega) b
  · rw [Ram.set_of_ne hword]

theorem Ram.setBytes_of_frame_ne (h : f' ≠ f) : ∀ {ram : Ram} {offset : Nat} {bytes : List UInt8},
    ram.setBytes f offset bytes f' = ram f'
  | _, _, [] => rfl
  | ram, offset, b :: bytes => by
    show (ram.setByte f offset b).setBytes f (offset + 1) bytes f' = ram f'
    rw [Ram.setBytes_of_frame_ne h, Ram.setByte_of_frame_ne h]

/-- A byte of the frame after bytes were stored from `offset` on. -/
theorem Ram.byte_setBytes : ∀ {ram : Ram} {offset : Nat} {bytes : List UInt8} {o : Nat},
    offset + bytes.length ≤ 4096 → o < 4096 →
      (ram.setBytes f offset bytes).byte f o =
        if offset ≤ o then bytes.getD (o - offset) (ram.byte f o) else ram.byte f o
  | ram, offset, [], o, _, _ => by
    show ram.byte f o = _
    rw [List.getD_nil, ite_self]
  | ram, offset, b :: bytes, o, hlen, ho => by
    rw [List.length_cons] at hlen
    show ((ram.setByte f offset b).setBytes f (offset + 1) bytes).byte f o = _
    rw [Ram.byte_setBytes (by omega) ho]
    rcases Nat.lt_trichotomy o offset with hlt | rfl | hgt
    · rw [if_neg (by omega), if_neg (by omega)]
      exact Ram.byte_setByte_of_ne (by omega) ho fun h => by omega
    · rw [if_neg (by omega), if_pos (Nat.le_refl _), Nat.sub_self, Ram.byte_setByte_self]
      rfl
    · rw [if_pos (by omega), if_pos (by omega),
        Ram.byte_setByte_of_ne (by omega) ho fun h => by omega,
        show o - offset = o - (offset + 1) + 1 by omega, List.getD_cons_succ]

end Turnix.Lib.Paging

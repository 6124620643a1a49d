import Mathlib.Data.BitVec
import Mathlib.Data.List.Basic

/-!
# Rust on a 64-bit target

Panics, the integer operations that can panic, the casts between integer types and the conversions
of byte slices that the kernel uses. Integers are natural numbers; a `u64` or `usize` is one below
`2 ^ 64`. The kernel is built in the `dev` profile, so an overflowing `+` panics.
-/

namespace Turnix.Lib

/-- A panic and its message. -/
structure Panic where
  msg : String
deriving DecidableEq, Repr

/-- `isize::MAX`, the largest size of an allocation and of a slice in bytes. -/
def isizeMax : Nat := 2 ^ 63 - 1

/-- `checked_add` on `u64` and `usize`. -/
def checkedAdd (a b : Nat) : Option Nat := if a + b < 2 ^ 64 then some (a + b) else none

/-- `checked_mul` on `u64` and `usize`. -/
def checkedMul (a b : Nat) : Option Nat := if a * b < 2 ^ 64 then some (a * b) else none

/-- `a + b` on `u64` and `usize`. -/
def add64 (a b : Nat) : Except Panic Nat :=
  if a + b < 2 ^ 64 then .ok (a + b) else .error ⟨"attempt to add with overflow"⟩

/-- `a + b` on `u32`. -/
def add32 (a b : Nat) : Except Panic Nat :=
  if a + b < 2 ^ 32 then .ok (a + b) else .error ⟨"attempt to add with overflow"⟩

/-- `a + b` on `u8`. -/
def add8 (a b : Nat) : Except Panic Nat :=
  if a + b < 2 ^ 8 then .ok (a + b) else .error ⟨"attempt to add with overflow"⟩

/-- `a - b` on unsigned integers. -/
def usub (a b : Nat) : Except Panic Nat :=
  if b ≤ a then .ok (a - b) else .error ⟨"attempt to subtract with overflow"⟩

/-- `a / b` on unsigned integers. -/
def udiv (a b : Nat) : Except Panic Nat :=
  if 0 < b then .ok (a / b) else .error ⟨"attempt to divide by zero"⟩

/-- `a << n` on `u64` and `usize`. Bits that leave the word are lost. -/
def shl64 (a n : Nat) : Except Panic Nat :=
  if n < 64 then .ok (a * 2 ^ n % 2 ^ 64) else .error ⟨"attempt to shift left with overflow"⟩

/-- `a * b` on `u64` and `usize`. -/
def mul64 (a b : Nat) : Except Panic Nat :=
  if a * b < 2 ^ 64 then .ok (a * b) else .error ⟨"attempt to multiply with overflow"⟩

/-- `a * b` on `u32`. -/
def mul32 (a b : Nat) : Except Panic Nat :=
  if a * b < 2 ^ 32 then .ok (a * b) else .error ⟨"attempt to multiply with overflow"⟩

/-- `assert!`. -/
def ensure (c : Prop) [Decidable c] (msg : String) : Except Panic Unit :=
  if c then .ok () else .error ⟨msg⟩

/-- `Option::expect`. -/
def expect {α : Type} (msg : String) : Option α → Except Panic α
  | some a => .ok a
  | none => .error ⟨msg⟩

/-- `x as i64` for a `u64`. -/
def asI64 (x : Nat) : Int := if x < 2 ^ 63 then x else x - 2 ^ 64

/-- `x as i32` for a `u64`. -/
def asI32 (x : Nat) : Int := if x % 2 ^ 32 < 2 ^ 31 then x % 2 ^ 32 else x % 2 ^ 32 - 2 ^ 32

/-- `x as u64` for an `i64`. -/
def i64AsU64 (x : Int) : Nat := (x % 2 ^ 64).toNat

/-- `core::str::from_utf8(bytes).ok()`. -/
def fromUtf8 (bytes : List UInt8) : Option String := String.fromUTF8? bytes.toByteArray

/-- `s.as_bytes()`. -/
def asBytes (s : String) : List UInt8 := s.toUTF8.data.toList

/-- `uN::from_le_bytes`. -/
def fromLeBytes (bytes : List UInt8) : Nat := bytes.foldr (fun b acc => b.toNat + 256 * acc) 0

/-- `x.to_le_bytes()`, for an integer of `n` bytes. -/
def toLeBytes : Nat → Nat → List UInt8
  | 0, _ => []
  | n + 1, x => UInt8.ofNat x :: toLeBytes n (x / 256)

/-- `bytes[start..stop]`. -/
def slice (bytes : List UInt8) (start stop : Nat) : Except Panic (List UInt8) :=
  let len := bytes.length
  if stop < start then .error ⟨s!"slice index starts at {start} but ends at {stop}"⟩
  else if len < stop then
    .error ⟨s!"range end index {stop} out of range for slice of length {len}"⟩
  else .ok ((bytes.drop start).take (stop - start))

/-- `bytes[start..]`. -/
def sliceFrom (bytes : List UInt8) (start : Nat) : Except Panic (List UInt8) :=
  let len := bytes.length
  if len < start then .error ⟨s!"range start index {start} out of range for slice of length {len}"⟩
  else .ok (bytes.drop start)

/-- `bytes.get(start..stop)`. -/
def getRange (bytes : List UInt8) (start stop : Nat) : Option (List UInt8) :=
  if start ≤ stop ∧ stop ≤ bytes.length then some ((bytes.drop start).take (stop - start)) else none

/-- `bytes[index]`. -/
def byteAt (bytes : List UInt8) (index : Nat) : Except Panic UInt8 :=
  let len := bytes.length
  match bytes[index]? with
  | some b => .ok b
  | none => .error ⟨s!"index out of bounds: the len is {len} but the index is {index}"⟩

/-- `(x + align - 1) & !(align - 1)` on `usize`, for a sum that does not overflow. -/
def roundUp (x align : Nat) : Nat := (x + align - 1) &&& (2 ^ 64 - align)

theorem bind_eq_ok {ε α β : Type} {x : Except ε α} {f : α → Except ε β} {b : β} :
    (x >>= f) = .ok b ↔ ∃ a, x = .ok a ∧ f a = .ok b := by
  cases x with
  | error e =>
    constructor
    · intro h
      cases h
    · rintro ⟨a, h, -⟩
      cases h
  | ok a =>
    constructor
    · intro h
      exact ⟨a, rfl, h⟩
    · rintro ⟨a', h, hf⟩
      cases h
      exact hf

theorem ite_error_eq_ok {ε α : Type} {c : Prop} [Decidable c] {e : ε} {x : Except ε α} {a : α} :
    (if c then .error e else x) = .ok a ↔ ¬ c ∧ x = .ok a := by
  by_cases hc : c
  · rw [if_pos hc]
    exact ⟨nofun, fun h => absurd hc h.1⟩
  · rw [if_neg hc]
    exact ⟨fun h => ⟨hc, h⟩, fun h => h.2⟩

theorem ite_ok_eq_ok {ε α : Type} {c : Prop} [Decidable c] {e : ε} {a b : α} :
    (if c then .ok a else .error e : Except ε α) = .ok b ↔ c ∧ a = b := by
  by_cases hc : c
  · rw [if_pos hc]
    exact ⟨fun h => ⟨hc, Except.ok.inj h⟩, fun h => congrArg _ h.2⟩
  · rw [if_neg hc]
    constructor
    · intro h
      cases h
    · intro h
      exact absurd h.1 hc

theorem add64_eq_ok {a b c : Nat} : add64 a b = .ok c ↔ a + b < 2 ^ 64 ∧ a + b = c := ite_ok_eq_ok

theorem add32_eq_ok {a b c : Nat} : add32 a b = .ok c ↔ a + b < 2 ^ 32 ∧ a + b = c := ite_ok_eq_ok

theorem add8_eq_ok {a b c : Nat} : add8 a b = .ok c ↔ a + b < 2 ^ 8 ∧ a + b = c := ite_ok_eq_ok

theorem usub_eq_ok {a b c : Nat} : usub a b = .ok c ↔ b ≤ a ∧ a - b = c := ite_ok_eq_ok

theorem udiv_eq_ok {a b c : Nat} : udiv a b = .ok c ↔ 0 < b ∧ a / b = c := ite_ok_eq_ok

theorem shl64_eq_ok {a n c : Nat} : shl64 a n = .ok c ↔ n < 64 ∧ a * 2 ^ n % 2 ^ 64 = c := ite_ok_eq_ok

theorem mul64_eq_ok {a b c : Nat} : mul64 a b = .ok c ↔ a * b < 2 ^ 64 ∧ a * b = c := ite_ok_eq_ok

theorem bind_ok_eq_error {α β : Type} {x : Except Panic α} {f : α → β} {p : Panic} :
    (x >>= fun a => .ok (f a)) = .error p ↔ x = .error p := by
  cases x with
  | error q => simp [bind, Except.bind]
  | ok a => simp [bind, Except.bind]

/-- A computation that panics with no message but this one. -/
def PanicsOnly {α : Type} (msg : String) (x : Except Panic α) : Prop := ∀ p, x = .error p → p.msg = msg

theorem panicsOnly_ok {α : Type} (msg : String) (a : α) : PanicsOnly msg (.ok a) := by
  intro p h
  cases h

theorem PanicsOnly.bind {α β : Type} {msg : String} {x : Except Panic α} {f : α → Except Panic β}
    (h : PanicsOnly msg x) (hf : ∀ a, x = .ok a → PanicsOnly msg (f a)) : PanicsOnly msg (x >>= f) := by
  cases x with
  | error p =>
    intro q hq
    cases hq
    exact h p rfl
  | ok a => exact hf a rfl

theorem panicsOnly_add64 (a b : Nat) : PanicsOnly "attempt to add with overflow" (add64 a b) := by
  intro p h
  unfold add64 at h
  split at h
  · cases h
  · cases h
    rfl

/-- Two computations that fail in the same way or return related values. -/
inductive Refines {ε α β : Type} (R : α → β → Prop) : Except ε α → Except ε β → Prop
  | error (e : ε) : Refines R (.error e) (.error e)
  | ok {a : α} {b : β} : R a b → Refines R (.ok a) (.ok b)

theorem Refines.refl {ε α : Type} (x : Except ε α) : Refines Eq x x := by
  cases x with
  | error e => exact .error e
  | ok a => exact .ok rfl

theorem Refines.bind {ε α β γ δ : Type} {R : α → β → Prop} {S : γ → δ → Prop} {x : Except ε α} {y : Except ε β}
    {f : α → Except ε γ} {g : β → Except ε δ} (h : Refines R x y)
    (hf : ∀ a b, x = .ok a → y = .ok b → R a b → Refines S (f a) (g b)) : Refines S (x >>= f) (y >>= g) := by
  cases h with
  | error e => exact .error e
  | ok hab => exact hf _ _ rfl rfl hab

/-- A common first step. -/
theorem Refines.bind_same {ε α γ δ : Type} {S : γ → δ → Prop} {x : Except ε α} {f : α → Except ε γ}
    {g : α → Except ε δ} (hf : ∀ a, x = .ok a → Refines S (f a) (g a)) : Refines S (x >>= f) (x >>= g) := by
  refine (Refines.refl x).bind fun a b ha _ hab => ?_
  cases hab
  exact hf a ha

theorem checkedAdd_eq_some {a b c : Nat} :
    checkedAdd a b = some c ↔ a + b < 2 ^ 64 ∧ a + b = c := by
  unfold checkedAdd
  simp only [Option.ite_none_right_eq_some, Option.some.injEq]

theorem expect_eq_ok {α : Type} {msg : String} {o : Option α} {a : α} :
    expect msg o = .ok a ↔ o = some a := by
  cases o <;> simp [expect]

theorem asI64_neg_iff {x : Nat} (hx : x < 2 ^ 64) : asI64 x < 0 ↔ 2 ^ 63 ≤ x := by
  unfold asI64
  split <;> omega

/-! ## Bytes -/

theorem slice_eq_ok {bytes : List UInt8} {start n : Nat} (h : start + n ≤ bytes.length) :
    slice bytes start (start + n) = .ok ((bytes.drop start).take n) := by
  unfold slice
  dsimp only
  rw [if_neg (by omega), if_neg (by omega), Nat.add_sub_cancel_left]

theorem sliceFrom_eq_ok {bytes : List UInt8} {start : Nat} (h : start ≤ bytes.length) :
    sliceFrom bytes start = .ok (bytes.drop start) := by
  unfold sliceFrom
  dsimp only
  rw [if_neg (by omega)]

theorem getRange_eq_some {bytes : List UInt8} {start n : Nat} (h : start + n ≤ bytes.length) :
    getRange bytes start (start + n) = some ((bytes.drop start).take n) := by
  unfold getRange
  rw [if_pos (by omega), Nat.add_sub_cancel_left]

theorem byteAt_eq_ok {bytes : List UInt8} {index : Nat} (h : index < bytes.length) :
    byteAt bytes index = .ok bytes[index] := by
  unfold byteAt
  rw [List.getElem?_eq_getElem h]

theorem length_toLeBytes : ∀ n x : Nat, (toLeBytes n x).length = n
  | 0, _ => rfl
  | n + 1, x => congrArg Nat.succ (length_toLeBytes n (x / 256))

/-- What is written with `to_le_bytes` is read back with `from_le_bytes`. -/
theorem fromLeBytes_toLeBytes : ∀ {n x : Nat}, x < 256 ^ n → fromLeBytes (toLeBytes n x) = x
  | 0, x, h => by
    rw [Nat.pow_zero] at h
    show 0 = x
    omega
  | n + 1, x, h => by
    have hdiv : x / 256 < 256 ^ n := by
      rw [Nat.pow_succ] at h
      exact Nat.div_lt_of_lt_mul (by omega)
    show (UInt8.ofNat x).toNat + 256 * fromLeBytes (toLeBytes n (x / 256)) = x
    rw [fromLeBytes_toLeBytes hdiv, UInt8.toNat_ofNat']
    omega

theorem fromLeBytes_lt : ∀ bytes : List UInt8, fromLeBytes bytes < 256 ^ bytes.length
  | [] => Nat.one_pos
  | b :: bytes => by
    have hb := b.toNat_lt
    have hrest := fromLeBytes_lt bytes
    show b.toNat + 256 * fromLeBytes bytes < 256 ^ (bytes.length + 1)
    rw [Nat.pow_succ]
    omega

theorem fromUtf8_asBytes (s : String) : fromUtf8 (asBytes s) = some s := by
  have hbytes : (asBytes s).toByteArray = s.toByteArray := by
    refine ByteArray.ext ?_
    rw [List.data_toByteArray]
    rfl
  unfold fromUtf8 String.fromUTF8?
  rw [hbytes, dif_pos s.isValidUTF8]
  rfl

theorem asBytes_append (s t : String) : asBytes (s ++ t) = asBytes s ++ asBytes t := by
  show (s ++ t).toByteArray.data.toList = s.toByteArray.data.toList ++ t.toByteArray.data.toList
  rw [String.toByteArray_append, ByteArray.data_append, Array.toList_append]

theorem asBytes_of_fromUtf8 {bytes : List UInt8} {s : String} (h : fromUtf8 bytes = some s) :
    asBytes s = bytes := by
  unfold fromUtf8 String.fromUTF8? at h
  split at h
  · cases h
    show bytes.toByteArray.data.toList = bytes
    rw [List.data_toByteArray]
  · cases h

/-! ## Rounding up to a power of two -/

/-- The mask `!(2 ^ k - 1)` clears the `k` low bits. -/
theorem land_high_mask {k x : Nat} (hk : k ≤ 64) (hx : x < 2 ^ 64) :
    x &&& (2 ^ 64 - 2 ^ k) = x / 2 ^ k * 2 ^ k := by
  have hmask : 2 ^ 64 - 2 ^ k = 2 ^ 64 - ((2 ^ k - 1) + 1) := by
    have := Nat.two_pow_pos k
    omega
  have hlt : 2 ^ k - 1 < 2 ^ 64 := by
    have := Nat.pow_le_pow_right (n := 2) (by decide) hk
    have := Nat.two_pow_pos k
    omega
  refine Nat.eq_of_testBit_eq fun i => ?_
  rw [Nat.testBit_and, hmask, Nat.testBit_two_pow_sub_succ hlt, Nat.testBit_two_pow_sub_one,
    Nat.testBit_mul_two_pow, Nat.testBit_div_two_pow]
  by_cases hi : k ≤ i
  · rw [decide_eq_true hi, decide_eq_false (show ¬ i < k by omega), Nat.sub_add_cancel hi]
    by_cases h64 : i < 64
    · simp [h64]
    · have : x.testBit i = false :=
        Nat.testBit_lt_two_pow (Nat.lt_of_lt_of_le hx (Nat.pow_le_pow_right (by decide) (by omega)))
      simp [this]
  · rw [decide_eq_false hi, decide_eq_true (show i < k by omega)]
    simp

theorem roundUp_eq {k x : Nat} (hk : k ≤ 64) (hx : x + 2 ^ k - 1 < 2 ^ 64) :
    roundUp x (2 ^ k) = (x + 2 ^ k - 1) / 2 ^ k * 2 ^ k :=
  land_high_mask hk hx

theorem dvd_roundUp {k x : Nat} (hk : k ≤ 64) (hx : x + 2 ^ k - 1 < 2 ^ 64) :
    2 ^ k ∣ roundUp x (2 ^ k) := by
  rw [roundUp_eq hk hx]
  exact Nat.dvd_mul_left _ _

theorem le_roundUp {k x : Nat} (hk : k ≤ 64) (hx : x + 2 ^ k - 1 < 2 ^ 64) :
    x ≤ roundUp x (2 ^ k) := by
  rw [roundUp_eq hk hx]
  have hpos := Nat.two_pow_pos k
  have hdiv := Nat.div_add_mod (x + 2 ^ k - 1) (2 ^ k)
  have hmod := Nat.mod_lt (x + 2 ^ k - 1) hpos
  rw [Nat.mul_comm] at hdiv
  omega

/-! ### Vectors -/

/-- An element is changed in place. -/
theorem map_modify {α β : Type} {n : Nat} {p : α → β} {g : α → α} {q : β → β} {l : List α}
    (h : ∀ x, p (g x) = q (p x)) : (l.modify n g).map p = (l.map p).modify n q := by
  refine List.ext_getElem? fun j => ?_
  rw [List.getElem?_map, List.getElem?_modify, List.getElem?_modify, List.getElem?_map]
  rcases l[j]? with _ | x
  · rfl
  · show some (p (if n = j then g x else x)) = some (if n = j then q (p x) else p x)
    by_cases heq : n = j
    · rw [if_pos heq, if_pos heq, h]
    · rw [if_neg heq, if_neg heq]

/-- An element of a list to which one was pushed. -/
theorem getElem?_concat {α : Type} {l : List α} {x y : α} {i : Nat} (h : (l ++ [x])[i]? = some y) :
    l[i]? = some y ∨ i = l.length ∧ y = x := by
  rw [List.getElem?_append] at h
  split at h
  · exact .inl h
  · obtain ⟨hi, rfl⟩ := List.getElem?_eq_some_iff.mp h
    rw [List.length_singleton] at hi
    exact .inr ⟨by omega, List.getElem_singleton _⟩

end Turnix.Lib

import Turnix.DirectoryListing

/-!
# Numbers on the terminal

`print_u64` of the shell, with which it prints its process number and the uptime. It fills a buffer of 20 bytes from
the end on and prints what it has filled. `print_u64_decimal`: it ends, it does not leave the buffer, and what it
prints is the decimal numeral.
-/

namespace Turnix.Shell

open Lib ListingLemmas

/-- The loop of `print_u64`: `idx` and the buffer at its end. -/
def printLoop (n idx : Nat) (buf : List UInt8) : Except Panic (Nat × List UInt8) :=
  if h : n > 0 then do
    let idx ← usub idx 1
    let digit ← add8 48 (n % 10 % 2 ^ 8)
    let buf ← setByte buf idx (UInt8.ofNat digit)
    printLoop (n / 10) idx buf
  else .ok (idx, buf)
termination_by n
decreasing_by exact Nat.div_lt_self h (by decide)

/-- `print_u64`: the texts that it gives to `tty_print`, in order. -/
def printU64 (n : Nat) : Except Panic (List String) :=
  if n = 0 then .ok ["0"]
  else do
    let (idx, buf) ← printLoop n 20 (List.replicate 20 0)
    let bytes ← sliceFrom buf idx
    match fromUtf8 bytes with
    | some s => return [s]
    | none => return []

/-- The text is the decimal numeral of `n`: digits only, none of them a leading zero, with the value `n`. -/
structure Numeral (text : String) (n : Nat) : Prop where
  nonempty : text ≠ ""
  digits : ∀ c ∈ text.toList, c.isDigit = true
  leading : text.toList.head? = some '0' → n = 0 ∧ text = "0"
  value : Nat.ofDigitChars 10 text.toList 0 = n

namespace ShellLemmas

/-! ## Numerals -/

theorem toList_toString (n : Nat) : (toString n).toList = Nat.toDigits 10 n := by
  rw [Nat.toString_eq_repr, Nat.toList_repr]

theorem head_toDigits_ne (n : Nat) (hn : n ≠ 0) : (Nat.toDigits 10 n).head? ≠ some '0' := by
  induction n using Nat.strong_induction_on with
  | _ n ih =>
    rw [Nat.toDigits_eq_if (by decide)]
    split
    · intro h
      exact hn (Nat.digitChar_eq_zero.mp (Option.some.inj h))
    · rw [List.head?_append_of_ne_nil _ Nat.toDigits_ne_nil]
      exact ih (n / 10) (by omega) (by omega)

theorem numeral_toString (n : Nat) : Numeral (toString n) n where
  nonempty h := by
    have hlist := toList_toString n
    rw [h] at hlist
    exact Nat.toDigits_ne_nil hlist.symm
  digits c hc := by
    rw [toList_toString] at hc
    exact Nat.isDigit_of_mem_toDigits (by decide) (by decide) hc
  leading h := by
    rw [toList_toString] at h
    by_cases hn : n = 0
    · subst hn
      exact ⟨rfl, rfl⟩
    · exact absurd h (head_toDigits_ne n hn)
  value := by rw [toList_toString, Nat.ofDigitChars_ten_toDigits]

/-! ## The loop -/

/-- The bytes that the loop writes. -/
def written (n : Nat) : List UInt8 := if n = 0 then [] else asBytes (toString n)

theorem asBytes_digitChar : ∀ d < 10, asBytes (String.ofList [d.digitChar]) = [UInt8.ofNat (48 + d)] := by
  decide

/-- One round of the loop writes the last digit. -/
theorem written_succ {n : Nat} (hn : 0 < n) :
    written n = written (n / 10) ++ [UInt8.ofNat (48 + n % 10)] := by
  have hlast := asBytes_digitChar (n % 10) (Nat.mod_lt n (by decide))
  unfold written
  rw [if_neg (by omega), Nat.toString_eq_repr, Nat.repr_eq_ofList_toDigits, Nat.toDigits_eq_if (by decide)]
  by_cases hsmall : n < 10
  · rw [if_pos hsmall, if_pos (Nat.div_eq_of_lt hsmall), ← hlast, Nat.mod_eq_of_lt hsmall]
    rfl
  · rw [if_neg hsmall, if_neg (by omega), String.ofList_append, asBytes_append, hlast, ← Nat.repr_eq_ofList_toDigits,
      ← Nat.toString_eq_repr]

theorem length_written {n : Nat} (hn : 0 < n) : (written n).length = (written (n / 10)).length + 1 := by
  rw [written_succ hn, List.length_append, List.length_singleton]

theorem length_written_le (k : Nat) {n : Nat} (hn : n < 10 ^ k) : (written n).length ≤ k := by
  induction k generalizing n with
  | zero =>
    have hzero : n = 0 := by omega
    subst hzero
    exact Nat.le_refl 0
  | succ k ih =>
    rcases Nat.eq_zero_or_pos n with rfl | hpos
    · exact Nat.zero_le _
    · have hdiv : n / 10 < 10 ^ k := by
        rw [Nat.pow_succ] at hn
        omega
      have hle := ih hdiv
      rw [length_written hpos]
      omega

theorem drop_set_self {buf : List UInt8} {idx : Nat} (byte : UInt8) (h : idx < buf.length) :
    (buf.set idx byte).drop idx = byte :: buf.drop (idx + 1) := by
  rw [List.drop_set, if_neg (Nat.lt_irrefl idx), Nat.sub_self, List.drop_eq_getElem_cons h, List.set_cons_zero]

/-- The loop writes the digits of `n` in front of `idx`; the rest of the buffer stays. -/
theorem printLoop_eq (n : Nat) {idx : Nat} {buf : List UInt8} (hidx : (written n).length ≤ idx)
    (hbuf : idx ≤ buf.length) :
    printLoop n idx buf = .ok (idx - (written n).length,
      buf.take (idx - (written n).length) ++ written n ++ buf.drop idx) := by
  induction n using Nat.strong_induction_on generalizing idx buf with
  | _ n ih =>
    unfold printLoop
    by_cases hn : n > 0
    · have hlen := length_written hn
      obtain ⟨at_, rfl⟩ : ∃ at_, idx = at_ + 1 := ⟨idx - 1, by omega⟩
      have hdigit : add8 48 (n % 10 % 2 ^ 8) = .ok (48 + n % 10) := add8_eq_ok.mpr ⟨by omega, by omega⟩
      have hset := setByte_eq_ok (UInt8.ofNat (48 + n % 10)) hbuf
      have hrest := drop_set_self (UInt8.ofNat (48 + n % 10)) hbuf
      have hfits : at_ ≤ (buf.set at_ (UInt8.ofNat (48 + n % 10))).length := by
        rw [List.length_set]
        omega
      rw [dif_pos hn, usub_eq_ok.mpr ⟨Nat.le_add_left 1 at_, Nat.add_sub_cancel at_ 1⟩]
      show (add8 _ _ >>= fun digit => _) = _
      rw [hdigit]
      show (setByte _ _ _ >>= fun buf' => _) = _
      rw [hset]
      show printLoop (n / 10) at_ _ = _
      rw [ih (n / 10) (Nat.div_lt_self hn (by decide)) (by omega) hfits, hrest,
        List.take_set_of_le (Nat.sub_le _ _), hlen, Nat.add_sub_add_right, written_succ hn]
      simp only [List.append_assoc, List.singleton_append]
    · have hzero : n = 0 := by omega
      subst hzero
      rw [dif_neg hn]
      show _ = Except.ok (idx, buf.take idx ++ [] ++ buf.drop idx)
      rw [List.append_nil, List.take_append_drop]

/-- What lies behind the start of the digits at the end of the loop is the digits. -/
theorem printLoop_digits {n : Nat} (hn : n < 2 ^ 64) :
    ∃ idx buf, printLoop n 20 (List.replicate 20 0) = .ok (idx, buf) ∧ sliceFrom buf idx = .ok (written n) := by
  have hlen : (written n).length ≤ 20 := length_written_le 20 (by omega)
  have htake : ((List.replicate 20 (0 : UInt8)).take (20 - (written n).length)).length = 20 - (written n).length := by
    rw [List.length_take, List.length_replicate]
    omega
  have hend : (List.replicate 20 (0 : UInt8)).drop 20 = [] := rfl
  refine ⟨_, _, printLoop_eq n hlen (by decide), ?_⟩
  rw [sliceFrom_eq_ok, List.append_assoc, List.drop_left' htake, hend, List.append_nil]
  rw [List.length_append, List.length_append, htake]
  omega

theorem printU64_eq {n : Nat} (hn : n < 2 ^ 64) : printU64 n = .ok [toString n] := by
  unfold printU64
  by_cases hzero : n = 0
  · subst hzero
    rfl
  · obtain ⟨idx, buf, hloop, hdigits⟩ := printLoop_digits hn
    have hwritten : written n = asBytes (toString n) := if_neg hzero
    rw [if_neg hzero, hloop]
    show (sliceFrom buf idx >>= fun bytes => _) = _
    rw [hdigits, hwritten]
    simp only [bind, Except.bind, fromUtf8_asBytes]
    rfl

end ShellLemmas

open ShellLemmas

/-- `print_u64` prints the decimal numeral of every `u64`. -/
theorem print_u64_decimal {n : Nat} (hn : n < 2 ^ 64) :
    ∃ text, printU64 n = .ok [text] ∧ text = toString n ∧ Numeral text n :=
  ⟨toString n, printU64_eq hn, rfl, numeral_toString n⟩

/-- The largest one fills the whole buffer. -/
theorem print_u64_decimal_max :
    ∃ text, printU64 (2 ^ 64 - 1) = .ok [text] ∧ text = "18446744073709551615" ∧ Numeral text (2 ^ 64 - 1) :=
  print_u64_decimal (by decide)

example : printU64 90210 = .ok ["90210"] := by decide +kernel

end Turnix.Shell

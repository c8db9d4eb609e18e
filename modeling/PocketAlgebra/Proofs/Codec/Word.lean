import Mathlib.Data.Nat.Bitwise
import PocketAlgebra.Proofs.Codec.Bytes

/-!
# Words and numbers have the same bytes

Masks and shifts of words do what divisions and remainders of numbers do, as long as no bit is lost.
So words are written and read as the numbers that they stand for.
-/

namespace PocketAlgebra

namespace Codec

/-! ## Writing words -/

section Writing

theorem toNat_lowDigit (w : UInt64) : (lowDigit w).toNat = w.toNat % 128 := by
  have hmask : w.toNat &&& (0x7F : UInt64).toNat = w.toNat % 128 :=
    Nat.and_two_pow_sub_one_eq_mod w.toNat 7
  rw [lowDigit, UInt64.toNat_toUInt8, UInt64.toNat_and, hmask]
  omega

theorem lowDigit_eq (w : UInt64) : lowDigit w = UInt8.ofNat (w.toNat % 128) := by
  apply UInt8.toNat_inj.mp
  rw [toNat_lowDigit, UInt8.toNat_ofNat']
  omega

/-- The top bit of a byte is above the digit that it holds. -/
theorem lowDigit_or_top (w : UInt64) : lowDigit w ||| 0x80 = UInt8.ofNat (w.toNat % 128 + 128) := by
  have hor : w.toNat % 128 ||| 128 = w.toNat % 128 + 128 := by
    rw [Nat.or_comm, Nat.add_comm]
    exact (Nat.two_pow_add_eq_or_of_lt (i := 7) (Nat.mod_lt _ (by decide)) 1).symm
  apply UInt8.toNat_inj.mp
  rw [UInt8.toNat_or, toNat_lowDigit, toNat_higherDigit]
  exact hor

theorem higherDigitsOfWord_eq (w : UInt64) : higherDigitsOfWord w = higherDigits w.toNat := by
  induction w using higherDigitsOfWord.induct with
  | case1 =>
      rw [higherDigitsOfWord, if_pos rfl]
      exact higherDigits_zero.symm
  | case2 w hne ih =>
      have hpos : w.toNat ≠ 0 := fun hzero => hne (UInt64.toNat_inj.mp hzero)
      rw [higherDigitsOfWord, if_neg hne, lowDigit_or_top, ih, toNat_shiftRight_seven,
        higherDigits_pos hpos]

theorem encodeWord_eq (w : UInt64) : encodeWord w = encodeNat w.toNat := by
  rw [encodeWord, encodeNat, lowDigit_eq, higherDigitsOfWord_eq, toNat_shiftRight_seven]

end Writing

/-! ## Reading words -/

section Reading

variable {value : UInt64}

theorem top_clear_iff (b : UInt8) : b &&& 0x80 = 0 ↔ b.toNat < 128 := by
  have hbit : (b &&& 0x80).toNat = (b.toNat.testBit 7).toNat * 128 := by
    rw [UInt8.toNat_and]
    exact Nat.and_two_pow b.toNat 7
  have htest : b.toNat.testBit 7 = decide (128 ≤ b.toNat) := by
    have hbyte := b.toNat_lt
    rw [Nat.testBit_eq_decide_div_mod_eq, decide_eq_decide]
    omega
  rw [← UInt8.toNat_inj, hbit, htest]
  by_cases hset : 128 ≤ b.toNat
  · simp [hset]
  · simp [hset, Nat.not_le.mp hset]

theorem shiftRight_ne_zero_iff (value : UInt64) : value >>> 57 ≠ 0 ↔ 2 ^ 57 ≤ value.toNat := by
  have hshift : (value >>> 57).toNat = value.toNat / 2 ^ 57 := by
    rw [UInt64.toNat_shiftRight]
    exact Nat.shiftRight_eq_div_pow value.toNat 57
  rw [ne_eq, ← UInt64.toNat_inj, hshift]
  show value.toNat / 2 ^ 57 ≠ 0 ↔ _
  omega

/-- There is room for another digit just where the seven highest bits of a word are free. -/
theorem room_iff {value digits : Nat} (hvalue : value < 128 ^ digits) :
    ¬ (maxDigits ≤ digits || (digits + 1 = maxDigits && 1 <<< 57 ≤ value)) = true ↔
      digits < maxDigits ∧ value < 2 ^ 57 := by
  constructor
  · intro hroom
    simp only [Bool.or_eq_true, Bool.and_eq_true, decide_eq_true_eq, not_or, not_and, not_le,
      Nat.one_shiftLeft] at hroom
    refine ⟨hroom.1, ?_⟩
    by_cases hlast : digits + 1 = maxDigits
    · exact hroom.2 hlast
    · have hfew : digits ≤ 8 := by
        have hmost : digits < 10 := hroom.1
        have hother : digits + 1 ≠ 10 := hlast
        omega
      calc value < 128 ^ digits := hvalue
        _ ≤ 128 ^ 8 := Nat.pow_le_pow_right (by decide) hfew
        _ < 2 ^ 57 := by decide
  · rintro ⟨hfew, hfree⟩
    rw [roomForDigit (Nat.le_of_lt_succ hfew) hfree]
    exact Bool.false_ne_true

/-- With the seven highest bits of a word free, no bit is lost when a digit is taken in. -/
theorem toNat_push (hfree : value.toNat < 2 ^ 57) (b : UInt8) :
    (value <<< 7 ||| (b.toUInt64 &&& 0x7F)).toNat = value.toNat * 128 + b.toNat % 128 := by
  have hmask : b.toNat &&& (0x7F : UInt64).toNat = b.toNat % 128 :=
    Nat.and_two_pow_sub_one_eq_mod b.toNat 7
  have hshift : (value <<< 7).toNat = 2 ^ 7 * value.toNat := by
    rw [UInt64.toNat_shiftLeft]
    show value.toNat <<< 7 % 2 ^ 64 = _
    rw [Nat.shiftLeft_eq]
    omega
  rw [UInt64.toNat_or, UInt64.toNat_and, UInt8.toNat_toUInt64, hmask, hshift,
    ← Nat.two_pow_add_eq_or_of_lt (Nat.mod_lt _ (by decide)), Nat.mul_comm]

/-- What is read into a word is what is read as a number: a word has room for all digits that are
not refused. -/
theorem readWordDigits_eq {digits : Nat} (hvalue : value.toNat < 128 ^ digits)
    (stack : List UInt8) :
    Prod.map (Option.map UInt64.toNat) id (readWordDigits value digits stack) =
      readDigits value.toNat digits stack := by
  induction stack generalizing value digits with
  | nil => rfl
  | cons b rest ih =>
      have hguard : (maxDigits < digits + 1 || (digits + 1 = maxDigits && value >>> 57 ≠ 0)) =
          (maxDigits ≤ digits || (digits + 1 = maxDigits && 1 <<< 57 ≤ value.toNat)) := by
        simp only [shiftRight_ne_zero_iff, Nat.lt_succ_iff, Nat.one_shiftLeft]
      rw [readWordDigits, readDigits, hguard]
      by_cases hfull : (maxDigits ≤ digits ||
          (digits + 1 = maxDigits && 1 <<< 57 ≤ value.toNat)) = true
      · rw [if_pos hfull, if_pos hfull]
        rfl
      · have hpush := toNat_push ((room_iff hvalue).mp hfull).2 b
        rw [if_neg hfull, if_neg hfull]
        dsimp only
        rw [← hpush]
        simp only [top_clear_iff]
        split_ifs with hclear
        · rfl
        · apply ih
          rw [hpush, Nat.pow_succ]
          omega

theorem readWord_eq (stack : List UInt8) :
    Prod.map (Option.map UInt64.toNat) id (readWord stack) = readNat stack :=
  readWordDigits_eq (by decide) stack

end Reading

/-! ## Integers with a sign -/

section Signed

/-- The sign of a number, spread over all bits of a word. -/
theorem sshiftRight_sign (x : BitVec 64) :
    x.sshiftRight 63 = if x.toInt < 0 then BitVec.allOnes 64 else 0#64 := by
  have hleast := BitVec.le_toInt x
  have hmost := BitVec.toInt_lt (x := x)
  apply BitVec.eq_of_toInt_eq
  rw [BitVec.toInt_sshiftRight, Int.shiftRight_eq_div_pow]
  split_ifs with hsign
  · rw [BitVec.toInt_allOnes]
    simp only [Nat.reduceSub] at hleast hmost
    simp
    omega
  · simp
    omega

theorem toNat_zigzagWord (n : Int64) : (zigzagWord n).toNat = zigzag n.toInt := by
  let x := n.toBitVec
  have hbits : (zigzagWord n).toNat = ((x <<< 1) ^^^ x.sshiftRight 63).toNat := rfl
  have hvalue : n.toInt = x.toInt := rfl
  have hcast := BitVec.toInt_eq_toNat_cond x
  have hrange := x.isLt
  have hdouble : (x <<< 1).toNat = 2 * x.toNat % 2 ^ 64 := by
    rw [BitVec.toNat_shiftLeft, Nat.shiftLeft_eq, Nat.mul_comm]
  rw [hbits, hvalue, sshiftRight_sign, zigzag]
  by_cases hsign : x.toInt < 0
  · rw [if_pos hsign, if_neg (by omega), BitVec.xor_allOnes, BitVec.toNat_not, hdouble]
    split_ifs at hcast <;> omega
  · rw [if_neg hsign, if_pos (by omega), BitVec.xor_zero, hdouble]
    split_ifs at hcast <;> omega

theorem toInt_unzigzagWord (w : UInt64) : (unzigzagWord w).toInt = unzigzag w.toNat := by
  let x := w.toBitVec
  have hbits : (unzigzagWord w).toInt = ((x >>> 1) ^^^ -(x &&& 1)).toInt := rfl
  have hvalue : w.toNat = x.toNat := rfl
  have hrange := x.isLt
  have hhalf : (x >>> 1).toNat = x.toNat / 2 := by
    rw [BitVec.toNat_ushiftRight]
    exact Nat.shiftRight_eq_div_pow x.toNat 1
  have hlow : (x &&& 1).toNat = x.toNat % 2 := by
    rw [BitVec.toNat_and]
    exact Nat.and_two_pow_sub_one_eq_mod x.toNat 1
  have hcast (y : BitVec 64) := BitVec.toInt_eq_toNat_cond y
  rw [hbits, hvalue, unzigzag]
  by_cases heven : x.toNat % 2 = 0
  · have hzero : x &&& 1 = 0#64 := BitVec.eq_of_toNat_eq (hlow.trans heven)
    rw [if_pos heven, hzero, BitVec.neg_zero, BitVec.xor_zero, hcast, hhalf, if_pos (by omega)]
  · have hone : x &&& 1 = 1#64 := BitVec.eq_of_toNat_eq (hlow.trans (Nat.mod_two_ne_zero.mp heven))
    have hones : -1#64 = BitVec.allOnes 64 := by decide
    rw [if_neg heven, hone, hones, BitVec.xor_allOnes, hcast, BitVec.toNat_not, hhalf,
      if_neg (by omega)]
    omega

theorem encodeSigned_eq (n : Int64) : encodeSigned n = encodeInt n.toInt := by
  rw [encodeSigned, encodeWord_eq, toNat_zigzagWord, encodeInt]

theorem readSigned_eq (stack : List UInt8) :
    Prod.map (Option.map Int64.toInt) id (readSigned stack) = readInt stack := by
  rw [readSigned, readInt, ← readWord_eq]
  cases hread : readWord stack with
  | mk w rest =>
      cases w with
      | none => rfl
      | some w => simp [toInt_unzigzagWord]

end Signed

end Codec

end PocketAlgebra

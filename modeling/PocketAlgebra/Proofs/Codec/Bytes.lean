import Mathlib.Algebra.Group.Int.Defs
import Mathlib.Algebra.Group.Nat.Defs
import Mathlib.Data.List.Basic
import Mathlib.Data.Nat.Log
import PocketAlgebra.Codec.Varint

/-!
# Numbers and byte strings are read back

A value that has been written on a stack is read back from it, and what lay below is left. Where
bytes of the value are missing at the bottom, nothing is read.
-/

namespace PocketAlgebra
namespace Codec

/-- The bytes `code`, the last one first, are read as a value. -/
structure Reads {α : Type} (reader : Reader α) (code : List UInt8) (value : α) : Prop where
  whole : ∀ rest, reader (code ++ rest) = (some value, rest)
  cut : ∀ start missing, code = start ++ missing → missing ≠ [] → (reader start).1 = none

/-! ## Natural numbers -/

theorem toNat_higherDigit (n : Nat) : (UInt8.ofNat (n % 128 + 128)).toNat = n % 128 + 128 := by
  rw [UInt8.toNat_ofNat']
  omega

theorem higherDigits_zero : higherDigits 0 = [] := by
  rw [higherDigits]
  rfl

theorem higherDigits_pos {n : Nat} (h : n ≠ 0) :
    higherDigits n = UInt8.ofNat (n % 128 + 128) :: higherDigits (n / 128) := by
  rw [higherDigits]
  simp only [h, if_false]

theorem mem_higherDigits {n : Nat} {b : UInt8} (h : b ∈ higherDigits n) : 128 ≤ b.toNat := by
  induction n using higherDigits.induct with
  | case1 => simp [higherDigits_zero] at h
  | case2 n hpos ih =>
      rw [higherDigits_pos hpos, List.mem_cons] at h
      rcases h with rfl | h
      · rw [toNat_higherDigit]
        omega
      · exact ih h

theorem length_higherDigits_le {n k : Nat} (h : n < 128 ^ k) : (higherDigits n).length ≤ k := by
  induction n using higherDigits.induct generalizing k with
  | case1 => simp [higherDigits_zero]
  | case2 n hpos ih =>
      rw [higherDigits_pos hpos, List.length_cons]
      cases k with
      | zero => simp at h; omega
      | succ k =>
          have hdiv : n / 128 < 128 ^ k := by
            rw [Nat.div_lt_iff_lt_mul (by omega), ← Nat.pow_succ]
            exact h
          have hrest := ih hdiv
          omega

/-- A reader that only meets bytes with their top bit set comes to no end. -/
theorem readDigits_unended (start : List UInt8) (h : ∀ b ∈ start, 128 ≤ b.toNat)
    (value digits : Nat) : (readDigits value digits start).1 = none := by
  induction start generalizing value digits with
  | nil => rfl
  | cons b rest ih =>
      have hb := h b (by simp)
      rw [readDigits]
      split_ifs with hfull hend
      · rfl
      · omega
      · exact ih (fun c hc => h c (by simp [hc])) _ _

theorem roomForDigit {value digits : Nat} (h : digits ≤ 9) (hvalue : value < 2 ^ 57) :
    (maxDigits ≤ digits || (digits + 1 = maxDigits && 1 <<< 57 ≤ value)) = false := by
  have hfew : ¬ maxDigits ≤ digits := by
    unfold maxDigits
    omega
  have hsmall : ¬ 1 <<< 57 ≤ value := by
    rw [Nat.one_shiftLeft]
    omega
  simp only [hfew, hsmall, decide_false, Bool.and_false, Bool.or_false]

/-- The higher digits of a number below `2 ^ 57` are read from the most significant one. -/
theorem readDigits_higherDigits {n : Nat} (h : n < 2 ^ 57) (rest : List UInt8) :
    readDigits 0 0 ((higherDigits n).reverse ++ rest) =
      readDigits n (higherDigits n).length rest := by
  induction n using higherDigits.induct generalizing rest with
  | case1 => simp [higherDigits_zero]
  | case2 n hpos ih =>
      have hlength : (higherDigits (n / 128)).length ≤ 8 := by
        apply length_higherDigits_le
        omega
      rw [higherDigits_pos hpos, List.reverse_cons, List.append_assoc, ih (by omega),
        List.singleton_append, readDigits, toNat_higherDigit, List.length_cons]
      have hroom := roomForDigit (by omega : (higherDigits (n / 128)).length ≤ 9)
        (by omega : n / 128 < 2 ^ 57)
      have hcontinued : ¬ n % 128 + 128 < 128 := by omega
      have hvalue : n / 128 * 128 + (n % 128 + 128) % 128 = n := by omega
      simp only [hroom, hcontinued, hvalue, if_false, Bool.false_eq_true]

theorem readNat_reads {n : Nat} (h : n < 2 ^ 64) : Reads readNat (encodeNat n).reverse n := by
  have hcode : (encodeNat n).reverse =
      (higherDigits (n / 128)).reverse ++ [UInt8.ofNat (n % 128)] := by
    rw [encodeNat, List.reverse_cons]
  have hhigher : n / 128 < 2 ^ 57 := by omega
  constructor
  · intro rest
    have hlength : (higherDigits (n / 128)).length ≤ 9 := by
      apply length_higherDigits_le
      omega
    have hlow : (UInt8.ofNat (n % 128)).toNat = n % 128 := by
      rw [UInt8.toNat_ofNat']
      omega
    rw [hcode, List.append_assoc, readNat, readDigits_higherDigits hhigher,
      List.singleton_append, readDigits, hlow]
    have hroom := roomForDigit hlength hhigher
    have hended : n % 128 < 128 := by omega
    have hvalue : n / 128 * 128 + n % 128 % 128 = n := by omega
    simp only [hroom, hended, hvalue, if_true, if_false, Bool.false_eq_true]
  · intro start missing heq hmissing
    apply readDigits_unended
    intro b hb
    have hfront : start <+: (higherDigits (n / 128)).reverse := by
      rw [hcode] at heq
      rcases List.eq_nil_or_concat' missing with rfl | ⟨init, last, rfl⟩
      · exact absurd rfl hmissing
      · rw [← List.append_assoc] at heq
        exact ⟨init, (List.append_inj_left' heq rfl).symm⟩
    exact mem_higherDigits (List.mem_reverse.mp (hfront.subset hb))

/-! ## Integers -/

theorem unzigzag_zigzag (n : Int) : unzigzag (zigzag n) = n := by
  unfold unzigzag zigzag
  split_ifs <;> omega

theorem zigzag_lt {n : Int} (hleast : -2 ^ 63 ≤ n) (hmost : n < 2 ^ 63) : zigzag n < 2 ^ 64 := by
  unfold zigzag
  split_ifs <;> omega

theorem readInt_reads {n : Int} (hleast : -2 ^ 63 ≤ n) (hmost : n < 2 ^ 63) :
    Reads readInt (encodeInt n).reverse n := by
  have hnat := readNat_reads (zigzag_lt hleast hmost)
  constructor
  · intro rest
    rw [readInt, encodeInt, hnat.whole]
    simp only [Option.map_some, unzigzag_zigzag]
  · intro start missing heq hmissing
    have hnone := hnat.cut start missing heq hmissing
    simp only [readInt, hnone, Option.map_none]

/-! ## Byte strings -/

/-- The two places at which a code of two parts can be cut. -/
theorem cut_append {first second start missing : List UInt8}
    (h : first ++ second = start ++ missing) :
    (∃ lost, first = start ++ lost ∧ lost ≠ []) ∨
      ∃ left, start = first ++ left ∧ second = left ++ missing := by
  rcases List.append_eq_append_iff.mp h with ⟨left, hstart, hsecond⟩ | ⟨lost, hfirst, hrest⟩
  · exact Or.inr ⟨left, hstart, hsecond⟩
  · cases lost with
    | nil =>
        rw [List.append_nil] at hfirst
        exact Or.inr ⟨[], by simp [hfirst], by simpa using hrest.symm⟩
    | cons b lost => exact Or.inl ⟨b :: lost, hfirst, List.cons_ne_nil b lost⟩

theorem readBytes_reads {bytes : List UInt8} (h : bytes.length < 2 ^ 64) :
    Reads readBytes (encodeBytes bytes).reverse bytes := by
  have hnat := readNat_reads h
  have hcode : (encodeBytes bytes).reverse =
      (encodeNat bytes.length).reverse ++ bytes.reverse := by
    rw [encodeBytes, List.reverse_append]
  constructor
  · intro rest
    have hlength : ¬ (bytes.reverse ++ rest).length < bytes.length := by
      simp
    have htake : (bytes.reverse ++ rest).take bytes.length = bytes.reverse := by
      rw [← List.length_reverse, List.take_left]
    have hdrop : (bytes.reverse ++ rest).drop bytes.length = rest := by
      rw [← List.length_reverse, List.drop_left]
    rw [readBytes, hcode, List.append_assoc, hnat.whole]
    simp only [hlength, if_false, htake, hdrop, List.reverse_reverse]
  · intro start missing heq hmissing
    rw [hcode] at heq
    rcases cut_append heq with ⟨lost, hfirst, hlost⟩ | ⟨left, hstart, hsecond⟩
    · have hnone := hnat.cut start lost hfirst hlost
      rw [readBytes]
      rcases hread : readNat start with ⟨outcome, rest⟩
      rw [hread] at hnone
      subst hnone
      rfl
    · have hshort : left.length < bytes.length := by
        have hlength := congrArg List.length hsecond
        rw [List.length_reverse, List.length_append] at hlength
        have hpos := List.length_pos_of_ne_nil hmissing
        omega
      rw [readBytes, hstart, hnat.whole]
      simp only [hshort, if_true]

/-! ## Integers of any size -/

theorem length_littleEndian (length n : Nat) : (littleEndian length n).length = length := by
  induction length generalizing n with
  | zero => rfl
  | succ length ih => rw [littleEndian, List.length_cons, ih]

theorem unsignedOfBytes_littleEndian (length n : Nat) :
    unsignedOfBytes (littleEndian length n) = n % 256 ^ length := by
  induction length generalizing n with
  | zero => simp [littleEndian, unsignedOfBytes, Nat.mod_one]
  | succ length ih =>
      have hbyte : n % 256 % 2 ^ 8 = n % 256 := by omega
      rw [littleEndian, unsignedOfBytes, ih, UInt8.toNat_ofNat', hbyte, Nat.pow_succ',
        Nat.mod_mul]

/-- The top bit of the last byte is that of the whole number. -/
theorem topBit_littleEndian {length n : Nat} (h : n < 256 ^ (length + 1)) :
    (littleEndian (length + 1) n).getLast?.any (128 ≤ ·.toNat) =
      decide (128 * 256 ^ length ≤ n) := by
  induction length generalizing n with
  | zero =>
      have hbyte : n % 256 % 2 ^ 8 = n := by omega
      have hsame : (UInt8.ofNat (n % 256)).toNat = n := by
        rw [UInt8.toNat_ofNat', hbyte]
      rw [littleEndian, littleEndian, List.getLast?_singleton, Option.any_some, hsame, Nat.pow_zero,
        Nat.mul_one]
  | succ length ih =>
      have hdiv : n / 256 < 256 ^ (length + 1) := by
        rw [Nat.div_lt_iff_lt_mul (by omega), ← Nat.pow_succ]
        exact h
      have hlast : (littleEndian (length + 1 + 1) n).getLast? =
          (littleEndian (length + 1) (n / 256)).getLast? :=
        List.getLast?_cons_cons
      have hbound : 128 * 256 ^ length ≤ n / 256 ↔ 128 * 256 ^ (length + 1) ≤ n := by
        rw [Nat.le_div_iff_mul_le (by omega), Nat.pow_succ, Nat.mul_assoc]
      rw [hlast, ih hdiv, decide_eq_decide.mpr hbound]

theorem signedLength_pos (n : Int) : 0 < signedLength n := by
  unfold signedLength
  dsimp only
  split_ifs <;> omega

/-- An integer has a two's complement form of as many bytes as its shortest one has. -/
theorem signedLength_bounds (n : Int) :
    -(128 * 256 ^ (signedLength n - 1) : Nat) ≤ n ∧
      n < (128 * 256 ^ (signedLength n - 1) : Nat) := by
  let magnitude := if 0 ≤ n then n.toNat else (-n).toNat - 1
  have hmagnitude : magnitude < 128 * 256 ^ (signedLength n - 1) := by
    have hlength : signedLength n = if magnitude = 0 then 1 else (magnitude.log2 + 9) / 8 := rfl
    rw [hlength]
    split_ifs with hzero
    · rw [hzero]
      decide
    · have hpower : 128 * 256 ^ ((magnitude.log2 + 9) / 8 - 1) =
          2 ^ (7 + 8 * ((magnitude.log2 + 9) / 8 - 1)) := by
        rw [Nat.pow_add, Nat.pow_mul]
      rw [hpower]
      calc magnitude < 2 ^ (magnitude.log2 + 1) := Nat.lt_log2_self
        _ ≤ 2 ^ (7 + 8 * ((magnitude.log2 + 9) / 8 - 1)) :=
          Nat.pow_le_pow_right (by omega) (by omega)
  simp only [magnitude] at hmagnitude
  split_ifs at hmagnitude <;> omega

theorem signedOfBytes_signedBytes (n : Int) : signedOfBytes (signedBytes n) = n := by
  rcases signedLength_bounds n with ⟨hleast, hmost⟩
  rcases Nat.exists_eq_add_of_lt (signedLength_pos n) with ⟨length, hlength⟩
  rw [Nat.zero_add] at hlength
  rw [hlength, Nat.add_sub_cancel] at hleast hmost
  have hpower : (1 <<< (8 * (length + 1)) : Nat) = 256 ^ (length + 1) := by
    rw [Nat.one_shiftLeft, Nat.pow_mul]
  have htwice : 256 ^ (length + 1) = 2 * (128 * 256 ^ length) := by
    rw [Nat.pow_succ]
    omega
  let value := (n % (256 ^ (length + 1) : Nat)).toNat
  have hvalue : value = if 0 ≤ n then n.toNat else (n + (256 ^ (length + 1) : Nat)).toNat := by
    simp only [value]
    split_ifs with hsign
    · rw [Int.emod_eq_of_lt hsign (by omega)]
    · rw [← Int.add_emod_right, Int.emod_eq_of_lt (by omega) (by omega)]
  have hbytes : signedBytes n = littleEndian (length + 1) value := by
    rw [signedBytes, hlength, hpower]
  have hfits : value < 256 ^ (length + 1) := by
    rw [hvalue]
    split_ifs <;> omega
  rw [signedOfBytes, hbytes, topBit_littleEndian hfits, unsignedOfBytes_littleEndian,
    Nat.mod_eq_of_lt hfits, length_littleEndian, hpower]
  simp only [decide_eq_true_eq]
  rw [hvalue]
  split_ifs <;> omega

end Codec
end PocketAlgebra

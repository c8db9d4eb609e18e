import Mathlib.Data.Nat.Digits.Defs
import PocketAlgebra.Proofs.Codec.Tree
import PocketAlgebra.Proofs.Codec.Word

/-!
# A buffer is a stack of numbers and byte strings

Values of several types are written one behind the other, and taken off again from the end. What is
taken off is what has been written, and the rest of the buffer is left as it was. Where the bytes
come from elsewhere, those from the last one with a clear top bit on are a number, if it is one of
64 bits in at most ten digits; the digits need not be as few as the number could have.
-/

namespace PocketAlgebra

namespace Codec

/-! ## The number at the end of a buffer -/

/-- A byte with a clear top bit, and behind it bytes whose top bits are set: the digits of a number,
least significant first. -/
structure Run where
  first : UInt8
  higher : List UInt8
  clear : first.toNat < 128
  set : ∀ b ∈ higher, 128 ≤ b.toNat

namespace Run

/-- The bytes of a run in the order of a buffer. -/
def bytes (run : Run) : List UInt8 :=
  run.first :: run.higher

/-- The number whose digits in base 128 are the bytes of a run without their top bits. -/
def value (run : Run) : Nat :=
  Nat.ofDigits 128 (run.bytes.map (·.toNat % 128))

/-- A run that is the form of a number of 64 bits. -/
def Fits (run : Run) : Prop :=
  run.bytes.length ≤ maxDigits ∧ run.value < 2 ^ 64

end Run

section Runs

variable {n : Nat} {left : List UInt8}

/-- At the end of a buffer there is a run, unless no byte has a clear top bit. -/
theorem exists_run (buffer : List UInt8) :
    (∀ b ∈ buffer, 128 ≤ b.toNat) ∨ ∃ left, ∃ run : Run, buffer = left ++ run.bytes := by
  induction buffer with
  | nil => exact .inl (List.forall_mem_nil _)
  | cons b buffer ih =>
      rcases ih with hset | ⟨left, run, rfl⟩
      · by_cases hb : 128 ≤ b.toNat
        · exact .inl (List.forall_mem_cons.mpr ⟨hb, hset⟩)
        · exact .inr ⟨[], ⟨b, buffer, Nat.lt_of_not_le hb, hset⟩, rfl⟩
      · exact .inr ⟨b :: left, run, rfl⟩

/-- The digit of a byte put behind others. -/
def pushDigit (value : Nat) (b : UInt8) : Nat :=
  value * 128 + b.toNat % 128

theorem ofDigits_eq_foldl (bytes : List UInt8) :
    Nat.ofDigits 128 (bytes.map (·.toNat % 128)) = bytes.reverse.foldl pushDigit 0 := by
  induction bytes with
  | nil => rfl
  | cons b bytes ih =>
      rw [List.map_cons, Nat.ofDigits_cons, ih, List.reverse_cons, List.foldl_append,
        List.foldl_cons, List.foldl_nil, pushDigit, Nat.add_comm, Nat.mul_comm]

/-- A run is read from its last byte on. The digits that have been read before it count for the
number of digits and for the value. -/
theorem readDigits_run {first : UInt8} (hclear : first.toNat < 128) {higher rest : List UInt8}
    (hset : ∀ b ∈ higher, 128 ≤ b.toNat) {value digits : Nat} (hvalue : value < 128 ^ digits) :
    readDigits value digits (higher ++ first :: rest) = (some n, left) ↔
      digits + higher.length < maxDigits ∧ (higher ++ [first]).foldl pushDigit value < 2 ^ 64 ∧
        n = (higher ++ [first]).foldl pushDigit value ∧ left = rest := by
  induction higher generalizing value digits with
  | nil =>
      rw [List.nil_append, List.nil_append, readDigits, List.foldl_cons, List.foldl_nil, pushDigit,
        List.length_nil, Nat.add_zero digits]
      by_cases hroom : digits < maxDigits ∧ value < 2 ^ 57
      · have hfits : value * 128 + first.toNat % 128 < 2 ^ 64 := by omega
        rw [if_neg ((room_iff hvalue).mpr hroom)]
        dsimp only
        rw [if_pos hclear, Prod.mk.injEq, Option.some_inj, eq_comm, @eq_comm _ rest]
        simp only [hroom.1, hfits, true_and]
      · have hrefused : ¬ (digits < maxDigits ∧ value * 128 + first.toNat % 128 < 2 ^ 64) := by
          omega
        rw [if_pos (not_not.mp (mt (room_iff hvalue).mp hroom)), ← and_assoc]
        simp only [hrefused, false_and, Prod.mk.injEq, reduceCtorEq]
  | cons b higher ih =>
      rcases List.forall_mem_cons.mp hset with ⟨hb, hset⟩
      rw [List.cons_append, List.cons_append, readDigits, List.foldl_cons, List.length_cons]
      split_ifs with hfull hclear'
      · -- A refusal comes at the tenth digit at the earliest, and there are more.
        have hlong : ¬ digits + (higher.length + 1) < maxDigits := by
          simp only [Bool.or_eq_true, Bool.and_eq_true, decide_eq_true_eq] at hfull
          omega
        simp only [hlong, false_and, Prod.mk.injEq, reduceCtorEq]
      · omega
      · have hpush : value * 128 + b.toNat % 128 < 128 ^ (digits + 1) := by
          rw [Nat.pow_succ]
          omega
        rw [ih hset hpush, pushDigit, Nat.add_assoc, Nat.add_comm 1]

theorem readNat_eq_some_iff {buffer : List UInt8} :
    readNat buffer.reverse = (some n, left.reverse) ↔
      ∃ run : Run, buffer = left ++ run.bytes ∧ run.Fits ∧ n = run.value := by
  have hread (left' : List UInt8) (run : Run) :
      readNat (left' ++ run.bytes).reverse = (some n, left.reverse) ↔
        run.Fits ∧ n = run.value ∧ left = left' := by
    rw [Run.bytes, List.reverse_append, List.reverse_cons, List.append_assoc, List.singleton_append,
      readNat, readDigits_run run.clear (by simpa using run.set) (by decide), List.reverse_inj,
      ← List.reverse_cons, ← ofDigits_eq_foldl, Run.Fits, Run.bytes, Run.value, Run.bytes,
      List.length_cons, List.length_reverse, Nat.zero_add, Nat.succ_le_iff, and_assoc]
  constructor
  · intro h
    rcases exists_run buffer with hset | ⟨left', run, rfl⟩
    · have hnone := readDigits_unended buffer.reverse (by simpa using hset) 0 0
      rw [readNat] at h
      rw [h] at hnone
      cases hnone
    · rcases (hread left' run).mp h with ⟨hfits, hvalue, rfl⟩
      exact ⟨run, rfl, hfits, hvalue⟩
  · rintro ⟨run, rfl, hfits, hvalue⟩
    exact (hread left run).mpr ⟨hfits, hvalue, rfl⟩

/-- A word is read just where a run of it stands at the end of a buffer, and this run is taken
off. -/
theorem readWord_eq_some_iff {buffer : List UInt8} {w : UInt64} :
    readWord buffer.reverse = (some w, left.reverse) ↔
      ∃ run : Run, buffer = left ++ run.bytes ∧ run.Fits ∧ w.toNat = run.value := by
  rw [← readNat_eq_some_iff, ← readWord_eq]
  rcases readWord buffer.reverse with ⟨_ | v, rest⟩
  · simp
  · simp [UInt64.toNat_inj]

-- A tenth digit has room for one bit of the number.
example : readWord [0x81, 0x80, 0x80, 0x80, 0x80, 0x80, 0x80, 0x80, 0x80, 0x00] =
    (some 0x8000000000000000, []) := by decide

example : readWord [0x82, 0x80, 0x80, 0x80, 0x80, 0x80, 0x80, 0x80, 0x80, 0x00] = (none, []) := by
  decide

end Runs

/-! ## Sizes -/

section Sizes

theorem log2_div_base (n : Nat) : (n / 128).log2 = n.log2 - 7 := by
  rw [Nat.log2_eq_log_two, Nat.log2_eq_log_two]
  exact Nat.log_div_base_pow 2 n 7

theorem length_higherDigits {n : Nat} (h : n ≠ 0) :
    (higherDigits n).length = n.log2 / 7 + 1 := by
  induction n using higherDigits.induct with
  | case1 => exact absurd rfl h
  | case2 n hpos ih =>
      rw [higherDigits_pos hpos, List.length_cons]
      by_cases hlast : n / 128 = 0
      · have hsmall : n.log2 < 7 := (Nat.log2_lt hpos).mpr (by omega)
        rw [hlast, higherDigits_zero, List.length_nil, Nat.div_eq_of_lt hsmall]
      · have hlarge : ¬ n.log2 < 7 := by
          rw [Nat.log2_lt hpos]
          omega
        rw [ih hlast, log2_div_base]
        omega

/-- A number takes a byte for each seven of its binary digits. -/
theorem length_encodeNat_eq_natSize (n : Nat) : (encodeNat n).length = natSize n := by
  rw [natSize]
  split_ifs with hzero
  · rw [hzero, encodeNat, Nat.zero_div, higherDigits_zero, List.length_singleton]
  · rw [← length_higherDigits hzero, higherDigits_pos hzero, encodeNat, List.length_cons,
      List.length_cons]

end Sizes

/-! ## Values of several types -/

/-- A value that a buffer can hold. -/
inductive Value where
  | natural (w : UInt64)
  | integer (n : Int64)
  | bytes (content : List UInt8)

/-- The types of values. -/
inductive ValueType where
  | natural
  | integer
  | bytes

namespace Value

/-- Byte strings have a length of 64 bits; other values fit by their type. -/
def Fits : Value → Prop
  | .bytes content => content.length < 2 ^ 64
  | _ => True

/-- The type of a value. -/
def type : Value → ValueType
  | .natural _ => .natural
  | .integer _ => .integer
  | .bytes _ => .bytes

/-- The bytes of a value. -/
def encode : Value → List UInt8
  | .natural w => encodeWord w
  | .integer n => encodeSigned n
  | .bytes content => encodeBytes content

/-- The number of bytes of a value, counted as they are written. -/
def size : Value → Nat
  | .natural w => countNat w.toNat
  | .integer n => countNat (zigzagWord n).toNat
  | .bytes content => countBytes content

theorem length_encode (v : Value) : v.encode.length = v.size := by
  cases v with
  | natural w => rw [encode, encodeWord_eq, Expr.length_encodeNat, size]
  | integer n => rw [encode, encodeSigned, encodeWord_eq, Expr.length_encodeNat, size]
  | bytes content => exact Expr.length_encodeBytes content

end Value

/-- Reads a value of a given type. -/
def ValueType.read : ValueType → Reader Value
  | natural => fun stack => (readWord stack).map (Option.map .natural) id
  | integer => fun stack => (readSigned stack).map (Option.map .integer) id
  | bytes => fun stack => (readBytes stack).map (Option.map .bytes) id

/-- Reads values of given types, as long as they can be read. -/
def readValues : List ValueType → Reader (List Value)
  | [], stack => (some [], stack)
  | t :: types, stack =>
    match t.read stack with
    | (none, rest) => (none, rest)
    | (some v, rest) => (readValues types rest).map (Option.map (v :: ·)) id

section Values

theorem readWord_encode (w : UInt64) (rest : List UInt8) :
    readWord ((encodeWord w).reverse ++ rest) = (some w, rest) := by
  have hinjective : Function.Injective UInt64.toNat := fun _ _ => UInt64.toNat_inj.mp
  apply (Option.map_injective hinjective).prodMap Function.injective_id
  rw [readWord_eq, encodeWord_eq, (readNat_reads w.toNat_lt).whole]
  rfl

theorem readSigned_encode (n : Int64) (rest : List UInt8) :
    readSigned ((encodeSigned n).reverse ++ rest) = (some n, rest) := by
  have hinjective : Function.Injective Int64.toInt := fun _ _ => Int64.toInt_inj.mp
  apply (Option.map_injective hinjective).prodMap Function.injective_id
  rw [readSigned_eq, encodeSigned_eq, (readInt_reads n.le_toInt n.toInt_lt).whole]
  rfl

/-- A value at the end of a buffer is taken off. -/
theorem read_encode {v : Value} (h : v.Fits) (rest : List UInt8) :
    v.type.read (v.encode.reverse ++ rest) = (some v, rest) := by
  cases v with
  | natural w =>
      show (readWord ((encodeWord w).reverse ++ rest)).map _ _ = _
      rw [readWord_encode]
      rfl
  | integer n =>
      show (readSigned ((encodeSigned n).reverse ++ rest)).map _ _ = _
      rw [readSigned_encode]
      rfl
  | bytes content =>
      show (readBytes ((encodeBytes content).reverse ++ rest)).map _ _ = _
      rw [(readBytes_reads h).whole]
      rfl

theorem readValues_encode {values : List Value} (h : ∀ v ∈ values, v.Fits) (rest : List UInt8) :
    readValues (values.map Value.type) (values.flatMap (·.encode.reverse) ++ rest) =
      (some values, rest) := by
  induction values with
  | nil => rfl
  | cons v values ih =>
      rcases List.forall_mem_cons.mp h with ⟨hv, hvalues⟩
      rw [List.map_cons, List.flatMap_cons, List.append_assoc, readValues, read_encode hv]
      dsimp only
      rw [ih hvalues]
      rfl

/-- Values that have been appended to a buffer are taken off again in reverse, and leave the buffer
that was there. The numbers of bytes that are announced are those that are written. A word is read
just where a run that fits stands at the end of a buffer, and this run is taken off. Words and
integers of 64 bits are written and read as the numbers that they stand for. -/
theorem stack_exact :
    (∀ (values : List Value) (buffer : List UInt8), (∀ v ∈ values, v.Fits) →
      readValues (values.reverse.map Value.type) (buffer ++ values.flatMap Value.encode).reverse =
        (some values.reverse, buffer.reverse)) ∧
    (∀ v : Value, v.encode.length = v.size) ∧
    (∀ w : UInt64, (encodeWord w).length = natSize w.toNat) ∧
    (∀ (buffer left : List UInt8) (w : UInt64),
      readWord buffer.reverse = (some w, left.reverse) ↔
        ∃ run : Run, buffer = left ++ run.bytes ∧ run.Fits ∧ w.toNat = run.value) ∧
    (∀ w : UInt64, encodeWord w = encodeNat w.toNat) ∧
    (∀ n : Int64, encodeSigned n = encodeInt n.toInt) ∧
    (∀ stack, (readWord stack).map (Option.map UInt64.toNat) id = readNat stack) ∧
    ∀ stack, (readSigned stack).map (Option.map Int64.toInt) id = readInt stack := by
  refine ⟨?_, Value.length_encode, ?_, fun _ _ _ => readWord_eq_some_iff, encodeWord_eq,
    encodeSigned_eq, readWord_eq, readSigned_eq⟩
  · intro values buffer h
    have hreverse : ∀ v ∈ values.reverse, v.Fits := fun v hv => h v (List.mem_reverse.mp hv)
    rw [List.reverse_append, List.reverse_flatMap]
    exact readValues_encode hreverse buffer.reverse
  · intro w
    rw [encodeWord_eq, length_encodeNat_eq_natSize]

theorem stack_exact_mixedValues :
    readValues [.bytes, .integer, .natural]
        ([0x85] ++ List.flatMap Value.encode [.natural 18446744073709551615,
          .integer (-9223372036854775808), .bytes [1, 2, 5]]).reverse =
      (some [.bytes [1, 2, 5], .integer (-9223372036854775808),
        .natural 18446744073709551615], [0x85]) := by
  apply stack_exact.1 [.natural 18446744073709551615, .integer (-9223372036854775808),
    .bytes [1, 2, 5]] [0x85]
  simp [Value.Fits]

end Values

end Codec

end PocketAlgebra

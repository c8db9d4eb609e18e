import PocketAlgebra.Text.Buffer
import Mathlib.Order.Lattice
import Mathlib.Tactic.Set

/-!
# What a bounded buffer holds

A text is cut where one of its bytes begins a character, which is the same as between two of its
characters: in UTF-8 the first byte of a character is never one that goes on with a character, and
all the others are. Walking back from the room that there is therefore finds the longest leading
part of the text that fits.
-/

namespace PocketAlgebra

namespace Buffer

variable {text : String} {position room : Nat}

/-!
## Bytes of characters
-/

theorem bytes_append (front back : String) : bytes (front ++ back) = bytes front ++ bytes back := by
  simp [bytes]

theorem length_bytes (text : String) : (bytes text).length = text.utf8ByteSize := by
  simp [bytes]

theorem goesOn_first {n : Nat} (h : n < 0x80 ∨ 0xC0 ≤ n ∧ n < 0x100) :
    goesOn (UInt8.ofNat n) = false := by
  simp [goesOn, UInt8.le_iff_toNat_le, UInt8.lt_iff_toNat_lt]
  omega

theorem goesOn_later (n : Nat) : goesOn (UInt8.ofNat (n % 0x40 + 0x80)) = true := by
  simp [goesOn, UInt8.le_iff_toNat_le, UInt8.lt_iff_toNat_lt]
  omega

/-- The first byte of a character, and only that one, does not go on with a character. -/
theorem goesOn_encoded (c : Char) :
    ∃ first later, String.utf8EncodeChar c = first :: later ∧ goesOn first = false ∧
      ∀ byte ∈ later, goesOn byte = true := by
  unfold String.utf8EncodeChar
  simp only []
  -- One case for each number of bytes that a character can take.
  split
  · exact ⟨_, _, rfl, goesOn_first (by omega), by simp⟩
  split
  · refine ⟨_, _, rfl, goesOn_first (by omega), ?_⟩
    simp only [List.forall_mem_cons, goesOn_later]
    simp
  split
  · refine ⟨_, _, rfl, goesOn_first (by omega), ?_⟩
    simp only [List.forall_mem_cons, goesOn_later]
    simp
  · refine ⟨_, _, rfl, goesOn_first (by omega), ?_⟩
    simp only [List.forall_mem_cons, goesOn_later]
    simp

/-- Among the bytes of a text, those that do not go on with a character are those that may begin
one. -/
theorem goesOn_eq_false_iff {byte : UInt8} (h : byte ∈ bytes text) :
    goesOn byte = false ↔ byte.IsUTF8FirstByte := by
  obtain ⟨cs, rfl⟩ := text.exists_eq_ofList
  obtain ⟨c, -, hbyte⟩ : ∃ c ∈ cs, byte ∈ String.utf8EncodeChar c := by
    simpa [bytes, List.utf8Encode] using h
  obtain ⟨i, hi, rfl⟩ := List.getElem_of_mem hbyte
  obtain ⟨first, later, hencoded, hfirst, hlater⟩ := goesOn_encoded c
  rw [UInt8.isUTF8FirstByte_getElem_utf8EncodeChar]
  cases i with
  | zero => simpa [hencoded] using hfirst
  | succ i => simpa [hencoded] using hlater _ (List.getElem_mem _)

/-!
## Places to cut
-/

/-- A text may be cut behind each of its leading parts, and nowhere else. -/
theorem isBoundary_iff :
    isBoundary (bytes text) position = true ↔
      ∃ front back : String, text = front ++ back ∧ front.utf8ByteSize = position := by
  have hvalid : isBoundary (bytes text) position = true ↔
      String.Pos.Raw.IsValid text ⟨position⟩ := by
    rw [String.Pos.Raw.isValid_iff_isUTF8FirstByte]
    simp only [isBoundary, Bool.or_eq_true, beq_iff_eq, String.Pos.Raw.ext_iff,
      String.Pos.Raw.lt_iff, String.byteIdx_rawEndPos, ← length_bytes]
    rcases lt_trichotomy position (bytes text).length with hlt | heq | hgt
    · have hbyte := goesOn_eq_false_iff (List.getElem_mem hlt)
      have hsame : text.getUTF8Byte ⟨position⟩ (by simpa [String.Pos.Raw.lt_iff, ← length_bytes]) =
          (bytes text)[position] := rfl
      simp only [List.getElem?_eq_getElem hlt, Bool.not_eq_true', hbyte, hlt.ne, hlt, exists_true_left,
        false_or, hsame]
      -- The first byte of all begins a character, so that no text is cut in front of it.
      refine or_iff_right_of_imp ?_
      rintro rfl
      rw [← hsame]
      exact String.isUTF8FirstByte_getUTF8Byte_zero
    · simp [heq]
    · have hpos : position ≠ 0 := by omega
      simp [hgt.not_gt, hgt.ne', hpos]
  rw [hvalid, String.Pos.Raw.isValid_iff_exists_append]
  simp [String.Pos.Raw.ext_iff, eq_comm]

theorem isBoundary_boundaryUpTo (bytes : List UInt8) (position : Nat) :
    isBoundary bytes (boundaryUpTo bytes position) = true := by
  induction position with
  | zero => rfl
  | succ position ih =>
    rw [boundaryUpTo]
    split
    · assumption
    · exact ih

theorem boundaryUpTo_le (bytes : List UInt8) (position : Nat) :
    boundaryUpTo bytes position ≤ position := by
  induction position with
  | zero => rfl
  | succ position ih =>
    rw [boundaryUpTo]
    split <;> omega

theorem le_boundaryUpTo {bytes : List UInt8} {place : Nat} (h : isBoundary bytes place = true)
    (hle : place ≤ position) : place ≤ boundaryUpTo bytes position := by
  induction position with
  | zero => simpa [boundaryUpTo] using hle
  | succ position ih =>
    rw [boundaryUpTo]
    split
    · exact hle
    next hno =>
      refine ih (Nat.le_of_lt_succ (lt_of_le_of_ne hle ?_))
      rintro rfl
      exact hno h

/-- The longest leading part of a text that takes at most a number of bytes. -/
structure LongestWithin (room : Nat) (text front : String) : Prop where
  leads : ∃ back, text = front ++ back
  fits : front.utf8ByteSize ≤ room
  longest : ∀ front' back', text = front' ++ back' → front'.utf8ByteSize ≤ room →
    front'.utf8ByteSize ≤ front.utf8ByteSize

/-- Walking back finds the end of the longest leading part that fits. -/
theorem longestWithin_boundaryUpTo (text : String) (room : Nat) :
    ∃ front, LongestWithin room text front ∧
      (bytes text).take (boundaryUpTo (bytes text) (min (bytes text).length room)) = bytes front ∧
      boundaryUpTo (bytes text) (min (bytes text).length room) = (bytes front).length := by
  set stop := boundaryUpTo (bytes text) (min (bytes text).length room) with hstop
  obtain ⟨front, back, htext, hsize⟩ :=
    isBoundary_iff.mp (isBoundary_boundaryUpTo (bytes text) (min (bytes text).length room))
  have hle := boundaryUpTo_le (bytes text) (min (bytes text).length room)
  have hlength : stop = (bytes front).length := by rw [length_bytes, hsize]
  refine ⟨front, ⟨⟨back, htext⟩, by omega, fun front' back' htext' hfits => ?_⟩, ?_, hlength⟩
  · have hboundary : isBoundary (bytes text) front'.utf8ByteSize = true :=
      isBoundary_iff.mpr ⟨front', back', htext', rfl⟩
    have hwhole : front'.utf8ByteSize ≤ (bytes text).length := by
      simp [htext', bytes_append, length_bytes]
    have := le_boundaryUpTo hboundary (le_min hwhole hfits)
    omega
  · rw [hlength, htext, bytes_append]
    simp

/-!
## Buffers
-/

@[simp]
theorem fill_nil (text : String) : fill [] text = [] := rfl

/-- A buffer that is not empty starts with the longest leading part that leaves room for the zero
byte, and is otherwise as it was. -/
theorem fill_spec (text : String) {buffer : List UInt8} (h : buffer ≠ []) :
    ∃ front, LongestWithin (buffer.length - 1) text front ∧
      fill buffer text = bytes front ++ 0 :: buffer.drop ((bytes front).length + 1) := by
  obtain ⟨room, hroom⟩ : ∃ room, buffer.length = room + 1 :=
    Nat.exists_eq_add_one_of_ne_zero (by simpa using h)
  obtain ⟨front, hlongest, htake, hstop⟩ := longestWithin_boundaryUpTo text room
  refine ⟨front, by simpa [hroom] using hlongest, ?_⟩
  simp only [fill, hroom]
  rw [htake, hstop]

/-- No character is split: of two bytes, the second one is for the zero byte, and the first
character here takes two. -/
example : fill [255, 255] "π+1" = [0, 255] := by
  decide

/-- A text that fits with its zero byte is written whole. -/
theorem LongestWithin.eq_of_fits {front : String} (h : LongestWithin room text front)
    (hfits : text.utf8ByteSize ≤ room) : front = text := by
  obtain ⟨back, rfl⟩ := h.leads
  have hsize := h.longest (front ++ back) "" (by simp) hfits
  have hback : back.utf8ByteSize = 0 := by
    simp only [String.utf8ByteSize_append] at hsize
    omega
  rw [String.utf8ByteSize_eq_zero_iff.mp hback, String.append_empty]

end Buffer

namespace Expr

open Buffer

variable (x : Expr) (style : NumberStyle) (buffer : List UInt8)

/-- An expression is written into a buffer as its whole text would be, cut short. The length of
the whole text comes back; an empty buffer stays empty; any other one holds the longest leading
part that leaves room for a zero byte, the zero byte, and then what it held before. In the checked
form the text counts as written if and only if it was not cut. -/
theorem written_within_buffer :
    (x.serializeInto style buffer).1 = (bytes (x.toText style)).length ∧
    (buffer = [] → (x.serializeInto style buffer).2 = []) ∧
    (buffer ≠ [] → ∃ front, LongestWithin (buffer.length - 1) (x.toText style) front ∧
      (x.serializeInto style buffer).2 =
        bytes front ++ 0 :: buffer.drop ((bytes front).length + 1)) ∧
    (x.serializeChecked style buffer).2 = (x.serializeInto style buffer).2 ∧
    ((bytes (x.toText style)).length < buffer.length →
      (x.serializeChecked style buffer).1 = .ok (bytes (x.toText style)).length ∧
      bytes (x.toText style) ++ [0] <+: (x.serializeChecked style buffer).2) ∧
    (buffer.length ≤ (bytes (x.toText style)).length →
      (x.serializeChecked style buffer).1 =
        .error ⟨(bytes (x.toText style)).length + 1, buffer.length⟩) := by
  have hlength := length_bytes (x.toText style)
  have hsame : (x.serializeChecked style buffer).2 = (x.serializeInto style buffer).2 := by
    simp only [serializeChecked]
    split <;> rfl
  refine ⟨hlength.symm, ?_, fill_spec (x.toText style), hsame, fun hfits => ⟨?_, ?_⟩, fun hcut => ?_⟩
  · rintro rfl
    rfl
  · simp [serializeChecked, serializeInto, ← hlength, hfits]
  · have hne : buffer ≠ [] := List.ne_nil_of_length_pos (by omega)
    obtain ⟨front, hlongest, hfill⟩ := fill_spec (x.toText style) hne
    rw [hsame, serializeInto, hfill, hlongest.eq_of_fits (by omega)]
    exact ⟨buffer.drop ((bytes (x.toText style)).length + 1), by simp⟩
  · simp [serializeChecked, serializeInto, ← hlength, hcut.not_gt]

end Expr

end PocketAlgebra

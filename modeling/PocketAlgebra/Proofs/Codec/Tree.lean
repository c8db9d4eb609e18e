import Mathlib.Data.List.Induction
import PocketAlgebra.Codec.Tree
import PocketAlgebra.Proofs.Codec.Bytes

/-!
# Trees are read back

Bytes of a tree are read back from the end as this very tree, whatever stands before them; where
the front of them is missing, reading reports that they are cut off.
-/

namespace PocketAlgebra

/-! ## Trees that can be written -/

namespace Expr

/-- The data of the topmost node are such as a node of its kind can have. -/
def PayloadValid : Expr → Prop
  | decimal d => -2 ^ 63 ≤ d.scale ∧ d.scale < 2 ^ 63
  | symbol name => name ≠ ""
  | apply (.function name) _ => name ≠ ""
  | apply (.matrix rows columns) _ =>
    (0 < rows ∧ rows < 2 ^ 32) ∧ 0 < columns ∧ columns < 2 ^ 32
  | _ => True

/-- All nodes of a tree have data of their kind, and as many operands as their kind calls for. -/
inductive CodecValid : Expr → Prop where
  | node {x : Expr} (payload : x.PayloadValid)
      (count : Codec.acceptsCount x x.operands.length = true)
      (operands : ∀ y ∈ x.operands, CodecValid y) : CodecValid x

theorem acceptsCount_apply (f : Operator) (xs ys : List Expr) (count : Nat) :
    Codec.acceptsCount (.apply f xs) count = Codec.acceptsCount (.apply f ys) count := by
  cases f <;> rfl

theorem payloadValid_apply (f : Operator) (xs ys : List Expr) :
    (apply f xs).PayloadValid = (apply f ys).PayloadValid := by
  cases f <;> rfl

theorem encodeAll_append (xs : List Expr) (x : Expr) :
    encodeAll (xs ++ [x]) = encodeAll xs ++ x.encode := by
  induction xs with
  | nil => simp [encodeAll]
  | cons y ys ih => simp only [List.cons_append, encodeAll, ih, List.append_assoc]

theorem encode_eq (x : Expr) :
    x.encode = encodeAll x.operands ++ x.encodePayload ++
      Codec.encodeNat x.operands.length ++ [UInt8.ofNat x.kind.rank] := by
  cases x with
  | apply f xs => rfl
  | _ => simp [encode, operands, encodeAll]

end Expr

namespace Codec

/-! ## Steps of reading -/

/-- A step of reading takes the bytes `code` as a value, and needs room for so many bytes. -/
structure Takes {α : Type} (step : DecodeM α) (code : List UInt8) (value : α) (charge : Nat) :
    Prop where
  whole : ∀ rest free, charge ≤ free →
    step ⟨code ++ rest, free⟩ = .ok (value, ⟨rest, free - charge⟩)
  cut : ∀ start missing free, code = start ++ missing → missing ≠ [] → charge ≤ free →
    step ⟨start, free⟩ = .error .truncated

namespace Takes

variable {α β : Type} {step : DecodeM α} {next : α → DecodeM β} {code code' : List UInt8}
  {value : α} {result : β} {charge charge' : Nat}

theorem pure (value : α) : Takes (Pure.pure value) [] value 0 := by
  constructor
  · intro rest free _
    rfl
  · intro start missing free heq hmissing _
    exact absurd (List.append_eq_nil_iff.mp heq.symm).2 hmissing

theorem bind (h : Takes step code value charge)
    (h' : Takes (next value) code' result charge') :
    Takes (step >>= next) (code ++ code') result (charge + charge') := by
  constructor
  · intro rest free hroom
    show (step ⟨code ++ code' ++ rest, free⟩ >>= fun r => next r.1 r.2) = _
    rw [List.append_assoc, h.whole _ _ (by omega)]
    show next value ⟨code' ++ rest, free - charge⟩ = _
    rw [h'.whole _ _ (by omega), Nat.sub_sub]
  · intro start missing free heq hmissing hroom
    show (step ⟨start, free⟩ >>= fun r => next r.1 r.2) = _
    rcases cut_append heq with ⟨lost, hfirst, hlost⟩ | ⟨left, hstart, hsecond⟩
    · rw [h.cut start lost free hfirst hlost (by omega)]
      rfl
    · rw [hstart, h.whole _ _ (by omega)]
      exact h'.cut left missing _ hsecond hmissing (by omega)

theorem bind_free (h : Takes step code value 0)
    (h' : Takes (next value) code' result charge) :
    Takes (step >>= next) (code ++ code') result charge := by
  simpa using h.bind h'

theorem bind_pure (h : Takes step code value charge) (heq : next value = Pure.pure result) :
    Takes (step >>= next) code result charge := by
  have hpure : Takes (next value) [] result 0 := by
    rw [heq]
    exact pure result
  simpa using h.bind hpure

end Takes

theorem take_of_some {α : Type} {reader : Reader α} {stack rest : List UInt8} {value : α}
    (h : reader stack = (some value, rest)) (free : Nat) :
    take reader ⟨stack, free⟩ = .ok (value, ⟨rest, free⟩) := by
  simp only [take, get, getThe, MonadStateOf.get, StateT.get, bind, StateT.bind, Pure.pure,
    Except.pure, Except.bind, h]
  rfl

theorem take_of_none {α : Type} {reader : Reader α} {stack rest : List UInt8}
    (h : reader stack = (none, rest)) (free : Nat) :
    take reader ⟨stack, free⟩ = .error .truncated := by
  simp only [take, get, getThe, MonadStateOf.get, StateT.get, bind, StateT.bind, Pure.pure,
    Except.pure, Except.bind, h]
  rfl

theorem take_takes {α : Type} {reader : Reader α} {code : List UInt8} {value : α}
    (h : Reads reader code value) : Takes (take reader) code value 0 := by
  constructor
  · intro rest free _
    exact take_of_some (h.whole rest) free
  · intro start missing free heq hmissing _
    have hnone := h.cut start missing heq hmissing
    rcases hread : reader start with ⟨outcome, rest⟩
    rw [hread] at hnone
    subst hnone
    exact take_of_none hread free

theorem store_takes (x : Expr) : Takes (store x) [] x x.nodeCharge := by
  constructor
  · intro rest free hroom
    have hfits : ¬ free < x.nodeCharge := by omega
    show (if free < x.nodeCharge then _ else _ : DecodeM Expr) ⟨rest, free⟩ = _
    rw [if_neg hfits]
    rfl
  · intro start missing free heq hmissing _
    exact absurd (List.append_eq_nil_iff.mp heq.symm).2 hmissing

/-! ## Data of nodes -/

theorem signedBytes_ne_nil (n : Int) : signedBytes n ≠ [] := by
  apply List.ne_nil_of_length_pos
  rw [signedBytes, length_littleEndian]
  exact signedLength_pos n

theorem takeInteger_takes {n : Int} (kind : Kind) (h : (signedBytes n).length < 2 ^ 64) :
    Takes (takeInteger kind) (encodeBytes (signedBytes n)).reverse n 0 := by
  apply (take_takes (readBytes_reads h)).bind_pure
  have hempty : (signedBytes n).isEmpty = false := by
    rw [List.isEmpty_eq_false_iff]
    exact signedBytes_ne_nil n
  simp only [hempty, signedOfBytes_signedBytes, Bool.false_eq_true, if_false]

theorem fromUTF8?_nameBytes (name : String) :
    String.fromUTF8? ⟨(Expr.nameBytes name).toArray⟩ = some name := by
  have hbytes : (⟨(Expr.nameBytes name).toArray⟩ : ByteArray) = name.toUTF8 := by
    rw [Expr.nameBytes, Array.toArray_toList]
  rw [hbytes, String.fromUTF8?]
  exact dif_pos name.isValidUTF8

theorem takeName_takes {name : String} (kind : Kind) (hname : name ≠ "")
    (h : (Expr.nameBytes name).length < 2 ^ 64) :
    Takes (takeName kind) (Expr.encodeName name).reverse name 0 := by
  apply (take_takes (readBytes_reads h)).bind_pure
  have hempty : name.isEmpty = false := by
    simpa using hname
  simp only [fromUTF8?_nameBytes, hempty, Bool.false_eq_true, if_false]

theorem takeDimension_takes {n : Nat} (h : n < 2 ^ 32) :
    Takes takeDimension (encodeNat n).reverse n 0 := by
  apply (take_takes (readNat_reads (by omega))).bind_pure
  have hfits : n < UInt32.size := h
  simp only [hfits, if_true]

theorem length_nameBytes (name : String) :
    (Expr.nameBytes name).length = name.utf8ByteSize := by
  unfold Expr.nameBytes
  rw [Array.length_toList]
  rfl

theorem takePayload_operator (f : Operator) {xs : List Expr}
    (hpayload : (Expr.apply f xs).PayloadValid) (hroom : Charge.operator f < 2 ^ 64) :
    Takes (takePayload f.kind) (Expr.encodeOperator f).reverse (.apply f) 0 := by
  cases f with
  | function name =>
      have hlength : (Expr.nameBytes name).length < 2 ^ 64 := by
        rw [length_nameBytes]
        simp only [Charge.operator, Charge.name] at hroom
        omega
      exact (takeName_takes .function hpayload hlength).bind_pure rfl
  | comparison relation =>
      refine (take_takes (readNat_reads ?_)).bind_pure ?_
      · cases relation <;> decide
      · cases relation <;> rfl
  | matrix rows columns =>
      rcases hpayload with ⟨⟨hrows, hrowsFit⟩, hcolumns, hcolumnsFit⟩
      have hcode : (Expr.encodeOperator (.matrix rows columns)).reverse =
          (encodeNat columns).reverse ++ (encodeNat rows).reverse :=
        List.reverse_append
      have hpositive : (decide (rows = 0) || decide (columns = 0)) = false := by
        simp only [Bool.or_eq_false_iff, decide_eq_false_iff_not]
        omega
      rw [hcode]
      refine (takeDimension_takes hcolumnsFit).bind_free
        ((takeDimension_takes hrowsFit).bind_pure ?_)
      simp only [hpositive, Bool.false_eq_true, if_false]
  | _ => exact Takes.pure _

theorem length_signedBytes_le (n : Int) : (signedBytes n).length ≤ Charge.integer n := by
  have hlog : ∀ m, m ≤ n.natAbs → m ≠ 0 → (m.log2 + 9) / 8 ≤ Charge.integer n := by
    intro m hle hpos
    have habs : n.natAbs ≠ 0 := by omega
    have hmono : m.log2 ≤ n.natAbs.log2 :=
      (Nat.le_log2 habs).mpr ((Nat.log2_self_le hpos).trans hle)
    unfold Charge.integer Charge.bitLength
    rw [if_neg habs]
    omega
  have hone : 1 ≤ Charge.integer n := by
    unfold Charge.integer
    omega
  rw [signedBytes, length_littleEndian]
  unfold signedLength
  dsimp only
  split_ifs with hsign hzero hzero
  · exact hone
  · exact hlog n.toNat (by omega) hzero
  · exact hone
  · exact hlog ((-n).toNat - 1) (by omega) hzero

/-- A leaf, and the data that it is read from. -/
theorem takePayload_leaf {x : Expr} (hleaf : ∀ f xs, x ≠ .apply f xs)
    (hpayload : x.PayloadValid) (hroom : x.payloadCharge < 2 ^ 64) :
    Takes (takePayload x.kind) x.encodePayload.reverse (fun _ => x) 0 := by
  cases x with
  | rational q =>
      have hnumerator := length_signedBytes_le q.num
      have hdenominator := length_signedBytes_le q.den
      simp only [Expr.payloadCharge] at hroom
      have hcode : (Expr.rational q).encodePayload.reverse =
          (encodeBytes (signedBytes q.den)).reverse ++
            (encodeBytes (signedBytes q.num)).reverse :=
        List.reverse_append
      rw [hcode]
      refine (takeInteger_takes .rational (by omega)).bind_free
        ((takeInteger_takes .rational (by omega)).bind_pure ?_)
      have hden : (q.den : Int) ≠ 0 := by
        exact_mod_cast q.den_nz
      simp only [hden, if_false, Rat.num_divInt_den]
  | decimal d =>
      have hmantissa := length_signedBytes_le d.mantissa
      simp only [Expr.payloadCharge] at hroom
      have hcode : (Expr.decimal d).encodePayload.reverse =
          (encodeInt d.scale).reverse ++ (encodeBytes (signedBytes d.mantissa)).reverse :=
        List.reverse_append
      rw [hcode]
      exact (take_takes (readInt_reads hpayload.1 hpayload.2)).bind_free
        ((takeInteger_takes .decimal (by omega)).bind_pure rfl)
  | infinity negative =>
      refine (take_takes (readNat_reads ?_)).bind_pure ?_
      · cases negative <;> decide
      · cases negative <;> rfl
  | constant c =>
      refine (take_takes (readNat_reads ?_)).bind_pure ?_
      · cases c <;> decide
      · cases c <;> rfl
  | symbol name =>
      have hlength : (Expr.nameBytes name).length < 2 ^ 64 := by
        rw [length_nameBytes]
        simp only [Expr.payloadCharge, Charge.name] at hroom
        omega
      exact (takeName_takes .symbol hpayload hlength).bind_pure rfl
  | apply f xs => exact absurd rfl (hleaf f xs)

/-- The data of a node are read as what makes the node of its operands. -/
theorem takePayload_takes {x : Expr} (hpayload : x.PayloadValid)
    (hroom : x.payloadCharge < 2 ^ 64) :
    ∃ node, Takes (takePayload x.kind) x.encodePayload.reverse node 0 ∧
      node x.operands = x ∧ ∀ count, acceptsCount (node []) count = acceptsCount x count := by
  by_cases hleaf : ∀ f xs, x ≠ .apply f xs
  · exact ⟨fun _ => x, takePayload_leaf hleaf hpayload hroom, rfl, fun _ => rfl⟩
  · simp only [not_forall, not_not] at hleaf
    rcases hleaf with ⟨f, xs, rfl⟩
    exact ⟨.apply f, takePayload_operator f hpayload hroom, rfl, Expr.acceptsCount_apply f [] xs⟩

/-! ## Nodes -/

theorem takeOperands_takes {operand : DecodeM Expr} (xs : List Expr)
    (h : ∀ x ∈ xs, Takes operand x.encode.reverse x x.charge) (read : List Expr) :
    Takes (takeOperands operand xs.length read) (Expr.encodeAll xs).reverse (xs ++ read)
      (Expr.chargeAll xs) := by
  -- The last operand is read first.
  induction xs using List.reverseRecOn generalizing read with
  | nil => exact Takes.pure read
  | append_singleton xs x ih =>
      have hlast := h x (by simp)
      have hrest := ih (fun y hy => h y (by simp [hy])) (x :: read)
      have hcode : (Expr.encodeAll (xs ++ [x])).reverse =
          x.encode.reverse ++ (Expr.encodeAll xs).reverse := by
        rw [Expr.encodeAll_append, List.reverse_append]
      have hcharge : Expr.chargeAll (xs ++ [x]) = x.charge + Expr.chargeAll xs := by
        rw [Expr.chargeAll_append, Nat.add_comm]
        rfl
      rw [hcode, hcharge, List.length_append, List.append_assoc]
      exact hlast.bind hrest

/-- The byte for a kind, which is the first one that is read of a node. -/
theorem opcode_takes (kind : Kind) :
    Takes (take fun
      | b :: rest => (some b, rest)
      | [] => (none, [])) [UInt8.ofNat kind.rank] (UInt8.ofNat kind.rank) 0 := by
  apply take_takes
  constructor
  · intro rest
    rfl
  · intro start missing heq hmissing
    cases start with
    | nil => rfl
    | cons b rest =>
        rw [List.cons_append, List.cons.injEq] at heq
        exact absurd (List.append_eq_nil_iff.mp heq.2.symm).2 hmissing

theorem ofRank?_opcode (kind : Kind) :
    Kind.ofRank? (UInt8.ofNat kind.rank).toNat = some kind := by
  cases kind <;> rfl

theorem takeNode_takes {levels count : Nat} {kind : Kind} {node : List Expr → Expr}
    {xs : List Expr} {payload operands : List UInt8} {charge : Nat}
    (hcount : count < 2 ^ 64) (haccepted : acceptsCount (node []) count = true)
    (hpayload : Takes (takePayload kind) payload node 0)
    (hoperands : Takes (takeOperands (takeNode levels) count []) operands xs charge) :
    Takes (takeNode (levels + 1))
      ([UInt8.ofNat kind.rank] ++ ((encodeNat count).reverse ++ (payload ++ operands)))
      (node xs) (charge + (node xs).nodeCharge) := by
  refine (opcode_takes kind).bind_free ?_
  simp only [ofRank?_opcode]
  refine (take_takes (readNat_reads hcount)).bind_free ?_
  refine hpayload.bind_free ?_
  simp only [haccepted, if_true]
  have hstored : Takes (takeOperands (takeNode levels) count [] >>= fun xs => store (node xs))
      (operands ++ []) (node xs) (charge + (node xs).nodeCharge) :=
    hoperands.bind (store_takes (node xs))
  rwa [List.append_nil] at hstored

theorem takeNode_tree {levels : Nat} {t : Expr} (hvalid : t.CodecValid)
    (hdepth : t.depth ≤ levels) (hroom : t.charge < 2 ^ 64) :
    Takes (takeNode levels) t.encode.reverse t t.charge := by
  rw [t.depth_eq] at hdepth
  induction levels generalizing t with
  | zero => omega
  | succ levels ih =>
      rcases hvalid with ⟨hpayload, haccepted, hoperands⟩
      rw [t.charge_eq] at hroom ⊢
      have hcharge : t.nodeCharge =
          Charge.header + Charge.reference * t.operands.length + t.payloadCharge := rfl
      rcases takePayload_takes hpayload (by omega) with ⟨node, hnode, hself, haccepts⟩
      have hcount : t.operands.length < 2 ^ 64 := by
        unfold Charge.reference at hcharge
        omega
      have hxs : ∀ x ∈ t.operands, Takes (takeNode levels) x.encode.reverse x x.charge := by
        intro x hx
        have hless := Expr.charge_le_chargeAll hx
        have hlevel := Expr.depth_le_depthAll hx
        rw [x.depth_eq] at hlevel
        exact ih (hoperands x hx) (by omega) (by omega)
      have hall := takeOperands_takes t.operands hxs []
      rw [List.append_nil] at hall
      have htaken := takeNode_takes hcount ((haccepts _).trans haccepted) hnode hall
      rw [hself] at htaken
      rw [t.encode_eq]
      simpa using htaken

/-! ## Whole buffers -/

theorem decode_eq {free : Nat} {bytes rest : List UInt8} {t : Expr} {left : Nat}
    (h : takeNode maxLevels ⟨bytes.reverse, free⟩ = .ok (t, ⟨rest, left⟩)) :
    Expr.decode free bytes =
      if rest.isEmpty then .ok t else .error (.trailingBytes rest.length) := by
  unfold Expr.decode
  rw [h]
  rfl

end Codec

namespace Expr

/-! ## Sizes -/

theorem length_encodeNat (n : Nat) : (Codec.encodeNat n).length = Codec.countNat n := by
  have hhigher : ∀ m, (Codec.higherDigits m).length = Codec.countHigher m := by
    intro m
    induction m using Codec.higherDigits.induct with
    | case1 => rw [Codec.higherDigits_zero, Codec.countHigher]; rfl
    | case2 m hpos ih =>
        rw [Codec.higherDigits_pos hpos, Codec.countHigher, if_neg hpos, List.length_cons, ih]
  rw [Codec.encodeNat, Codec.countNat, List.length_cons, hhigher]

theorem length_encodeBytes (bytes : List UInt8) :
    (Codec.encodeBytes bytes).length = Codec.countBytes bytes := by
  rw [Codec.encodeBytes, Codec.countBytes, List.length_append, length_encodeNat]

theorem length_encodeOperator (f : Operator) : (encodeOperator f).length = operatorSize f := by
  cases f with
  | function name => exact length_encodeBytes (nameBytes name)
  | comparison relation => exact length_encodeNat relation.rank
  | matrix rows columns =>
      rw [encodeOperator, operatorSize, List.length_append, length_encodeNat, length_encodeNat]
  | _ => rfl

theorem length_encodePayload (x : Expr) : x.encodePayload.length = x.payloadSize := by
  cases x with
  | rational q =>
      rw [encodePayload, payloadSize, List.length_append, length_encodeBytes, length_encodeBytes]
  | decimal d =>
      rw [encodePayload, payloadSize, List.length_append, length_encodeBytes, Codec.encodeInt,
        length_encodeNat]
  | infinity negative => exact length_encodeNat negative.toNat
  | constant c => exact length_encodeNat c.rank
  | symbol name => exact length_encodeBytes (nameBytes name)
  | apply f _ => exact length_encodeOperator f

mutual

theorem length_encode (x : Expr) : x.encode.length = x.byteSize := by
  cases x with
  | apply f xs =>
      simp only [encode, byteSize, List.length_append, List.length_singleton,
        length_encodeAll xs, length_encodeOperator, length_encodeNat]
  | _ =>
      simp only [encode, byteSize, List.length_append, List.length_singleton,
        length_encodePayload, length_encodeNat]

theorem length_encodeAll (xs : List Expr) : (encodeAll xs).length = byteSizeAll xs := by
  cases xs with
  | nil => rfl
  | cons x xs =>
      simp only [encodeAll, byteSizeAll, List.length_append, length_encode x,
        length_encodeAll xs]

end

theorem decode_encode {t : Expr} {free : Nat} (hvalid : t.CodecValid)
    (hdepth : t.depth ≤ 513) (hroom : t.charge ≤ free) (hmemory : free < 2 ^ 64) :
    (∀ front : List UInt8,
      Codec.takeNode Codec.maxLevels ⟨(front ++ t.encode).reverse, free⟩ =
        .ok (t, ⟨front.reverse, free - t.charge⟩)) ∧
    Expr.decode free t.encode = .ok t ∧
    (∀ front : List UInt8, front ≠ [] →
      Expr.decode free (front ++ t.encode) = .error (.trailingBytes front.length)) ∧
    (∀ back : List UInt8, back <:+ t.encode → back ≠ t.encode →
      Expr.decode free back = .error .truncated) ∧
    t.byteSize = t.encode.length := by
  have htakes := Codec.takeNode_tree hvalid hdepth (by omega)
  have hwhole : ∀ front : List UInt8,
      Codec.takeNode Codec.maxLevels ⟨(front ++ t.encode).reverse, free⟩ =
        .ok (t, ⟨front.reverse, free - t.charge⟩) := by
    intro front
    rw [List.reverse_append]
    exact htakes.whole front.reverse free hroom
  refine ⟨hwhole, ?_, ?_, ?_, (length_encode t).symm⟩
  · exact Codec.decode_eq (hwhole [])
  · intro front hfront
    rw [Codec.decode_eq (hwhole front)]
    simp [hfront]
  · rintro back ⟨front, hsplit⟩ hproper
    have hfront : front.reverse ≠ [] := by
      intro hnil
      rw [List.reverse_eq_nil_iff] at hnil
      subst hnil
      exact hproper hsplit
    have hcut := htakes.cut back.reverse front.reverse free
      (by rw [← hsplit, List.reverse_append]) hfront hroom
    unfold Expr.decode
    show (Codec.takeNode 513 ⟨back.reverse, free⟩ >>= _) = _
    rw [hcut]
    rfl

end Expr

end PocketAlgebra

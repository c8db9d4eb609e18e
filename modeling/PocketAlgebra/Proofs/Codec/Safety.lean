import PocketAlgebra.Proofs.Ensures
import PocketAlgebra.Proofs.Expr.Everywhere
import PocketAlgebra.Proofs.Pool.Insertion
import PocketAlgebra.Proofs.Pool.Operations

/-!
# Bytes from anywhere

Whatever bytes are read as a tree, whoever has written them: the tree can be written, it is no
larger than the bytes allow, and its own bytes are read as this tree.
-/

namespace PocketAlgebra

namespace Codec

/-! ## Numbers and byte strings -/

/-- A reader takes at least one byte, and what it reads is as described. -/
def Keeps {α : Type} (reader : Reader α) (P : α → Prop) : Prop :=
  ∀ stack value rest, reader stack = (some value, rest) → P value ∧ rest.length < stack.length

/-- A step leaves no more bytes than there were. -/
def Leaves {α : Type} (step : DecodeM α) (P : α → Prop) : Prop :=
  ∀ s, Ensures anyCause step s fun x s' => P x ∧ s'.stack.length ≤ s.stack.length

theorem readDigits_keeps {value digits : Nat} (hvalue : value < 128 ^ digits)
    (hdigits : digits ≤ maxDigits) {stack rest : List UInt8} {n : Nat}
    (h : readDigits value digits stack = (some n, rest)) :
    n < 2 ^ 64 ∧ rest.length < stack.length := by
  induction stack generalizing value digits with
  | nil => cases h
  | cons b stack ih =>
      rw [readDigits] at h
      split at h
      · cases h
      · rename_i hroom
        simp only [Bool.or_eq_true, Bool.and_eq_true, decide_eq_true_eq, not_or, not_and, not_le,
          Nat.shiftLeft_eq, one_mul] at hroom
        have hnext : value * 128 + b.toNat % 128 < 128 ^ (digits + 1) := by
          have hdigit : b.toNat % 128 < 128 := Nat.mod_lt _ (by decide)
          rw [pow_succ]
          omega
        have hfits : value * 128 + b.toNat % 128 < 2 ^ 64 := by
          by_cases hlast : digits + 1 = maxDigits
          · have hvalue := hroom.2 hlast
            omega
          · have hfew : digits + 1 ≤ 9 := by
              have hmost : digits < 10 := hroom.1
              have hother : digits + 1 ≠ 10 := hlast
              omega
            have hpower : 128 ^ (digits + 1) ≤ 128 ^ 9 := Nat.pow_le_pow_right (by decide) hfew
            exact Nat.lt_of_lt_of_le hnext (Nat.le_trans hpower (by decide))
        dsimp only at h
        split at h
        · cases h
          exact ⟨hfits, by simp⟩
        · rcases ih hnext hroom.1 h with ⟨hn, hrest⟩
          exact ⟨hn, Nat.lt_succ_of_lt hrest⟩

theorem readNat_keeps : Keeps readNat (· < 2 ^ 64) :=
  fun _ _ _ h => readDigits_keeps (by decide) (by decide) h

theorem readInt_keeps : Keeps readInt fun n => -2 ^ 63 ≤ n ∧ n < 2 ^ 63 := by
  intro stack value rest h
  rw [readInt] at h
  rcases hnat : readNat stack with ⟨_ | n, left⟩
  · rw [hnat] at h
    cases h
  · rw [hnat] at h
    cases h
    rcases readNat_keeps _ _ _ hnat with ⟨hn, hrest⟩
    refine ⟨?_, hrest⟩
    unfold unzigzag
    split_ifs <;> omega

theorem readBytes_keeps : Keeps readBytes fun _ => True := by
  intro stack value rest h
  rw [readBytes] at h
  split at h
  · cases h
  · rename_i length left hnat
    rcases readNat_keeps _ _ _ hnat with ⟨-, hleft⟩
    split at h
    · cases h
    · cases h
      refine ⟨trivial, ?_⟩
      rw [List.length_drop]
      omega

section Steps

variable {α : Type} {reader : Reader α} {P : α → Prop}

theorem take_shortens (h : Keeps reader P) (s : State) :
    Ensures anyCause (take reader) s fun x s' => P x ∧ s'.stack.length < s.stack.length := by
  apply ensures_of_ok
  intro x s' hok
  rcases s with ⟨stack, free⟩
  rcases hread : reader stack with ⟨_ | value, rest⟩
  · rw [take_of_none hread free] at hok
    cases hok
  · rw [take_of_some hread free] at hok
    cases hok
    exact h _ _ _ hread

theorem take_leaves (h : Keeps reader P) : Leaves (take reader) P :=
  fun s => (take_shortens h s).mono fun _ _ hx => ⟨hx.1, Nat.le_of_lt hx.2⟩

namespace Leaves

theorem bind {β : Type} {step : DecodeM α} {next : α → DecodeM β} {Q : β → Prop}
    (h : Leaves step P) (h' : ∀ x, P x → Leaves (next x) Q) : Leaves (step >>= next) Q := by
  intro s
  apply Ensures.bind
  refine (h s).mono ?_
  rintro x s₁ ⟨hx, hfirst⟩
  refine (h' x hx s₁).mono ?_
  rintro y s₂ ⟨hy, hsecond⟩
  exact ⟨hy, Nat.le_trans hsecond hfirst⟩

theorem pure {x : α} (h : P x) : Leaves (Pure.pure x) P :=
  fun _ => Ensures.pure ⟨h, Nat.le_refl _⟩

theorem throw (e : DecodeError) : Leaves (MonadExcept.throw e : DecodeM α) P :=
  fun _ => Ensures.throw trivial

theorem ite {c : Prop} [Decidable c] {step other : DecodeM α} (h : c → Leaves step P)
    (h' : ¬ c → Leaves other P) : Leaves (if c then step else other) P :=
  fun s => Ensures.ite (fun hc => h hc s) fun hc => h' hc s

end Leaves

end Steps

/-! ## Data of nodes -/

theorem takeInteger_leaves (kind : Kind) : Leaves (takeInteger kind) fun _ => True := by
  apply (take_leaves readBytes_keeps).bind
  intro bytes _
  exact Leaves.ite (fun _ => Leaves.throw _) fun _ => Leaves.pure trivial

theorem takeName_leaves (kind : Kind) : Leaves (takeName kind) fun name => name ≠ "" := by
  apply (take_leaves readBytes_keeps).bind
  intro bytes _
  cases String.fromUTF8? ⟨bytes.toArray⟩ with
  | none => exact Leaves.throw _
  | some name =>
      apply Leaves.ite
      · exact fun _ => Leaves.throw _
      · intro hname
        exact Leaves.pure (by simpa using hname)

theorem takeDimension_leaves : Leaves takeDimension (· < 2 ^ 32) := by
  apply (take_leaves readNat_keeps).bind
  intro n _
  exact Leaves.ite (fun hfits => Leaves.pure hfits) fun _ => Leaves.throw _

theorem valid_leaves {α : Type} (kind : Kind) (value : Option α) :
    Leaves (valid kind value) fun _ => True := by
  cases value with
  | none => exact Leaves.throw _
  | some value => exact Leaves.pure trivial

/-- What makes a node of its operands: with as many of them as are accepted, the node has them, its
data are such as its kind can have, and it accepts them. -/
def Composes (node : List Expr → Expr) : Prop :=
  ∀ xs, acceptsCount (node []) xs.length = true → (node xs).operands = xs ∧
    (node xs).PayloadValid ∧ acceptsCount (node xs) xs.length = true

theorem composes_leaf {x : Expr} (hoperands : x.operands = []) (hpayload : x.PayloadValid)
    (hcount : ∀ count, acceptsCount x count = true → count = 0) : Composes fun _ => x := by
  intro xs haccepted
  have hnone : xs = [] := List.length_eq_zero_iff.mp (hcount _ haccepted)
  exact ⟨hoperands.trans hnone.symm, hpayload, haccepted⟩

theorem composes_apply {f : Operator} (h : ∀ xs, (Expr.apply f xs).PayloadValid) :
    Composes (.apply f) := by
  intro xs haccepted
  exact ⟨rfl, h xs, by rwa [Expr.acceptsCount_apply f xs []]⟩

theorem composes_leaf_of_arity {x : Expr} (hleaf : ∀ f xs, x ≠ .apply f xs)
    (hpayload : x.PayloadValid) (harity : x.kind.arity = .fixed 0) : Composes fun _ => x := by
  cases x with
  | apply f xs => exact absurd rfl (hleaf f xs)
  | _ =>
      apply composes_leaf rfl hpayload
      intro count haccepted
      simpa [acceptsCount, Expr.kind, Kind.arity, Arity.accepts] using haccepted

theorem takePayload_leaves (kind : Kind) : Leaves (takePayload kind) Composes := by
  unfold takePayload
  cases kind with
  | rational =>
      apply (takeInteger_leaves _).bind
      intro denominator _
      apply (takeInteger_leaves _).bind
      intro numerator _
      exact Leaves.ite (fun _ => Leaves.throw _) fun _ =>
        Leaves.pure (composes_leaf_of_arity nofun trivial rfl)
  | decimal =>
      apply (take_leaves readInt_keeps).bind
      intro scale hscale
      apply (takeInteger_leaves _).bind
      intro mantissa _
      exact Leaves.pure (composes_leaf_of_arity nofun hscale rfl)
  | symbol =>
      apply (takeName_leaves _).bind
      intro name hname
      exact Leaves.pure (composes_leaf_of_arity nofun hname rfl)
  | function =>
      apply (takeName_leaves _).bind
      intro name hname
      exact Leaves.pure (composes_apply fun _ => hname)
  | constant =>
      apply (take_leaves readNat_keeps).bind
      intro n _
      apply (valid_leaves _ _).bind
      intro c _
      exact Leaves.pure (composes_leaf_of_arity nofun trivial rfl)
  | infinity =>
      apply (take_leaves readNat_keeps).bind
      intro n _
      apply (valid_leaves _ _).bind
      intro negative _
      exact Leaves.pure (composes_leaf_of_arity nofun trivial rfl)
  | matrix =>
      apply takeDimension_leaves.bind
      intro columns hcolumns
      apply takeDimension_leaves.bind
      intro rows hrows
      apply Leaves.ite
      · exact fun _ => Leaves.throw _
      · intro hsides
        apply Leaves.pure
        apply composes_apply
        intro xs
        simp only [Bool.or_eq_true, decide_eq_true_eq, not_or] at hsides
        exact ⟨⟨Nat.pos_of_ne_zero hsides.1, hrows⟩, Nat.pos_of_ne_zero hsides.2, hcolumns⟩
  | comparison =>
      apply (take_leaves readNat_keeps).bind
      intro n _
      apply (valid_leaves _ _).bind
      intro relation _
      exact Leaves.pure (composes_apply fun _ => trivial)
  | _ => exact Leaves.pure (composes_apply fun _ => trivial)

/-! ## Nodes -/

theorem size_eq (x : Expr) : x.size = Expr.sizeAll x.operands + 1 := by
  cases x <;> rfl

/-- A tree of so many levels at most has been read that can be written, and each of its nodes has
taken two bytes at least. -/
def TreeRead (levels : Nat) (s : State) (x : Expr) (s' : State) : Prop :=
  x.CodecValid ∧ x.depth ≤ levels ∧ 2 * x.size + s'.stack.length ≤ s.stack.length

theorem takeOperands_reads {operand : DecodeM Expr} {levels : Nat}
    (h : ∀ s, Ensures anyCause operand s (TreeRead levels s)) (count : Nat) (read : List Expr)
    (s : State) :
    Ensures anyCause (takeOperands operand count read) s fun xs s' => ∃ new, xs = new ++ read ∧
      new.length = count ∧ (∀ x ∈ new, x.CodecValid) ∧ Expr.depthAll new ≤ levels ∧
      2 * Expr.sizeAll new + s'.stack.length ≤ s.stack.length := by
  induction count generalizing read s with
  | zero => exact Ensures.pure ⟨[], rfl, rfl, nofun, Nat.zero_le _, by simp [Expr.sizeAll]⟩
  | succ count ih =>
      rw [takeOperands]
      apply Ensures.bind
      refine (h s).mono ?_
      rintro x s₁ ⟨hvalid, hdepth, hsize⟩
      refine (ih (x :: read) s₁).mono ?_
      rintro _ s₂ ⟨new, rfl, hlength, hvalids, hdepths, hsizes⟩
      refine ⟨new ++ [x], by simp, by simp [hlength], ?_, ?_, ?_⟩
      · intro y hy
        rcases List.mem_append.mp hy with hy | hy
        · exact hvalids y hy
        · exact List.mem_singleton.mp hy ▸ hvalid
      · rw [Expr.depthAll_append]
        exact Nat.max_le.mpr ⟨hdepths, by simpa [Expr.depthAll] using hdepth⟩
      · rw [Expr.sizeAll_append]
        simp only [Expr.sizeAll]
        omega

theorem opcode_keeps : Keeps (fun
    | b :: rest => (some b, rest)
    | [] => (none, []) : Reader UInt8) fun _ => True := by
  intro stack value rest h
  cases stack with
  | nil => cases h
  | cons b stack =>
      cases h
      exact ⟨trivial, by simp⟩

theorem store_ensures (x : Expr) (s : State) :
    Ensures anyCause (store x) s fun y s' => y = x ∧ s'.stack = s.stack := by
  apply ensures_of_ok
  intro y s' hok
  have hstore : (if s.free < x.nodeCharge then
      Except.error (DecodeError.allocationFailure ⟨x.nodeCharge, s.free⟩)
    else Except.ok (x, { s with free := s.free - x.nodeCharge })) = Except.ok (y, s') := by
    rw [← hok]
    show _ = (if s.free < x.nodeCharge then _ else _ : DecodeM Expr) s
    split <;> rfl
  split at hstore
  · cases hstore
  · cases hstore
    exact ⟨rfl, rfl⟩

/-- Every tree that is read can be written: this is shown level by level, from the deepest one. -/
theorem takeNode_reads (levels : Nat) (s : State) :
    Ensures anyCause (takeNode levels) s (TreeRead levels s) := by
  induction levels generalizing s with
  | zero => exact Ensures.throw trivial
  | succ levels ih =>
      rw [takeNode]
      apply Ensures.bind
      refine (take_shortens opcode_keeps s).mono ?_
      rintro opcode s₁ ⟨-, hfirst⟩
      cases Kind.ofRank? opcode.toNat with
      | none => exact Ensures.throw trivial
      | some kind =>
          apply Ensures.bind
          refine (take_shortens readNat_keeps s₁).mono ?_
          rintro count s₂ ⟨-, hsecond⟩
          apply Ensures.bind
          refine (takePayload_leaves kind s₂).mono ?_
          rintro node s₃ ⟨hnode, hthird⟩
          apply Ensures.ite
          · intro haccepted
            apply Ensures.bind
            refine (takeOperands_reads ih count [] s₃).mono ?_
            rintro _ s₄ ⟨xs, rfl, hlength, hvalids, hdepths, hsizes⟩
            rw [List.append_nil]
            rcases hnode xs (hlength ▸ haccepted) with ⟨hoperands, hpayload, hcount⟩
            refine (store_ensures (node xs) s₄).mono ?_
            rintro _ s₅ ⟨rfl, hstack⟩
            refine ⟨.node hpayload (by rwa [hoperands]) (by rwa [hoperands]), ?_, ?_⟩
            · rw [Expr.depth_eq, hoperands]
              omega
            · rw [size_eq, hoperands, hstack]
              omega
          · intro _
            exact Ensures.throw trivial

end Codec

/-! ## Whole buffers -/

namespace Expr

/-- What bytes are read as can be written, has few levels, and has half as many nodes as there are
bytes at most. -/
theorem codecValid_of_decode {free : Nat} {bytes : List UInt8} {t : Expr}
    (h : Expr.decode free bytes = .ok t) :
    t.CodecValid ∧ t.depth ≤ 513 ∧ 2 * t.size ≤ bytes.length := by
  unfold Expr.decode at h
  cases hnode : Codec.takeNode Codec.maxLevels ⟨bytes.reverse, free⟩ with
  | error e =>
      rw [hnode] at h
      cases h
  | ok r =>
      rcases (Codec.takeNode_reads _ _).of_ok hnode with ⟨hvalid, hdepth, hsize⟩
      rw [hnode] at h
      have hresult : (if r.2.stack.isEmpty then Except.ok r.1
          else Except.error (DecodeError.trailingBytes r.2.stack.length)) = Except.ok t := h
      split at hresult
      · cases hresult
        rw [List.length_reverse] at hsize
        exact ⟨hvalid, hdepth, by omega⟩
      · cases hresult

end Expr

namespace Pool

variable {p q : Pool} {handles : List Nat} {key : Nat} {bytes : List UInt8} {t : Expr}

/-- What is read into a pool from bytes is the tree that is read from them. -/
theorem read_decode (hp : Balanced p [] handles) (h : p.decode bytes = .ok (key, q)) :
    Expr.decode p.free bytes = .ok (q.read key) := by
  have hsame := (makes_decode hp bytes).same
  rw [h] at hsame
  exact hsame.symm

/-- A tree that is read from bytes is put into a pool that they are read into. -/
theorem gains_of_decode (hp : Balanced p [] handles) (h : Expr.decode p.free bytes = .ok t) :
    ∃ key q, p.decode bytes = .ok (key, q) ∧ Gains p q handles key t := by
  rcases insert_gains hp (decode_fits h) with ⟨key, q, hinsert, hgains⟩
  refine ⟨key, q, ?_, hgains⟩
  unfold Pool.decode
  simp only [h, hinsert, bind, Except.bind]
  rfl

/-- The bytes of a tree are read as this tree into any pool with room. -/
theorem gains_of_codecValid (hp : Balanced p [] handles) (hvalid : t.CodecValid)
    (hdepth : t.depth ≤ 513) (hroom : t.charge ≤ p.free) (hmemory : p.free < 2 ^ 64) :
    ∃ key q, p.decode t.encode = .ok (key, q) ∧ Gains p q handles key t :=
  gains_of_decode hp (Expr.decode_encode hvalid hdepth hroom hmemory).2.1

/-- Whatever bytes are read into a pool, the tree can be written, has at most 513 levels, and has
half as many nodes as there are bytes at most. Its own bytes are read as this tree into any pool
with room, and are written again for what is read. -/
theorem decode_safe (hp : Balanced p [] handles) (h : p.decode bytes = .ok (key, q)) :
    (q.read key).CodecValid ∧ (q.read key).depth ≤ 513 ∧ 2 * (q.read key).size ≤ bytes.length ∧
      ∀ {p' : Pool} {handles' : List Nat}, Balanced p' [] handles' →
        (q.read key).charge ≤ p'.free → p'.free < 2 ^ 64 →
        ∃ key' q', p'.decode (q.read key).encode = .ok (key', q') ∧
          Gains p' q' handles' key' (q.read key) ∧
          (q'.read key').encode = (q.read key).encode := by
  rcases Expr.codecValid_of_decode (read_decode hp h) with ⟨hvalid, hdepth, hsize⟩
  refine ⟨hvalid, hdepth, hsize, ?_⟩
  intro p' handles' hp' hroom hmemory
  rcases gains_of_codecValid hp' hvalid hdepth hroom hmemory with ⟨key', q', hq, hgains⟩
  exact ⟨key', q', hq, hgains, by rw [hgains.read]⟩

/-- The fraction of 4 and 6, both padded to more bytes than they need, and the number of operands
with one digit too many. -/
def paddedFraction : List UInt8 :=
  [4, 0, 0, 3, 6, 0, 2, 0, 128, 2]

theorem decode_safe_paddedFraction :
    ∃ key q, (empty 1000 0).decode paddedFraction = .ok (key, q) ∧
      q.read key = .rational (2 / 3) ∧ (q.read key).encode = [2, 1, 3, 1, 0, 2] ∧
      2 * (q.read key).size ≤ 10 ∧
      ∃ key' q', (empty 1000 0).decode (q.read key).encode = .ok (key', q') ∧
        (q'.read key').encode = (q.read key).encode := by
  have htree : Expr.decode (empty 1000 0).free paddedFraction = .ok (.rational (2 / 3)) := by
    exact Expr.Everywhere.eq_ok (by decide) (by decide +kernel)
  rcases gains_of_decode (Balanced.empty 1000 0) htree with ⟨key, q, hdecode, hgains⟩
  rcases decode_safe (Balanced.empty 1000 0) hdecode with ⟨-, -, hsize, hagain⟩
  have hroom : (q.read key).charge ≤ (empty 1000 0).free := by
    rw [hgains.read]
    decide +kernel
  rcases hagain (Balanced.empty 1000 0) hroom (by decide) with ⟨key', q', hq, -, hsame⟩
  refine ⟨key, q, hdecode, hgains.read, ?_, hsize, key', q', hq, hsame⟩
  rw [hgains.read]
  decide +kernel

end Pool

end PocketAlgebra

import PocketAlgebra.Proofs.Closed.Basic
import PocketAlgebra.Proofs.Codec.Safety
import PocketAlgebra.Proofs.Extent.Matrix
import PocketAlgebra.Proofs.Order.Agreement

/-!
# The bytes of reduced trees

The bytes of a tree are refused where it has more levels than a tree may have that is read. The
operands of a node are read before the node is taken up, from the last one to the first, so the
first of them that goes too deep ends the reading.

Reduction makes only nodes that can be written as bytes and read back: with as many operands as
their kind admits, with names, and with the sides that matrices have. The form for the user keeps
this. So the bytes of a reduced tree are read back, unless it has too many levels.
-/

namespace PocketAlgebra

namespace Codec

/-- A step of reading fails on the bytes `code`, where there is so much room. -/
def Refuses {α : Type} (step : DecodeM α) (code : List UInt8) (e : DecodeError) (charge : Nat) :
    Prop :=
  ∀ rest free, charge ≤ free → step ⟨code ++ rest, free⟩ = .error e

section Steps

variable {α β : Type} {step : DecodeM α} {next : α → DecodeM β} {code code' : List UInt8}
  {value : α} {e : DecodeError} {charge charge' : Nat}

theorem Refuses.bind (h : Refuses step code e charge) : Refuses (step >>= next) code e charge := by
  intro rest free hroom
  show (step ⟨code ++ rest, free⟩ >>= fun r => next r.1 r.2) = _
  rw [h rest free hroom]
  rfl

/-- What stands behind the bytes that are refused is not read. -/
theorem Refuses.append (h : Refuses step code e charge) (code' : List UInt8)
    (hcharge : charge ≤ charge') : Refuses step (code ++ code') e charge' := by
  intro rest free hroom
  rw [List.append_assoc]
  exact h (code' ++ rest) free (hcharge.trans hroom)

theorem Takes.bind_refuses (h : Takes step code value charge)
    (h' : Refuses (next value) code' e charge') :
    Refuses (step >>= next) (code ++ code') e (charge + charge') := by
  intro rest free hroom
  show (step ⟨code ++ code' ++ rest, free⟩ >>= fun r => next r.1 r.2) = _
  rw [List.append_assoc, h.whole _ _ (by omega)]
  exact h' rest (free - charge) (by omega)

theorem Takes.bind_free_refuses (h : Takes step code value 0)
    (h' : Refuses (next value) code' e charge) :
    Refuses (step >>= next) (code ++ code') e charge := by
  simpa using h.bind_refuses h'

end Steps

/-! ## Nodes -/

variable {levels : Nat} {t : Expr} {e : DecodeError}

/-- Where operands of few levels are read and those of more levels are refused, one with more
levels ends the reading. -/
theorem takeOperands_refuses {operand : DecodeM Expr} (xs : List Expr)
    (htakes : ∀ x ∈ xs, x.depth ≤ levels → Takes operand x.encode.reverse x x.charge)
    (hrefuses : ∀ x ∈ xs, levels < x.depth → Refuses operand x.encode.reverse e x.charge)
    (hdepth : levels < Expr.depthAll xs) (read : List Expr) :
    Refuses (takeOperands operand xs.length read) (Expr.encodeAll xs).reverse e
      (Expr.chargeAll xs) := by
  -- The last operand is read first.
  induction xs using List.reverseRecOn generalizing read with
  | nil => exact absurd hdepth (Nat.not_lt_zero levels)
  | append_singleton xs x ih =>
      have hcode : (Expr.encodeAll (xs ++ [x])).reverse =
          x.encode.reverse ++ (Expr.encodeAll xs).reverse := by
        rw [Expr.encodeAll_append, List.reverse_append]
      have hcharge : Expr.chargeAll (xs ++ [x]) = x.charge + Expr.chargeAll xs := by
        rw [Expr.chargeAll_append, Nat.add_comm]
        rfl
      rw [hcode, hcharge, List.length_append]
      by_cases hlast : levels < x.depth
      · exact (hrefuses x (by simp) hlast).bind.append _ (Nat.le_add_right _ _)
      · have hrest : levels < Expr.depthAll xs := by
          simp only [Expr.depthAll_append, Expr.depthAll] at hdepth
          omega
        exact (htakes x (by simp) (Nat.le_of_not_lt hlast)).bind_refuses
          (ih (fun y hy => htakes y (by simp [hy])) (fun y hy => hrefuses y (by simp [hy])) hrest
            (x :: read))

theorem takeNode_refuses {count : Nat} {kind : Kind} {node : List Expr → Expr}
    {payload operands : List UInt8} {charge : Nat} (hcount : count < 2 ^ 64)
    (haccepted : acceptsCount (node []) count = true)
    (hpayload : Takes (takePayload kind) payload node 0)
    (hoperands : Refuses (takeOperands (takeNode levels) count []) operands e charge) :
    Refuses (takeNode (levels + 1))
      ([UInt8.ofNat kind.rank] ++ ((encodeNat count).reverse ++ (payload ++ operands))) e
      charge := by
  refine (opcode_takes kind).bind_free_refuses ?_
  simp only [ofRank?_opcode]
  refine (take_takes (readNat_reads hcount)).bind_free_refuses ?_
  refine hpayload.bind_free_refuses ?_
  simp only [haccepted, if_true]
  exact hoperands.bind

/-- A tree with more levels than may be read is refused, as soon as the reading comes to an operand
below them. -/
theorem takeNode_tooDeep (hvalid : t.CodecValid) (hdepth : levels < t.depth)
    (hroom : t.charge < 2 ^ 64) :
    Refuses (takeNode levels) t.encode.reverse .tooDeep t.charge := by
  induction levels generalizing t with
  | zero => exact fun _ _ _ => rfl
  | succ levels ih =>
      rcases hvalid with ⟨hpayload, haccepted, hoperands⟩
      rw [t.charge_eq] at hroom ⊢
      rw [t.depth_eq] at hdepth
      have hcharge : t.nodeCharge =
          Charge.header + Charge.reference * t.operands.length + t.payloadCharge := rfl
      rcases takePayload_takes hpayload (by omega) with ⟨node, hnode, -, haccepts⟩
      have hcount : t.operands.length < 2 ^ 64 := by
        unfold Charge.reference at hcharge
        omega
      have hless : ∀ x ∈ t.operands, x.charge < 2 ^ 64 := fun x hx =>
        (Expr.charge_le_chargeAll hx).trans_lt (by omega)
      have htakes : ∀ x ∈ t.operands, x.depth ≤ levels →
          Takes (takeNode levels) x.encode.reverse x x.charge := fun x hx hlevels =>
        takeNode_tree (hoperands x hx) hlevels (hless x hx)
      have hrefuses : ∀ x ∈ t.operands, levels < x.depth →
          Refuses (takeNode levels) x.encode.reverse .tooDeep x.charge := fun x hx hlevels =>
        ih (hoperands x hx) hlevels (hless x hx)
      have hall := takeOperands_refuses t.operands htakes hrefuses (by omega) []
      have hrefused := takeNode_refuses hcount ((haccepts _).trans haccepted) hnode hall
      rw [t.encode_eq]
      simpa using hrefused.append [] (Nat.le_add_right _ t.nodeCharge)

end Codec

/-! ## Whole buffers -/

theorem Expr.decode_tooDeep {free : Nat} {t : Expr} (hvalid : t.CodecValid)
    (hdepth : 513 < t.depth) (hroom : t.charge ≤ free) (hmemory : free < 2 ^ 64) :
    Expr.decode free t.encode = .error .tooDeep := by
  have hrefused := Codec.takeNode_tooDeep hvalid hdepth (by omega) [] free hroom
  rw [List.append_nil] at hrefused
  unfold Expr.decode
  show (Codec.takeNode 513 ⟨t.encode.reverse, free⟩ >>= _) = _
  rw [hrefused]
  rfl

namespace Pool

/-- The bytes of a tree are read into a pool with room for it exactly if the tree has at most 513
levels; otherwise they are refused for that reason. -/
theorem decode_by_depth {p : Pool} {handles : List Nat} {t : Expr} (hp : Balanced p [] handles)
    (hvalid : t.CodecValid) (hroom : t.charge ≤ p.free) (hmemory : p.free < 2 ^ 64) :
    (t.depth ≤ 513 → ∃ key q, p.decode t.encode = .ok (key, q) ∧ Gains p q handles key t) ∧
      (513 < t.depth → p.decode t.encode = .error .tooDeep) := by
  constructor
  · intro hdepth
    exact gains_of_codecValid hp hvalid hdepth hroom hmemory
  · intro hdepth
    unfold Pool.decode
    rw [Expr.decode_tooDeep hvalid hdepth hroom hmemory]
    rfl

end Pool

open Reduction Shape

namespace Expr

variable {f : Operator} {x r : Expr} {xs ys : List Expr} {count : Nat}

/-! ## Nodes that can be written -/

/-- A node that can be written as bytes. Decimals may have any scale, because reduction leaves none
of them. -/
structure NodeWritable (x : Expr) : Prop where
  count : Codec.acceptsCount x x.operands.length = true
  payload : x.kind ≠ .decimal → x.PayloadValid

theorem nodeWritable_literal (h : x.isLiteral = true) : NodeWritable x := by
  cases x with
  | symbol | apply => cases h
  | decimal d => exact ⟨rfl, fun h => absurd rfl h⟩
  | _ => exact ⟨rfl, fun _ => trivial⟩

/-- A node without data of its own. -/
theorem nodeWritable_apply (h : Codec.acceptsCount (.apply f xs) xs.length = true)
    (hname : f.kind ≠ .function) (hsides : f.kind ≠ .matrix) : NodeWritable (.apply f xs) := by
  refine ⟨h, fun _ => ?_⟩
  cases f <;> first | exact trivial | exact absurd rfl hname | exact absurd rfl hsides

theorem NodeWritable.rebuilt (h : NodeWritable (.apply f xs)) (hlength : ys.length = xs.length) :
    NodeWritable (.apply f ys) := by
  refine ⟨?_, fun hkind => ?_⟩
  · rw [operands, hlength, acceptsCount_apply f ys xs]
    exact h.count
  · rw [payloadValid_apply f ys xs]
    exact h.payload hkind

/-- The side of a matrix that can be written. -/
def IsSide (n : Nat) : Prop :=
  0 < n ∧ n < 2 ^ 32

theorem nodeWritable_matrix {rows columns : Nat} (hrows : IsSide rows) (hcolumns : IsSide columns)
    (hlength : xs.length = rows * columns) : NodeWritable (.apply (.matrix rows columns) xs) :=
  ⟨decide_eq_true hlength, fun _ => ⟨hrows, hcolumns⟩⟩

/-! ## Reduction -/

/-- Reduction keeps trees such that all of their nodes can be written. -/
theorem closed_nodeWritable : Closed IsSide (Everywhere NodeWritable) where
  rational _ := (everywhere_leaf rfl).mpr (nodeWritable_literal rfl)
  infinity _ := (everywhere_leaf rfl).mpr (nodeWritable_literal rfl)
  constant _ := (everywhere_leaf rfl).mpr (nodeWritable_literal rfl)
  undefined := (everywhere_leaf rfl).mpr (nodeWritable_apply rfl nofun nofun)
  nonreal := (everywhere_leaf rfl).mpr (nodeWritable_apply rfl nofun nofun)
  operand h hx := h.operand hx
  rebuilt h hlength hys := everywhere_apply.mpr ⟨h.here.rebuilt hlength, hys⟩
  many hf hlength hxs := by
    refine everywhere_apply.mpr ⟨?_, hxs⟩
    rcases hf with rfl | rfl <;> exact nodeWritable_apply (decide_eq_true hlength) nofun nofun
  prefixed h hx := by
    have hlength := of_decide_eq_true h.here.count
    exact everywhere_apply.mpr
      ⟨nodeWritable_apply (decide_eq_true (Nat.le_succ_of_le hlength)) nofun nofun,
        List.forall_mem_cons.mpr ⟨hx, fun _ hy => h.operand hy⟩⟩
  power hx hy := everywhere_apply.mpr
    ⟨nodeWritable_apply rfl nofun nofun, forall_mem_pair hx hy⟩
  logarithm hx hy := everywhere_apply.mpr
    ⟨nodeWritable_apply rfl nofun nofun, forall_mem_pair hx hy⟩
  function {f x} hf hx := by
    refine everywhere_apply.mpr ⟨?_, List.forall_mem_singleton.mpr hx⟩
    cases f <;> first | (cases hf; done) | exact nodeWritable_apply rfl nofun nofun
  sides h := h.here.payload nofun
  small := by
    unfold IsSide
    decide
  matrix hrows hcolumns hlength hxs := everywhere_apply.mpr
    ⟨nodeWritable_matrix hrows hcolumns hlength, hxs⟩
  inverse {m qs inverse} hm hsquare hqs hinverse := by
    have hside : IsSide m.rows := (hm.here.payload nofun).1
    have hcolumns : m.columns = m.rows := (of_decide_eq_true hsquare).symm
    have hentries : m.entries.length = m.rows * m.rows := by
      rw [show m.entries.length = m.rows * m.columns from of_decide_eq_true hm.here.count,
        hcolumns]
    have hsized := Grid.sized_rationalInverse? hcolumns hentries hqs hinverse
    refine everywhere_apply.mpr ⟨nodeWritable_matrix ?_ ?_ ?_, fun x hx => ?_⟩
    · rwa [hsized.rows_eq]
    · rwa [hsized.columns_eq]
    · rw [hsized.length_eq, hsized.rows_eq, hsized.columns_eq]
    · rcases List.mem_map.mp hx with ⟨q, -, rfl⟩
      exact (everywhere_leaf rfl).mpr (nodeWritable_literal rfl)

/-- No decimals are left in a canonical tree. -/
theorem codecValid_of_canonical (hx : Canonical x) (h : x.Everywhere NodeWritable) :
    x.CodecValid := by
  induction hx with
  | @apply f xs _ _ ih =>
      have hkind : (Expr.apply f xs).kind ≠ .decimal := by
        cases f <;> exact nofun
      exact .node (h.here.payload hkind) h.here.count fun y hy => ih y hy (h.operand hy)
  | _ => exact .node (h.here.payload nofun) h.here.count fun y hy => by cases hy

/-! ## The form for the user -/

theorem acceptsCount_of_drawn (h : isDrawn f count = true) (xs : List Expr) :
    Codec.acceptsCount (.apply f xs) count = true := by
  unfold isDrawn at h
  split at h <;> first | rfl | cases h

theorem drawn_codecValid : Drawn CodecValid where
  rational _ := .node trivial rfl fun y hy => by cases hy
  infinity _ := .node trivial rfl fun y hy => by cases hy
  apply {f xs} hf hxs := by
    refine .node ?_ (acceptsCount_of_drawn hf xs) hxs
    cases f <;> first | exact trivial | cases hf

theorem CodecValid.operand (h : (apply f xs).CodecValid) (hx : x ∈ xs) : x.CodecValid := by
  cases h with
  | node _ _ operands => exact operands x hx

theorem CodecValid.rebuilt (h : (apply f xs).CodecValid) (hlength : ys.length = xs.length)
    (hys : ∀ y ∈ ys, y.CodecValid) : (apply f ys).CodecValid := by
  cases h with
  | node payload count _ =>
      refine .node ?_ ?_ hys
      · rwa [payloadValid_apply f ys xs]
      · rwa [operands, hlength, acceptsCount_apply f ys xs]

theorem codecValid_beautify (h : x.CodecValid) : (beautify x).CodecValid :=
  drawn_codecValid.beautify CodecValid.operand CodecValid.rebuilt h

/-! ## Texts -/

theorem nodeWritable_of_nodeFormed (h : NodeFormed x) (hsides : SidesFit x) : NodeWritable x := by
  by_cases hliteral : x.isLiteral = true
  · exact nodeWritable_literal hliteral
  · have hscale : ScaleWithin 0 x := by
      cases x <;> first | exact trivial | exact absurd rfl hliteral
    rcases storable_of_nodeFormed h hscale with ⟨hcount, hpayload⟩
    exact ⟨hcount, fun _ => hpayload (by decide) hsides⟩

/-- The nodes of the tree of a text can be written. -/
theorem nodeWritable_of_parse {free : Nat} {text : String} (h : Expr.parse free text = .ok x)
    (hsides : x.Everywhere SidesFit) : x.Everywhere NodeWritable := by
  have hformed : ∀ {y : Expr}, y.Everywhere NodeFormed → y.Everywhere SidesFit →
      y.Everywhere NodeWritable := fun hy hsides =>
    (hy.and hsides).mono fun _ hz => nodeWritable_of_nodeFormed hz.1 hz.2
  rcases nodeFormed_of_parse h with hx | ⟨y, target, rfl, hy, htarget⟩
  · exact hformed hx hsides
  · refine everywhere_apply.mpr ⟨nodeWritable_apply rfl nofun nofun, forall_mem_pair ?_ ?_⟩
    · exact hformed hy (hsides.operand (by simp [operands]))
    · exact hformed htarget (hsides.operand (by simp [operands]))

/-- Whatever the settings are, what the tree of a text is reduced to can be written. -/
theorem codecValid_of_reduce {free : Nat} {text : String} {ctx : Context} {breaker : Breaker}
    (hparse : Expr.parse free text = .ok x) (hsides : x.Everywhere SidesFit)
    (hdefinitions : ctx.definitions = {}) (hr : x.reduce ctx breaker = .ok r) : r.CodecValid := by
  have hnone : ∀ entry ∈ ctx.definitions.entries, False := by
    rw [hdefinitions]
    exact nofun
  have hshaped : Shaped maxNesting ctx :=
    shaped_reduceWithin maxNesting fun entry hentry => (hnone entry hentry).elim
  have hkept := closed_nodeWritable.kept_reduceWithin maxNesting
    fun entry hentry => (hnone entry hentry).elim
  have hreduced := (hshaped.tree x (arranged_of_parse hparse).bindsSymbols).and
    (hkept.tree x (nodeWritable_of_parse hparse hsides))
  rcases exists_of_reduce hreduced hr with ⟨c, ⟨hcanonical, hwritable⟩, rfl⟩
  have hvalid := codecValid_of_canonical hcanonical hwritable
  split
  · exact codecValid_beautify hvalid
  · exact hvalid

end Expr

namespace Pool

/-- What the tree of a text is reduced to is read back from its bytes into any pool with room,
whatever the settings are, if it has at most 513 levels; otherwise the bytes are refused for that
reason. The sides of the matrices in the text are no longer than those of matrices that are made in
a pool. -/
theorem decode_reduced {free room : Nat} {text : String} {settings : Settings} {breaker : Breaker}
    {t r : Expr} (hparse : Expr.parse free text = .ok t) (hsides : t.Everywhere Expr.SidesFit)
    (hr : t.reduce ⟨settings, {}, room, []⟩ breaker = .ok r) {p : Pool} {handles : List Nat}
    (hp : Balanced p [] handles) (hroom : r.charge ≤ p.free) (hmemory : p.free < 2 ^ 64) :
    (r.depth ≤ 513 → ∃ key q, p.decode r.encode = .ok (key, q) ∧ Gains p q handles key r) ∧
      (513 < r.depth → p.decode r.encode = .error .tooDeep) :=
  decode_by_depth hp (Expr.codecValid_of_reduce hparse hsides rfl hr) hroom hmemory

/-- A decimal, a root and a quotient, which are drawn anew for the user. -/
theorem decode_reduced_fraction : ∃ t r, Expr.parse 4096 "a-1.5×b^(1/2)/c" = .ok t ∧
    t.reduce ⟨{}, {}, 4096, []⟩ {} = .ok r ∧ r.text = "a-3×√(b)/(2×c)" ∧
      ∃ key q, (empty 4096 0).decode r.encode = .ok (key, q) ∧ q.read key = r := by
  have hresults : ((Expr.parse 4096 "a-1.5×b^(1/2)/c").toOption.bind fun t =>
      (t.reduce ⟨{}, {}, 4096, []⟩ {}).toOption.map fun r => (r.text,
        decide (t.Everywhere Expr.SidesFit ∧ r.charge ≤ (empty 4096 0).free ∧ r.depth ≤ 513))) =
      some ("a-3×√(b)/(2×c)", true) := by
    decide +kernel
  rcases exists_ok_bind hresults with ⟨t, r, hparse, hr, hboth⟩
  rcases Prod.mk.inj hboth with ⟨htext, hfits⟩
  rcases of_decide_eq_true hfits with ⟨hsides, hroom, hdepth⟩
  rcases (decode_reduced hparse hsides hr (Balanced.empty 4096 0) hroom (by decide)).1 hdepth with
    ⟨key, q, hq, hgains⟩
  exact ⟨t, r, hparse, hr, htext, key, q, hq, hgains.read⟩

/-- The factors `(1+b)^7` and `(1+c)^7`, which are multiplied out into 64 terms. -/
def factoredSum : Expr :=
  let power (name : String) : Expr :=
    .apply .power [.apply .parenthesis [.apply .addition [.integer 1, .symbol name]], .integer 7]
  .apply .multiplication [power "b", power "c"]

/-- Powers in the exponents of powers, each with the factors behind it. -/
def nestedPowers : Nat → Expr
  | 0 => .symbol "x"
  | n + 1 =>
    .apply .addition
      [.apply .power [.integer 2, .apply .parenthesis [nestedPowers n]], factoredSum]

/-- The text of eight powers. -/
def nestedPowersText : String :=
  "2^(2^(2^(2^(2^(2^(2^(2^(x)+(1+b)^7(1+c)^7)+(1+b)^7(1+c)^7)+(1+b)^7(1+c)^7)+(1+b)^7(1+c)^7)+" ++
    "(1+b)^7(1+c)^7)+(1+b)^7(1+c)^7)+(1+b)^7(1+c)^7)+(1+b)^7(1+c)^7"

theorem parse_nestedPowersText : Expr.parse 0x100000 nestedPowersText = .ok (nestedPowers 8) :=
  Expr.Everywhere.eq_ok (by decide) (by decide +kernel)

/-- In the form for the user each sum is a chain of additions, and the power stands at the bottom of
it. -/
theorem reduce_nestedPowers : ∃ r, (nestedPowers 8).reduce ⟨{}, {}, 0x100000, []⟩ {} = .ok r ∧
    r.charge ≤ 0x100000 ∧ 513 < r.depth := by
  have hresult : ((nestedPowers 8).reduce ⟨{}, {}, 0x100000, []⟩ {}).toOption.map
      (fun r => decide (r.charge ≤ 0x100000 ∧ 513 < r.depth)) = some true := by
    decide +kernel
  rcases exists_ok hresult with ⟨r, hr, hfits⟩
  exact ⟨r, hr, of_decide_eq_true hfits⟩

/-- A short text is reduced to a tree whose bytes are refused by a pool with room for it. -/
theorem decode_reduced_nestedPowers : ∃ t r,
    Expr.parse 0x100000 nestedPowersText = .ok t ∧
      t.reduce ⟨{}, {}, 0x100000, []⟩ {} = .ok r ∧ r.charge ≤ (empty 0x100000 0).free ∧
        (empty 0x100000 0).decode r.encode = .error .tooDeep := by
  rcases reduce_nestedPowers with ⟨r, hr, hroom, hdepth⟩
  have hsides : (nestedPowers 8).Everywhere Expr.SidesFit := by decide
  have hvalid := Expr.codecValid_of_reduce parse_nestedPowersText hsides rfl hr
  exact ⟨nestedPowers 8, r, parse_nestedPowersText, hr, hroom,
    (decode_by_depth (Balanced.empty 0x100000 0) hvalid hroom (by decide)).2 hdepth⟩

end Pool

end PocketAlgebra

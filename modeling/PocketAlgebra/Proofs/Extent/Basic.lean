import Mathlib.Data.List.Forall2
import PocketAlgebra.Proofs.Closed.Matrix
import PocketAlgebra.Proofs.Field.Engine
import PocketAlgebra.Proofs.Field.Value

/-!
# Scalars and matrices

Sums, products and powers of scalars and matrices, and the functions of matrices, have an extent
that can be told from the expression alone: they are scalars, or matrices with so many rows and
columns. Symbols stand for scalars.

Sums, products and powers of scalars are scalars again, and so are the determinants that are not
expanded. Nothing that the rules for arithmetic make of them is taken for a matrix.
-/

namespace PocketAlgebra

/-- A scalar, or a matrix with so many rows and columns. -/
inductive Extent where
  | scalar
  | matrix (rows columns : Nat)
  deriving DecidableEq, Repr

namespace Extent

/-- The numbers of rows and columns; a scalar acts as a matrix of one entry. -/
def sides : Extent → Nat × Nat
  | scalar => (1, 1)
  | matrix rows columns => (rows, columns)

/-- Whether there are as many rows as columns. -/
def isSquare (s : Extent) : Bool :=
  s.sides.1 = s.sides.2

/-- The extent with rows and columns exchanged. -/
def transpose : Extent → Extent
  | scalar => scalar
  | matrix rows columns => matrix columns rows

/-- The extent of a product. -/
def times? : Extent → Extent → Option Extent
  | scalar, s => some s
  | s, scalar => some s
  | matrix rows inner, matrix inner' columns =>
    if inner = inner' then some (matrix rows columns) else none

end Extent

/-- The extent of what an operator forms from operands of given extents. Powers are left out. -/
def Operator.extent? (f : Operator) (extents : List Extent) : Option Extent :=
  match f, extents with
  | .undefined, [] => some .scalar
  | .matrix rows columns, extents =>
    if extents.length = rows * columns && extents.all (· = .scalar) then
      some (.matrix rows columns)
    else
      none
  | .addition, s :: others => if others.all (· = s) then some s else none
  | .subtraction, [s, t] => if s = t then some s else none
  | .multiplication, extents => extents.foldlM Extent.times? .scalar
  | .opposite, [s] | .parenthesis, [s] => some s
  | .determinant, [s] | .trace, [s] => if s.isSquare then some .scalar else none
  | .matrixInverse, [s] => if s.isSquare then some s else none
  | .transpose, [s] => some s.transpose
  | .dimension, [_] => some (.matrix 1 2)
  | _, _ => none

/-- The operators that are computed for matrices with any entries. -/
def Operator.isPlain : Operator → Bool
  | .addition | .subtraction | .multiplication | .opposite | .parenthesis => true
  | .determinant | .trace | .transpose | .dimension => true
  | _ => false

/-- A function of one operand has an extent for one operand only. -/
theorem Operator.exists_operand {R : Extent → Expr → Prop} {f : Operator} {xs : List Expr}
    {ss : List Extent} {s : Extent} (hf : f.kind.arity = .fixed 1) (hs : f.extent? ss = some s)
    (hxs : List.Forall₂ R ss xs) : ∃ t x, ss = [t] ∧ xs = [x] ∧ R t x := by
  rcases hxs with _ | @⟨t, x, _, _, hx, _ | ⟨hy, hxs⟩⟩
  · cases f <;> contradiction
  · exact ⟨t, x, rfl, rfl, hx⟩
  · cases f <;> contradiction

/-- A difference has two operands of its extent. -/
theorem Operator.exists_operands {R : Extent → Expr → Prop} {xs : List Expr} {ss : List Extent}
    {s : Extent} (hs : Operator.subtraction.extent? ss = some s) (hxs : List.Forall₂ R ss xs) :
    ∃ x y, xs = [x, y] ∧ R s x ∧ R s y := by
  rcases hxs with _ | @⟨t, x, _, _, hx, _ | @⟨r, y, _, _, hy, _ | ⟨hz, hxs⟩⟩⟩
  · cases hs
  · cases hs
  · rw [Operator.extent?, Option.ite_none_right_eq_some, Option.some_inj] at hs
    rcases hs with ⟨rfl, rfl⟩
    exact ⟨x, y, rfl, hx, hy⟩
  · cases hs

namespace Expr

mutual

/-- The extent of an expression. Powers have whole exponents. -/
def extent? : Expr → Option Extent
  | rational _ | symbol _ => some .scalar
  | apply .power [x, y] => if y.wholeLiteral?.isSome then x.extent?.filter (·.isSquare) else none
  | apply f xs => (extents? xs).bind f.extent?
  | _ => none

/-- The extents of several expressions. -/
def extents? : List Expr → Option (List Extent)
  | [] => some []
  | x :: xs => do return (← x.extent?) :: (← extents? xs)

end

theorem extents?_eq_some_iff {xs : List Expr} {ss : List Extent} :
    extents? xs = some ss ↔ List.Forall₂ (fun x s => x.extent? = some s) xs ss := by
  induction xs generalizing ss with
  | nil =>
      rw [extents?, List.forall₂_nil_left_iff, Option.some_inj]
      exact eq_comm
  | cons x xs ih =>
      simp only [extents?, List.forall₂_cons_left_iff, Option.bind_eq_bind, Option.bind_eq_some_iff,
        Option.pure_def, Option.some_inj]
      constructor
      · rintro ⟨s, hs, ss, hss, rfl⟩
        exact ⟨s, ss, hs, ih.mp hss, rfl⟩
      · rintro ⟨s, ss, hs, hss, rfl⟩
        exact ⟨s, hs, ss, ih.mpr hss, rfl⟩

theorem extent?_power {x y : Expr} {s : Extent} :
    (apply .power [x, y]).extent? = some s ↔
      (∃ n, y.wholeLiteral? = some n) ∧ x.extent? = some s ∧ s.isSquare = true := by
  rw [extent?]
  split
  · rename_i hwhole
    rw [Option.filter_eq_some_iff, ← Option.isSome_iff_exists]
    exact (and_iff_right hwhole).symm
  · rename_i hwhole
    rw [← Option.isSome_iff_exists]
    simp [hwhole]

theorem extent?_apply {f : Operator} {xs : List Expr} (hf : f ≠ .power) :
    (apply f xs).extent? = (extents? xs).bind f.extent? := by
  rw [extent?]
  rintro x y rfl
  exact absurd rfl hf

theorem extent?_inverse {x : Expr} {s : Extent} (hx : x.extent? = some s)
    (hsquare : s.isSquare = true) : (apply .matrixInverse [x]).extent? = some s := by
  rw [extent?_apply (by decide), extents?_eq_some_iff.mpr (.cons hx .nil)]
  exact if_pos hsquare

theorem extents?_of_forall {xs : List Expr} {s : Extent} (h : ∀ x ∈ xs, x.extent? = some s) :
    extents? xs = some (List.replicate xs.length s) := by
  induction xs with
  | nil => rfl
  | cons x xs ih =>
      rw [extents?, h x List.mem_cons_self, ih fun y hy => h y (List.mem_cons_of_mem x hy)]
      rfl

/-- How an expression comes by its extent. -/
inductive Measured : Expr → Extent → Prop
  | rational (q : Rat) : Measured (rational q) .scalar
  | symbol (name : String) : Measured (symbol name) .scalar
  | undefined : Measured .undefined .scalar
  | matrix {rows columns : Nat} {xs : List Expr} (hlength : xs.length = rows * columns)
      (hxs : ∀ x ∈ xs, x.extent? = some .scalar) :
      Measured (apply (.matrix rows columns) xs) (.matrix rows columns)
  | power {x y : Expr} {n : Int} {s : Extent} (hx : x.extent? = some s)
      (hsquare : s.isSquare = true) (hy : y.wholeLiteral? = some n) :
      Measured (apply .power [x, y]) s
  | inverse {x : Expr} {s : Extent} (hx : x.extent? = some s) (hsquare : s.isSquare = true) :
      Measured (apply .matrixInverse [x]) s
  | plain {f : Operator} {xs : List Expr} {ss : List Extent} {s : Extent}
      (hf : f.isPlain = true) (hxs : extents? xs = some ss) (hs : f.extent? ss = some s) :
      Measured (apply f xs) s

theorem measured_matrix {rows columns : Nat} {xs : List Expr} {ss : List Extent} {s : Extent}
    (hxs : extents? xs = some ss) (hs : (Operator.matrix rows columns).extent? ss = some s) :
    Measured (apply (.matrix rows columns) xs) s := by
  rw [Operator.extent?, Option.ite_none_right_eq_some, Option.some_inj] at hs
  rcases hs with ⟨hfits, rfl⟩
  rw [Bool.and_eq_true, decide_eq_true_eq, List.all_eq_true] at hfits
  have hextents := extents?_eq_some_iff.mp hxs
  refine .matrix (hextents.length_eq.trans hfits.1) fun x hx => ?_
  rcases List.get_of_mem hx with ⟨i, rfl⟩
  rcases List.forall₂_iff_get.mp hextents with ⟨hlength, hget⟩
  have hi : i < ss.length := hlength ▸ i.isLt
  have hscalar := hfits.2 _ (List.get_mem ss ⟨i, hi⟩)
  rw [← of_decide_eq_true hscalar]
  exact hget i i.isLt hi

theorem measured_of_extent? {x : Expr} {s : Extent} (h : x.extent? = some s) : Measured x s := by
  cases x with
  | rational q =>
      cases h
      exact .rational q
  | symbol name =>
      cases h
      exact .symbol name
  | apply f xs =>
      by_cases hpair : ∃ x y, apply f xs = apply .power [x, y]
      · rcases hpair with ⟨x, y, hpair⟩
        rw [hpair] at h ⊢
        rcases extent?_power.mp h with ⟨⟨n, hy⟩, hx, hsquare⟩
        exact .power hx hsquare hy
      · rw [extent?] at h
        · rcases Option.bind_eq_some_iff.mp h with ⟨ss, hxs, hs⟩
          by_cases hplain : f.isPlain = true
          · exact .plain hplain hxs hs
          · have hextents := extents?_eq_some_iff.mp hxs
            cases f with
            | undefined =>
                cases hextents with
                | nil =>
                    cases hs
                    exact .undefined
                | cons => cases hs
            | matrix rows columns => exact measured_matrix hxs hs
            | matrixInverse =>
                rcases Operator.exists_operand rfl hs hextents.flip with ⟨t, x, rfl, rfl, hx⟩
                rw [Operator.extent?, Option.ite_none_right_eq_some, Option.some_inj] at hs
                rcases hs with ⟨hsquare, rfl⟩
                exact .inverse hx hsquare
            | _ => first | cases hs | exact absurd rfl hplain
        · exact fun x y hf hxs => hpair ⟨x, y, by rw [hf, hxs]⟩
  | decimal | infinity | constant => cases h

end Expr

/-! ## Reduced form -/

namespace Reduction

open PocketAlgebra.Expr

variable {node : NodeReducer} {ctx : Context} {f : Operator} {m : Grid} {x y : Expr}
  {xs : List Expr} {s : Extent} {ss : List Extent} {rows columns : Nat}

/-! ## Scalars -/

/-- A scalar in reduced form. It is put together from numbers and symbols by sums, products and
powers with whole exponents, and from determinants that are not expanded. -/
inductive IsScalar : Expr → Prop
  | rational (q : Rat) : IsScalar (.rational q)
  | symbol (name : String) : IsScalar (.symbol name)
  | undefined : IsScalar .undefined
  | addition {xs : List Expr} : xs ≠ [] → (∀ x ∈ xs, IsScalar x) → IsScalar (.apply .addition xs)
  | multiplication {xs : List Expr} : (∀ x ∈ xs, IsScalar x) → IsScalar (.apply .multiplication xs)
  | power {x : Expr} (n : Int) : IsScalar x → IsScalar (.apply .power [x, .integer n])
  | determinant {rows : Nat} {xs : List Expr} : xs.length = rows * rows →
      (∀ x ∈ xs, IsScalar x) → IsScalar (.apply .determinant [.apply (.matrix rows rows) xs])

theorem closedOperands_isScalar : ClosedOperands IsScalar where
  rational := .rational
  operand hf h hx := by
    rcases hf with rfl | rfl
    · cases h with
      | addition _ hxs => exact hxs _ hx
    · cases h with
      | multiplication hxs => exact hxs _ hx
  many hf hlength hxs := by
    rcases hf with rfl | rfl
    · exact .addition (List.ne_nil_of_length_pos (by omega)) hxs
    · exact .multiplication hxs
  prefixed h hx := by
    cases h with
    | multiplication hxs => exact .multiplication (List.forall_mem_cons.mpr ⟨hx, hxs⟩)

theorem closedScalars_isScalar : ClosedScalars IsScalar where
  rational := .rational
  undefined := .undefined
  infinity _ h := by cases h
  operand := closedOperands_isScalar.operand
  collected := closedOperands_isScalar.collected
  gathered := closedOperands_isScalar.gathered
  exponent n := ⟨n, rfl⟩
  power hx hy := by
    rcases hy with ⟨n, rfl⟩
    exact .power n hx
  parts h := by
    cases h with
    | power n hx => exact ⟨hx, n, rfl⟩
  not_matrix h := by cases h <;> rfl
  not_list h := by cases h <;> rfl
  kind_ne_nonreal h hkind := by cases h <;> cases hkind
  not_constant _ h := by cases h

theorem IsScalar.isList (hx : IsScalar x) : x.isList = false :=
  closedScalars_isScalar.not_list hx

theorem IsScalar.ofExpr? (hx : IsScalar x) : Grid.ofExpr? x = none :=
  closedScalars_isScalar.ofExpr? hx

/-- A reduction of sums, products and powers of scalars to scalars. -/
abbrev KeepsScalars : NodeReducer → Prop :=
  KeepsArithmetic IsWhole IsScalar

theorem keepsScalars_nodeWithin (ctx : Context) (nesting : Nat) :
    KeepsScalars (nodeWithin nesting ctx) :=
  closedScalars_isScalar.keepsArithmetic ctx nesting

/-! ## Matrices -/

/-- A matrix of scalars, with so many rows and columns, whose entries are all there. -/
structure Grid.Sized (rows columns : Nat) (m : Grid) : Prop where
  rows_eq : m.rows = rows
  columns_eq : m.columns = columns
  length_eq : m.entries.length = rows * columns
  entries : ∀ x ∈ m.entries, IsScalar x

theorem Grid.isSquare_iff (hm : m.Sized rows columns) : m.isSquare = true ↔ rows = columns := by
  rw [isSquare, decide_eq_true_iff, hm.rows_eq, hm.columns_eq]

/-- A scalar or a matrix in reduced form. -/
def HasExtent : Extent → Expr → Prop
  | .scalar, x => IsScalar x
  | .matrix rows columns, x => ∃ m : Grid, m.Sized rows columns ∧ x = m.toExpr

/-- What has an extent, or is undefined. -/
def Fits (s : Extent) (x : Expr) : Prop :=
  x = .undefined ∨ HasExtent s x

theorem fits_rational (q : Rat) : Fits .scalar (.rational q) :=
  .inr (IsScalar.rational q)

theorem Fits.isScalar (hx : Fits .scalar x) : IsScalar x := by
  rcases hx with rfl | hx
  · exact .undefined
  · exact hx

theorem Fits.isList (hx : Fits s x) : x.isList = false := by
  rcases hx with rfl | hx
  · rfl
  · cases s with
    | scalar => exact IsScalar.isList hx
    | matrix rows columns =>
        rcases hx with ⟨m, _, rfl⟩
        rfl

theorem Fits.kind_ne_nonreal (hx : Fits s x) : x.kind ≠ .nonreal := by
  rcases hx with rfl | hx
  · decide
  · cases s with
    | scalar => exact closedScalars_isScalar.kind_ne_nonreal hx
    | matrix rows columns =>
        rcases hx with ⟨m, _, rfl⟩
        intro hkind
        cases hkind

theorem Fits.hasExtent (hx : Fits s x) (hkind : x.kind ≠ .undefined) : HasExtent s x := by
  rcases hx with rfl | hx
  · exact absurd rfl hkind
  · exact hx

/-! ## Operands that may be undefined -/

theorem hasExtents_of_fits (hxs : List.Forall₂ Fits ss xs)
    (hkinds : ∀ x ∈ xs, x.kind ≠ .undefined) : List.Forall₂ HasExtent ss xs := by
  induction hxs with
  | nil => exact .nil
  | @cons s x ss xs hx _ ih =>
      exact .cons (hx.hasExtent (hkinds x List.mem_cons_self))
        (ih fun y hy => hkinds y (List.mem_cons_of_mem x hy))

/-- No operand is poisoned, or one is undefined. -/
theorem poison?_of_fits (hxs : List.Forall₂ Fits ss xs) :
    poison? xs = none ∧ List.Forall₂ HasExtent ss xs ∨ poison? xs = some .undefined := by
  rw [poison?]
  split
  · exact .inr rfl
  · rename_i hundefined
    have hnonreal : xs.any (·.kind == .nonreal) = false := by
      rw [List.any_eq_false]
      intro x hx
      simpa using forall_of_forall₂ hxs (fun _ _ _ h => h.kind_ne_nonreal) x hx
    rw [hnonreal]
    refine .inl ⟨rfl, hasExtents_of_fits hxs fun x hx hkind => hundefined ?_⟩
    exact List.any_eq_true.mpr ⟨x, hx, by simp [hkind]⟩

/-- Operands that have extents do not spoil a node, unless one is undefined. -/
theorem spoiled?_of_fits (hf : admitsMatrices f.kind = true) (hmatrix : f.kind ≠ .matrix)
    (hxs : List.Forall₂ Fits ss xs) :
    spoiled? f xs = none ∧ List.Forall₂ HasExtent ss xs ∨ spoiled? f xs = some .undefined := by
  have hlists : xs.any isList = false := by
    rw [List.any_eq_false]
    intro x hx
    simp [forall_of_forall₂ hxs (fun _ _ _ h => h.isList) x hx]
  have hlist : f ≠ .list := by
    rintro rfl
    cases hf
  have hspoiled : spoiled? f xs = poison? xs := by
    simp [spoiled?, hlists, hf, hlist, hmatrix]
  rw [hspoiled]
  exact poison?_of_fits hxs

theorem forall₂_replicate {R : Extent → Expr → Prop} (hxs : ∀ x ∈ xs, R s x) :
    List.Forall₂ R (List.replicate xs.length s) xs := by
  induction xs with
  | nil => exact .nil
  | cons x xs ih =>
      exact .cons (hxs x List.mem_cons_self) (ih fun y hy => hxs y (List.mem_cons_of_mem x hy))

/-- A node over operands that have extents. -/
theorem nodeWithin_fits (hf : admitsMatrices f.kind = true) (hmatrix : f.kind ≠ .matrix)
    (hxs : List.Forall₂ Fits ss xs) {Q : Expr → Prop} (hundefined : Q .undefined) {nesting : Nat}
    (h : List.Forall₂ HasExtent ss xs → ∀ inner < nesting,
      Yields (reduceApply ctx (nodeWithin inner ctx) (treeWithin inner ctx) f xs) Q) :
    Yields (nodeWithin nesting ctx (.apply f xs)) Q := by
  rcases spoiled?_of_fits hf hmatrix hxs with ⟨hspoiled, hextents⟩ | hspoiled
  · exact nodeWithin_unspoiled hspoiled (h hextents)
  · exact nodeWithin_spoiled hspoiled hundefined nesting

/-! ## Extents of results -/

theorem times?_scalar (s : Extent) : s.times? .scalar = some s := by
  cases s <;> rfl

theorem foldlM_scalars (count : Nat) (s : Extent) :
    (List.replicate count Extent.scalar).foldlM Extent.times? s = some s := by
  induction count with
  | zero => rfl
  | succ count ih =>
      rw [List.replicate_succ, List.foldlM_cons, times?_scalar]
      exact ih

theorem extent?_matrix (hlength : xs.length = rows * columns)
    (hxs : ∀ x ∈ xs, x.extent? = some .scalar) :
    (Expr.apply (.matrix rows columns) xs).extent? = some (.matrix rows columns) := by
  rw [extent?_apply (by simp), extents?_of_forall hxs]
  simp [Operator.extent?, hlength]

theorem IsScalar.extent? (hx : IsScalar x) : x.extent? = some .scalar := by
  induction hx with
  | rational | symbol | undefined => rfl
  | @addition xs hne _ ih =>
      rw [extent?_apply (by decide), extents?_of_forall ih]
      cases xs with
      | nil => exact absurd rfl hne
      | cons x xs => simp [List.replicate_succ, Operator.extent?]
  | multiplication _ ih =>
      rw [extent?_apply (by decide), extents?_of_forall ih]
      exact foldlM_scalars _ _
  | power n _ ih => exact extent?_power.mpr ⟨⟨n, wholeLiteral?_integer n⟩, ih, rfl⟩
  | determinant hlength _ ih =>
      rw [extent?_apply (by decide), extents?_of_forall (List.forall_mem_singleton.mpr
        (extent?_matrix hlength ih))]
      simp [Operator.extent?, Extent.isSquare, Extent.sides]

theorem HasExtent.extent? (hx : HasExtent s x) : x.extent? = some s := by
  cases s with
  | scalar => exact IsScalar.extent? hx
  | matrix rows columns =>
      rcases hx with ⟨m, hm, rfl⟩
      rw [Grid.toExpr, hm.rows_eq, hm.columns_eq]
      exact extent?_matrix hm.length_eq fun y hy => (hm.entries y hy).extent?

end Reduction

end PocketAlgebra

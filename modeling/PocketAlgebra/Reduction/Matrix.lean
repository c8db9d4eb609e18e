import PocketAlgebra.Chunks
import PocketAlgebra.Reduction.Basic

/-!
# Matrices

Sums and products of matrices are formed entry by entry with the rules for scalars. Determinants
and inverses of matrices of rational numbers are computed by elimination; other determinants are
expanded while they are small.
-/

namespace PocketAlgebra

namespace Reduction

/-! ## Rational matrices -/

/-- The rows of a matrix with the first row whose leading entry is not zero in front, exchanged
with the one that was there, and whether there was an exchange. -/
def pivotToFront? : List (List Rat) → Option (List Rat × List (List Rat) × Bool)
  | [] => none
  | row :: rows =>
    if row.headD 0 ≠ 0 then
      some (row, rows, false)
    else
      exchange row [] rows
where
  /-- Looks for the row among those behind the ones that have been passed, last one first. -/
  exchange (first : List Rat) (passed : List (List Rat)) :
      List (List Rat) → Option (List Rat × List (List Rat) × Bool)
    | [] => none
    | row :: rows =>
      if row.headD 0 ≠ 0 then
        some (row, passed.reverse ++ first :: rows, true)
      else
        exchange first (row :: passed) rows

/-- A row with its leading entry eliminated by the pivot row, without fractions: each entry is a
minor, divided by the pivot of the step before. -/
def eliminate (previous : Rat) (pivotRow row : List Rat) : List Rat :=
  let pivot := pivotRow.headD 0
  let head := row.headD 0
  (row.tail.zip pivotRow.tail).map fun (x, y) => (x * pivot - head * y) / previous

/-- The determinant of so many rows that are left by an elimination, divided by the powers of
pivots that it multiplied in. -/
def eliminatedDeterminant (previous : Rat) : Nat → List (List Rat) → Rat
  | 0, _ => 1
  | 1, rows => (rows.headD []).headD 0
  | count + 2, rows =>
    match pivotToFront? rows with
    | none => 0
    | some (pivotRow, others, exchanged) =>
      let rest := eliminatedDeterminant (pivotRow.headD 0) (count + 1)
        (others.map (eliminate previous pivotRow))
      if exchanged then -rest else rest

/-- The determinant of a square matrix of rational numbers, given by its rows. -/
def rationalDeterminant (rows : List (List Rat)) : Rat :=
  eliminatedDeterminant 1 rows.length rows

/-- A row without its multiple of the pivot row, which begins with 1, and without its leading
entry. -/
def clear (pivotRow row : List Rat) : List Rat :=
  (row.tail.zip pivotRow.tail).map fun (x, y) => x - row.headD 0 * y

/-- Eliminates so many columns from a matrix: the rows that have not held a pivot yet, and those
that have, in the order of their pivots. What is left of the rows at the end are the columns to
the right of those eliminated. -/
def gaussJordan? : Nat → List (List Rat) → List (List Rat) → Option (List (List Rat))
  | 0, _, done => some done
  | count + 1, rows, done =>
    match pivotToFront? rows with
    | none => none
    | some (pivotRow, others, _) =>
      let scale := (pivotRow.headD 0)⁻¹
      let unitRow := pivotRow.map (· * scale)
      gaussJordan? count (others.map (clear unitRow)) (done.map (clear unitRow) ++ [unitRow.tail])

/-- A row of the identity matrix. -/
def unitVector (n i : Nat) : List Rat :=
  (List.range n).map fun j => if i = j then 1 else 0

/-- The inverse of a square matrix of rational numbers, where it has one. -/
def rationalInverse? (rows : List (List Rat)) : Option (List (List Rat)) :=
  let n := rows.length
  gaussJordan? n (rows.mapIdx fun i row => row ++ unitVector n i) []

/-! ## Matrices of expressions -/

/-- A matrix of expressions, row by row. -/
structure Grid where
  rows : Nat
  columns : Nat
  entries : List Expr

namespace Grid

/-- The matrix that an expression is. -/
def ofExpr? : Expr → Option Grid
  | .apply (.matrix rows columns) entries => some ⟨rows, columns, entries⟩
  | _ => none

/-- The matrix as an expression. -/
def toExpr (m : Grid) : Expr :=
  .apply (.matrix m.rows m.columns) m.entries

/-- The entry at a position. -/
def entry (m : Grid) (row column : Nat) : Expr :=
  m.entries[row * m.columns + column]?.getD .undefined

/-- Whether there are as many rows as columns. -/
def isSquare (m : Grid) : Bool :=
  m.rows = m.columns

/-- The matrix with the given entries. -/
def ofFunction (rows columns : Nat) (entry : Nat → Nat → Expr) : Grid :=
  ⟨rows, columns, (List.range rows).flatMap fun i => (List.range columns).map (entry i)⟩

/-- The matrix with the given entries, which are computed row by row. -/
def ofComputation (rows columns : Nat) (entry : Nat → Nat → ReduceM Expr) : ReduceM Grid := do
  let entries ← (List.range rows).mapM fun i => (List.range columns).mapM (entry i)
  return ⟨rows, columns, entries.flatten⟩

/-- The rows of a matrix whose entries are all rational numbers. -/
def rationals? (m : Grid) : Option (List (List Rat)) :=
  (chunks m.columns m.entries).mapM fun row => row.mapM Expr.rational?

/-- A matrix of rational numbers. -/
def ofRationals (rows : List (List Rat)) : Grid :=
  ⟨rows.length, (rows.headD []).length, rows.flatten.map Expr.rational⟩

/-- The identity matrix. -/
def identity (n : Nat) : Grid :=
  ofFunction n n fun i j => .integer (if i = j then 1 else 0)

/-- The transposed matrix. -/
def transpose (m : Grid) : Grid :=
  ofFunction m.columns m.rows fun i j => m.entry j i

/-- The matrix without its first row and without one of its columns. -/
def minor (m : Grid) (column : Nat) : Grid :=
  let others := (List.range m.rows).filter (· ≠ column)
  ⟨m.rows - 1, m.rows - 1,
    (List.range (m.rows - 1)).flatMap fun i => others.map fun j => m.entry (i + 1) j⟩

/-- The product of two matrices, where their shapes fit. -/
def multiply? (node : NodeReducer) (a b : Grid) : ReduceM (Option Grid) := do
  if a.columns ≠ b.rows then
    return none
  else
    let product ← ofComputation a.rows b.columns fun i j => do
      let terms ← (List.range a.columns).mapM fun k =>
        Reduction.multiply node [a.entry i k, b.entry k j]
      Reduction.add node terms
    return some product

/-- A product, or the matrix given for one whose shapes do not fit. -/
def multiplyOr (node : NodeReducer) (other a b : Grid) : ReduceM Grid := do
  return (← multiply? node a b).getD other

/-- The product of a matrix with a power of another one, by repeated squaring. The first number
bounds the steps and has to be at least the binary length of the exponent. -/
def powerTimes (node : NodeReducer) : Nat → Nat → Grid → Grid → ReduceM Grid
  | 0, _, product, _ => return product
  | steps + 1, exponent, product, square => do
    if exponent = 0 then
      return product
    else
      let product ←
        if exponent % 2 = 1 then multiplyOr node product product square else pure product
      if exponent / 2 = 0 then
        return product
      else
        powerTimes node steps (exponent / 2) product (← multiplyOr node square square square)

/-- The determinant of a matrix of at least one row, expanded along the first one. The number is
that of the rows. -/
def cofactorDeterminant (node : NodeReducer) : Nat → Grid → ReduceM Expr
  | 0, _ => Reduction.add node []
  | 1, m => return m.entry 0 0
  | count + 2, m => do
    let terms ← (List.range (count + 2)).mapM fun column => do
      let cofactor ← cofactorDeterminant node (count + 1) (m.minor column)
      let term ← Reduction.multiply node [m.entry 0 column, cofactor]
      if column % 2 = 1 then negate node term else return term
    Reduction.add node terms

/-- The inverse of a square matrix. -/
def invert (node : NodeReducer) (m : Grid) : ReduceM Expr := do
  match m.rationals? with
  | some rows =>
    match rationalInverse? rows with
    | some inverse => return (ofRationals inverse).toExpr
    | none => return .undefined
  | none =>
    if m.rows = 1 then
      return (⟨1, 1, [← Reduction.invert node (m.entry 0 0)]⟩ : Grid).toExpr
    else
      return .apply .matrixInverse [m.toExpr]

end Grid

/-! ## Rules -/

/-- The greatest exponent with which a matrix is multiplied out. -/
def maxMatrixExponent : Nat :=
  1024

/-- The greatest number of rows of a determinant that is expanded. -/
def maxExpandedRows : Nat :=
  3

/-- The sum of terms of which some are matrices. All must be, and of one shape. -/
def sumOfMatrices (node : NodeReducer) (terms : List Expr) : ReduceM Expr := do
  match terms.mapM Grid.ofExpr? with
  | some (m :: ms) =>
    if ms.all fun n => n.rows = m.rows && n.columns = m.columns then
      let sum ← Grid.ofComputation m.rows m.columns fun i j =>
        add node ((m :: ms).map fun n => n.entry i j)
      return sum.toExpr
    else
      return .undefined
  | _ => return .undefined

/-- The product of matrices, in order, behind those that have been multiplied. -/
def multiplyInOrder (node : NodeReducer) : Grid → List Grid → ReduceM (Option Grid)
  | product, [] => return some product
  | product, m :: ms => do
    match ← Grid.multiply? node product m with
    | some product => multiplyInOrder node product ms
    | none => return none

/-- The product of factors of which some are matrices: the matrices in order, with each entry
multiplied by the scalars. -/
def productOfMatrices (node : NodeReducer) (factors : List Expr) : ReduceM Expr := do
  let scalars := factors.filter fun x => !x.isMatrix
  match factors.filterMap Grid.ofExpr? with
  | [] => multiply node scalars
  | m :: ms =>
    match ← multiplyInOrder node m ms with
    | none => return .undefined
    | some product =>
      if scalars.isEmpty then
        return product.toExpr
      else
        let entries ← product.entries.mapM fun x => multiply node (scalars ++ [x])
        return { product with entries := entries }.toExpr

/-- The power of a matrix with a whole exponent. -/
def powerOfMatrix (node : NodeReducer) (m : Grid) (n : Int) : ReduceM Expr :=
  if !m.isSquare then
    return .undefined
  else if n = -1 then
    m.invert node
  else if n < 0 || 0x100000000 ≤ n then
    return .undefined
  else if maxMatrixExponent < n then
    return .apply .power [m.toExpr, .integer n]
  else do
    let exponent := n.toNat
    return (← Grid.powerTimes node (exponent + 1) exponent (Grid.identity m.rows) m).toExpr

/-- A function of matrices applied to a scalar, which acts as a matrix of one entry. -/
def matrixFunctionOfScalar (node : NodeReducer) (f : Operator) (x : Expr) : ReduceM Expr :=
  match f with
  | .matrixInverse => invert node x
  | .dimension => return .apply (.matrix 1 2) [.integer 1, .integer 1]
  | _ => return x

/-- The determinant of a square matrix. -/
def determinant (node : NodeReducer) (m : Grid) : ReduceM Expr :=
  match m.rationals? with
  | some rows => return .rational (rationalDeterminant rows)
  | none =>
    if m.rows ≤ maxExpandedRows then
      m.cofactorDeterminant node m.rows
    else
      return .apply .determinant [m.toExpr]

/-- The canonical form of a function of a matrix. -/
def matrixFunction (node : NodeReducer) (f : Operator) (xs : List Expr) : ReduceM Expr :=
  match xs with
  | [x] =>
    match Grid.ofExpr? x with
    | none => matrixFunctionOfScalar node f x
    | some m =>
      match f with
      | .dimension => return .apply (.matrix 1 2) [.integer m.rows, .integer m.columns]
      | .transpose => return m.transpose.toExpr
      | _ =>
        if !m.isSquare then
          return .undefined
        else
          match f with
          | .trace => add node ((List.range m.rows).map fun i => m.entry i i)
          | .matrixInverse => m.invert node
          | .determinant => determinant node m
          | _ => return .undefined
  | _ => return .undefined

end Reduction

end PocketAlgebra

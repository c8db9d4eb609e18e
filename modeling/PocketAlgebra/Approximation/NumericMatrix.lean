import PocketAlgebra.Approximation.ComplexNumber
import PocketAlgebra.Chunks

/-!
# Matrices of complex numbers

Products and powers, and determinants and inverses by elimination. In every column the pivot is an
entry of the greatest magnitude, and the last one of several.
-/

namespace PocketAlgebra

/-- A matrix, row by row. -/
structure NumericMatrix (F : Type) where
  rows : Nat
  columns : Nat
  entries : List (ComplexNumber F)

namespace NumericMatrix

variable {F : Type} [Scalar F]

open ComplexNumber

/-- The matrix with given entries, where there are as many as it takes, and a row at least. -/
def ofEntries? (rows columns : Nat) (entries : List (ComplexNumber F)) :
    Option (NumericMatrix F) :=
  if rows * columns = entries.length && 0 < rows then some ⟨rows, columns, entries⟩ else none

/-- The matrix with given rows. -/
def ofRows (columns : Nat) (rows : List (List (ComplexNumber F))) : NumericMatrix F :=
  ⟨rows.length, columns, rows.flatten⟩

/-- The rows of a matrix. -/
def toRows (m : NumericMatrix F) : List (List (ComplexNumber F)) :=
  chunks m.columns m.entries

/-- The entry at a position. -/
def entry (m : NumericMatrix F) (row column : Nat) : ComplexNumber F :=
  m.entries[row * m.columns + column]?.getD undefined

/-- The matrix with the given entries. -/
def ofFunction (rows columns : Nat) (entry : Nat → Nat → ComplexNumber F) : NumericMatrix F :=
  ⟨rows, columns, (List.range rows).flatMap fun i => (List.range columns).map (entry i)⟩

/-- The identity matrix. -/
def identity (n : Nat) : NumericMatrix F :=
  ofFunction n n fun i j => ofReal (if i = j then Scalar.one else Scalar.zero)

/-- A row of two real numbers. -/
def pair (x y : F) : NumericMatrix F :=
  ⟨1, 2, [ofReal x, ofReal y]⟩

/-- Whether there are as many rows as columns. -/
def isSquare (m : NumericMatrix F) : Bool :=
  m.rows = m.columns

/-- A function of every entry. -/
def map (m : NumericMatrix F) (f : ComplexNumber F → ComplexNumber F) : NumericMatrix F :=
  ⟨m.rows, m.columns, m.entries.map f⟩

/-- The sum of two matrices of one shape. -/
def add? (m n : NumericMatrix F) : Option (NumericMatrix F) :=
  if m.rows = n.rows && m.columns = n.columns then
    some ⟨m.rows, m.columns, List.zipWith plus m.entries n.entries⟩
  else
    none

/-- The transposed matrix. -/
def transpose (m : NumericMatrix F) : NumericMatrix F :=
  ofFunction m.columns m.rows fun i j => m.entry j i

/-- The product of two matrices whose inner dimensions agree. -/
def product (m n : NumericMatrix F) : NumericMatrix F :=
  ofFunction m.rows n.columns fun i j =>
    total ((List.range m.columns).map fun k => times (m.entry i k) (n.entry k j))

/-- The product of two matrices, where there is one. -/
def product? (m n : NumericMatrix F) : Option (NumericMatrix F) :=
  if m.columns = n.rows then some (m.product n) else none

/-- The sum of the diagonal. -/
def trace? (m : NumericMatrix F) : Option (ComplexNumber F) :=
  if m.isSquare then some (total ((List.range m.rows).map fun i => m.entry i i)) else none

/-! ## Elimination -/

/-- Numbers rows by their positions, leaving out those that begin with zero. -/
def candidates (rows : List (List (ComplexNumber F))) : List (Nat × F) :=
  rows.zipIdx.filterMap fun (row, index) =>
    let head := row.headD undefined
    if head.isZero then none else some (index, head.norm)

/-- The position of the row that begins with the greatest number. -/
def pivot? (rows : List (List (ComplexNumber F))) : Option Nat :=
  let better (best next : Nat × F) : Nat × F :=
    if Scalar.less next.2 best.2 then best else next
  match candidates rows with
  | [] => none
  | first :: others => some (others.foldl better first).1

/-- The pivot row, and the others with the first one in its place. -/
def pivotToFront? (rows : List (List (ComplexNumber F))) :
    Option (List (ComplexNumber F) × List (List (ComplexNumber F)) × Bool) :=
  match rows, pivot? rows with
  | first :: others, some 0 => some (first, others, false)
  | first :: others, some (index + 1) =>
    some (others[index]?.getD [], others.set index first, true)
  | _, _ => none

/-- What is left of a row after its multiple of the pivot row has been taken off. -/
def subtract (factor : ComplexNumber F) (pivotRow row : List (ComplexNumber F)) :
    List (ComplexNumber F) :=
  List.zipWith (fun x y => x - factor * y) row.tail pivotRow.tail

/-- A number times the determinant of so many rows. -/
def timesDeterminant : Nat → ComplexNumber F → List (List (ComplexNumber F)) → ComplexNumber F
  | 0, product, _ => product
  | count + 1, product, rows =>
    match pivotToFront? rows with
    | none => ofReal Scalar.zero
    | some (pivotRow, others, exchanged) =>
      let head := pivotRow.headD undefined
      timesDeterminant count (times (if exchanged then -product else product) head)
        (others.map fun row => subtract (row.headD undefined / head) pivotRow row)

/-- The determinant of a square matrix. -/
def determinant? (m : NumericMatrix F) : Option (ComplexNumber F) :=
  if m.isSquare then some (timesDeterminant m.rows (ofReal Scalar.one) m.toRows) else none

/-- A row without its leading entry, after that has been eliminated by a pivot row that begins
with 1. -/
def clear (pivotRow row : List (ComplexNumber F)) : List (ComplexNumber F) :=
  let head := row.headD undefined
  if head.isZero then row.tail else subtract head pivotRow row

/-- Eliminates so many columns: the rows that have not held a pivot yet, and those that have, in
the order of their pivots. -/
def gaussJordan? : Nat → List (List (ComplexNumber F)) → List (List (ComplexNumber F)) →
    Option (List (List (ComplexNumber F)))
  | 0, _, done => some done
  | count + 1, rows, done =>
    match pivotToFront? rows with
    | none => none
    | some (pivotRow, others, _) =>
      let head := pivotRow.headD undefined
      let unitRow := pivotRow.map (· / head)
      gaussJordan? count (others.map (clear unitRow)) (done.map (clear unitRow) ++ [unitRow.tail])

/-- The inverse of a square matrix that is not singular. -/
def inverse? (m : NumericMatrix F) : Option (NumericMatrix F) :=
  if m.isSquare then
    (gaussJordan? m.rows (List.zipWith (· ++ ·) m.toRows (identity m.rows).toRows) []).map
      (ofRows m.columns)
  else
    none

/-! ## Powers -/

/-- A power of a square matrix with a whole exponent. -/
def power? (m : NumericMatrix F) (n : Int) : Option (NumericMatrix F) :=
  if m.isSquare then
    (if n < 0 then m.inverse? else some m).bind fun base =>
      timesPower product (some (identity m.rows)) base (binaryDigits n.natAbs)
  else
    none

end NumericMatrix

end PocketAlgebra

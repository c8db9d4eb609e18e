import PocketAlgebra.Expr.Substitution
import PocketAlgebra.Proofs.Closed.Arithmetic
import PocketAlgebra.Proofs.Expr.Everywhere
import PocketAlgebra.Proofs.Expr.Scope
import PocketAlgebra.Proofs.Reduction.Yields
import PocketAlgebra.Proofs.Shape.Function
import PocketAlgebra.Reduction.Beautify
import PocketAlgebra.Reduction.Matrix

/-!
# Properties that the rules of reduction keep

A property of trees that passes to operands, and holds of each node that some rule builds where it
holds of the operands, is kept by reduction as a whole. This module names the nodes that rules
build.

The form for the user is drawn from numbers and from nodes of a few operators, each over as many
operands as it calls for. All other nodes stay what they are, over operands in the form for the
user.
-/

namespace PocketAlgebra

namespace Reduction

open PocketAlgebra.Expr Shape

/-- A property of trees that passes to operands and holds of what rules put together, apart from the
nodes that they keep. The sides of matrices may be restricted with it. -/
structure Composed (side : Nat → Prop) (P : Expr → Prop) : Prop where
  rational : ∀ q, P (.rational q)
  infinity : ∀ negative, P (.infinity negative)
  /-- There may be no imaginary unit. -/
  constant : ∀ {c}, c ≠ .imaginaryUnit → P (.constant c)
  undefined : P .undefined
  nonreal : P .nonreal
  operand : ∀ {f xs x}, P (.apply f xs) → x ∈ xs → P x
  collected : ∀ {xs : List Expr}, (∀ x ∈ xs, P x) → P (xs.foldl LinearSum.add {}).toExpr
  gathered : ∀ {xs : List Expr} c,
    (∀ x ∈ xs, P x ∧ x.kind ≠ .rational ∧ x.kind ≠ .multiplication) →
      P (assemble .multiplication 1 (orderedFactors c xs))
  /-- A root with as much taken out as there is to be found. -/
  root : ∀ {base exponent : Rat} {r : Radical}, 0 < base → exponent.isInt = false →
    exponent.den < UInt32.size → radical? base exponent = some r → r.radicand ≠ 1 →
      P (.apply .power [.rational r.radicand, .rational (mkRat 1 r.index)])
  surd : ∀ {n : Nat}, n = 2 ∨ n = 3 → P (.apply .power [.integer n, .rational (mkRat 1 2)])
  sides : ∀ {rows columns xs}, P (.apply (.matrix rows columns) xs) → side rows ∧ side columns
  small : side 1 ∧ side 2
  matrix : ∀ {rows columns xs}, side rows → side columns → xs.length = rows * columns →
    (∀ x ∈ xs, P x) → P (.apply (.matrix rows columns) xs)
  /-- Other entries may be put into a matrix. -/
  entries : ∀ {rows columns xs ys}, P (.apply (.matrix rows columns) xs) →
    ys.length = xs.length → (∀ y ∈ ys, P y) → P (.apply (.matrix rows columns) ys)
  inverse : ∀ {m : Grid} {rows inverse}, P m.toExpr → m.isSquare = true →
    m.rationals? = some rows → rationalInverse? rows = some inverse →
    P (Grid.ofRationals inverse).toExpr
  /-- An inverse that is not computed. -/
  reciprocal : ∀ {m : Grid}, P m.toExpr → m.isSquare = true → m.rationals? = none → m.rows ≠ 1 →
    P (.apply .matrixInverse [m.toExpr])

/-- The functions that rules apply to an operand of their own choice. -/
def isApplied (f : Operator) : Bool :=
  f.kind.isTrigonometric || f == .matrixInverse || f == .determinant

/-- A property of trees that the nodes built by rules have, those that they keep included. -/
structure Closed (side : Nat → Prop) (P : Expr → Prop) : Prop where
  rational : ∀ q, P (.rational q)
  infinity : ∀ negative, P (.infinity negative)
  constant : ∀ c, P (.constant c)
  undefined : P .undefined
  nonreal : P .nonreal
  operand : ∀ {f xs x}, P (.apply f xs) → x ∈ xs → P x
  /-- Other operands may be put into a node. -/
  rebuilt : ∀ {f xs ys}, P (.apply f xs) → ys.length = xs.length → (∀ y ∈ ys, P y) →
    P (.apply f ys)
  many : ∀ {f xs}, f = .addition ∨ f = .multiplication → 2 ≤ xs.length → (∀ x ∈ xs, P x) →
    P (.apply f xs)
  prefixed : ∀ {x xs}, P (.apply .multiplication xs) → P x →
    P (.apply .multiplication (x :: xs))
  power : ∀ {x y}, P x → P y → P (.apply .power [x, y])
  logarithm : ∀ {x y}, P x → P y → P (.apply .logarithm [x, y])
  function : ∀ {f x}, isApplied f = true → P x → P (.apply f [x])
  sides : ∀ {rows columns xs}, P (.apply (.matrix rows columns) xs) → side rows ∧ side columns
  small : side 1 ∧ side 2
  matrix : ∀ {rows columns xs}, side rows → side columns → xs.length = rows * columns →
    (∀ x ∈ xs, P x) → P (.apply (.matrix rows columns) xs)
  inverse : ∀ {m : Grid} {rows inverse}, P m.toExpr → m.isSquare = true →
    m.rationals? = some rows → rationalInverse? rows = some inverse →
    P (Grid.ofRationals inverse).toExpr

/-- A reduction of the nodes that rules call for keeps a property. -/
def Keeps (P : Expr → Prop) (node : NodeReducer) : Prop :=
  ∀ f xs, isCalled f = true → (∀ x ∈ xs, P x) → Yields (node (.apply f xs)) P

variable {side : Nat → Prop} {P : Expr → Prop} {node : NodeReducer} {f : Operator} {x y : Expr}
  {xs ys : List Expr}

namespace Composed

theorem integer (hP : Composed side P) (n : Int) : P (.integer n) :=
  hP.rational n

theorem e (hP : Composed side P) : P .e :=
  hP.constant nofun

theorem pi (hP : Composed side P) : P .pi :=
  hP.constant nofun

theorem poison? (hP : Composed side P) (h : Reduction.poison? xs = some x) : P x := by
  rw [Reduction.poison?] at h
  split at h
  · cases h
    exact hP.undefined
  · split at h
    · cases h
      exact hP.nonreal
    · cases h

/-- A rational number before an expression, where one is left out. -/
theorem multiple (hP : Composed side P) (c : Rat) (hx : P x) (hrational : x.kind ≠ .rational)
    (hproduct : x.kind ≠ .multiplication) :
    P (if c = 1 then x else .apply .multiplication [.rational c, x]) := by
  have h := hP.gathered c (List.forall_mem_singleton.mpr ⟨hx, hrational, hproduct⟩)
  rw [orderedFactors] at h
  split at h <;> rename_i hone
  · exact (if_pos hone).symm ▸ h
  · exact (if_neg hone).symm ▸ h

end Composed

namespace Closed

theorem operands (hP : Closed side P) : ClosedOperands P :=
  ⟨hP.rational, fun _ => hP.operand, hP.many, hP.prefixed⟩

theorem composed (hP : Closed side P) : Composed side P where
  rational := hP.rational
  infinity := hP.infinity
  constant _ := hP.constant _
  undefined := hP.undefined
  nonreal := hP.nonreal
  operand := hP.operand
  collected := hP.operands.collected
  gathered := hP.operands.gathered
  root _ _ _ _ _ := hP.power (hP.rational _) (hP.rational _)
  surd _ := hP.power (hP.rational _) (hP.rational _)
  sides := hP.sides
  small := hP.small
  matrix := hP.matrix
  entries := hP.rebuilt
  inverse := hP.inverse
  reciprocal hm _ _ _ := hP.function rfl hm

theorem length_substituteAll (name : String) (value : Expr) (shelters : List Bool)
    (xs : List Expr) : (substituteAll name value shelters xs).length = xs.length := by
  induction xs generalizing shelters with
  | nil => rw [substituteAll]
  | cons x xs ih => rw [substituteAll, List.length_cons, List.length_cons, ih]

theorem substitute {name : String} {value : Expr} (hP : Closed side P) (hvalue : P value) :
    ∀ x, P x → P (Expr.substitute name value x)
  | .symbol other, hx => by
      rw [Expr.substitute]
      split
      · exact hvalue
      · exact hx
  | .apply f xs, hx => by
      rw [Expr.substitute]
      refine hP.rebuilt hx (length_substituteAll ..) fun y hy => ?_
      rcases mem_substituteAll hy with ⟨z, hz, rfl | rfl⟩
      · exact hP.operand hx hz
      · exact hP.substitute hvalue z (hP.operand hx hz)
  | .rational _, hx => hx
  | .decimal _, hx => hx
  | .infinity _, hx => hx
  | .constant _, hx => hx
termination_by x => x.size
decreasing_by exact size_lt_of_mem hz

end Closed

/-! ## Properties of nodes -/

/-- The operators of nodes that rules build over any operands. -/
def isBuilt (f : Operator) : Bool :=
  f == .addition || f == .multiplication || f == .logarithm || isApplied f || f.kind == .matrix

/-- What is asked of each node by itself, and depends on no more than its operator and the number of
its operands, is kept where the nodes that rules build are as they should be. -/
theorem closed_everywhere {N : Expr → Prop} (hliteral : ∀ {x : Expr}, x.isLiteral = true → N x)
    (hpoison : ∀ {f : Operator}, f.kind.isPoison = true → N (.apply f []))
    (hlength : ∀ {f xs ys}, N (.apply f xs) → ys.length = xs.length → N (.apply f ys))
    (hbuilt : ∀ {f xs}, isBuilt f = true → N (.apply f xs))
    (hpower : ∀ {x y}, N (.apply .power [x, y])) : Closed (fun _ => True) (Everywhere N) where
  rational q := (everywhere_leaf rfl).mpr (hliteral rfl)
  infinity negative := (everywhere_leaf rfl).mpr (hliteral rfl)
  constant c := (everywhere_leaf rfl).mpr (hliteral rfl)
  undefined := (everywhere_leaf rfl).mpr (hpoison rfl)
  nonreal := (everywhere_leaf rfl).mpr (hpoison rfl)
  operand h hx := h.operand hx
  rebuilt h hys hall := everywhere_apply.mpr ⟨hlength h.here hys, hall⟩
  many hf _ hxs := everywhere_apply.mpr ⟨hbuilt (by rcases hf with rfl | rfl <;> rfl), hxs⟩
  prefixed h hx := everywhere_apply.mpr ⟨hbuilt rfl, List.forall_mem_cons.mpr
    ⟨hx, fun _ hy => h.operand hy⟩⟩
  power hx hy := everywhere_apply.mpr ⟨hpower, List.forall_mem_cons.mpr
    ⟨hx, List.forall_mem_singleton.mpr hy⟩⟩
  logarithm hx hy := everywhere_apply.mpr ⟨hbuilt rfl, List.forall_mem_cons.mpr
    ⟨hx, List.forall_mem_singleton.mpr hy⟩⟩
  function hf hx := everywhere_apply.mpr ⟨hbuilt (by simp [isBuilt, hf]),
    List.forall_mem_singleton.mpr hx⟩
  sides _ := ⟨trivial, trivial⟩
  small := ⟨trivial, trivial⟩
  matrix _ _ _ hxs := everywhere_apply.mpr ⟨hbuilt rfl, hxs⟩
  inverse _ _ _ _ := everywhere_apply.mpr ⟨hbuilt rfl, fun x hx => by
    rcases List.mem_map.mp hx with ⟨q, _, rfl⟩
    exact (everywhere_leaf rfl).mpr (hliteral rfl)⟩

/-! ## What rules rely on -/

namespace Keeps

theorem add (hnode : Keeps P node) (hxs : ∀ x ∈ xs, P x) : Yields (Reduction.add node xs) P :=
  hnode .addition xs rfl hxs

theorem multiply (hnode : Keeps P node) (hxs : ∀ x ∈ xs, P x) :
    Yields (Reduction.multiply node xs) P :=
  hnode .multiplication xs rfl hxs

theorem power (hnode : Keeps P node) (hx : P x) (hy : P y) :
    Yields (Reduction.power node x y) P :=
  hnode .power [x, y] rfl (by simp [hx, hy])

theorem negate (hnode : Keeps P node) (hP : Composed side P) (hx : P x) :
    Yields (Reduction.negate node x) P :=
  hnode.multiply (by simp [hx, hP.integer (-1)])

theorem invert (hnode : Keeps P node) (hP : Composed side P) (hx : P x) :
    Yields (Reduction.invert node x) P :=
  hnode.power hx (hP.integer (-1))

end Keeps

/-! ## Arithmetic -/

/-- Exponents need not be told apart from other trees. -/
theorem Composed.arithmetic (hP : Composed side P) : ClosedArithmetic P P where
  rational := hP.rational
  undefined := hP.undefined
  infinity other _ := hP.infinity other
  operand _ h hx := hP.operand h hx
  collected := hP.collected
  gathered := hP.gathered
  exponent n := hP.integer n
  parts h := ⟨hP.operand h (by simp), hP.operand h (by simp)⟩

theorem Keeps.arithmetic (hnode : Keeps P node) : KeepsArithmetic P P node where
  add hxs := hnode.add hxs
  multiply hxs := hnode.multiply hxs
  power hx hy := hnode.power hx hy
  addExponents hxs := hnode.add hxs
  multiplyExponents hxs := hnode.multiply hxs

end Reduction

/-! ## The form for the user -/

namespace Reduction

open PocketAlgebra.Expr

/-- Whether the form for the user is drawn from nodes with an operator and so many operands. -/
def isDrawn : Operator → Nat → Bool
  | .undefined, 0 => true
  | .opposite, 1 | .squareRoot, 1 | .naturalLogarithm, 1 | .commonLogarithm, 1 => true
  | .addition, 2 | .subtraction, 2 | .division, 2 => true
  | .power, 2 | .nthRoot, 2 | .logarithm, 2 => true
  | .multiplication, _ + 2 => true
  | _, _ => false

/-- A property of trees that numbers have, and nodes that are drawn have if their operands do. -/
structure Drawn (P : Expr → Prop) : Prop where
  rational : ∀ q, P (.rational q)
  infinity : ∀ negative, P (.infinity negative)
  apply : ∀ {f xs}, isDrawn f xs.length = true → (∀ x ∈ xs, P x) → P (.apply f xs)

/-- What a face shows has a property. -/
def Face.Satisfies (P : Expr → Prop) : Face → Prop
  | whole x => P x
  | reciprocal d => P d

variable {P : Expr → Prop} {f : Operator} {x y : Expr} {s : Shown} {xs : List Expr}
  {operands : List (Expr × Shown)} {q : Rat}

namespace Drawn

theorem two (hP : Drawn P) (hf : isDrawn f 2 = true) (hx : P x) (hy : P y) :
    P (.apply f [x, y]) :=
  hP.apply hf (forall_mem_pair hx hy)

theorem one (hP : Drawn P) (hf : isDrawn f 1 = true) (hx : P x) : P (.apply f [x]) :=
  hP.apply hf (List.forall_mem_singleton.mpr hx)

theorem undefined (hP : Drawn P) : P .undefined :=
  hP.apply rfl (List.forall_mem_nil _)

/-! ## Signs and fractions -/

theorem toExpr (hP : Drawn P) {face : Face} (h : face.Satisfies P) : P face.toExpr := by
  cases face with
  | whole x => exact h
  | reciprocal d => exact hP.two rfl (hP.rational 1) h

theorem signed (hP : Drawn P) (hs : s.face.Satisfies P) : P s.toExpr := by
  rw [Shown.toExpr]
  split
  · exact hP.one rfl (hP.toExpr hs)
  · exact hP.toExpr hs

theorem standalone (hP : Drawn P) (hx : P x) (hs : s.face.Satisfies P) :
    P (Reduction.standalone x s) := by
  rw [Reduction.standalone]
  split
  · exact hx
  · exact hP.signed hs

/-! ## Operators that are shown in their own way -/

theorem rootOrPower (hP : Drawn P) (hx : P x) : P (Reduction.rootOrPower x q) := by
  have hpower : P (.apply .power [x, .rational q]) := hP.two rfl hx (hP.rational q)
  rw [Reduction.rootOrPower]
  split
  · split
    · exact hP.one rfl hx
    · split
      · exact hP.two rfl hx (hP.rational _)
      · exact hpower
  · exact hpower

theorem showPower (hP : Drawn P) (hx : P x) : (Reduction.showPower x q).Satisfies P := by
  rw [Reduction.showPower]
  split
  · split
    · exact hx
    · exact hP.rootOrPower hx
  · exact hP.rootOrPower hx

theorem shownProduct (hP : Drawn P) (hxs : ∀ x ∈ xs, P x) : P (Reduction.shownProduct xs) := by
  match xs with
  | [] => exact hP.rational _
  | [x] => exact hxs x List.mem_cons_self
  | x :: y :: xs => exact hP.apply rfl hxs

theorem showProduct (hP : Drawn P) {faces : List Face}
    (hfaces : ∀ face ∈ faces, face.Satisfies P) : P (Reduction.showProduct q faces) := by
  have hparts : ∀ part : Face → Option Expr,
      (∀ face x, part face = some x → face.Satisfies P → P x) →
      ∀ x ∈ faces.filterMap part, P x := by
    intro part hpart x hx
    rcases List.mem_filterMap.mp hx with ⟨face, hface, hx⟩
    exact hpart face x hx (hfaces face hface)
  have hnumerators : ∀ x ∈ faces.filterMap Face.numerator?, P x :=
    hparts _ fun face x hx hface => by cases face <;> cases hx; exact hface
  have hdenominators : ∀ x ∈ faces.filterMap Face.denominator?, P x :=
    hparts _ fun face x hx hface => by cases face <;> cases hx; exact hface
  have hinteger : ∀ (p : Prop) [Decidable p] (n : Int),
      ∀ x ∈ if p then [] else [Expr.integer n], P x := by
    intro p _ n
    split
    · exact List.forall_mem_nil _
    · exact List.forall_mem_singleton.mpr (hP.rational _)
  have hnumerator := hP.shownProduct
    (List.forall_mem_append.mpr ⟨hinteger (q.num = 1) q.num, hnumerators⟩)
  have hdenominator := hP.shownProduct
    (List.forall_mem_append.mpr ⟨hinteger (q.den = 1) q.den, hdenominators⟩)
  simp only [Reduction.showProduct]
  split
  · exact hnumerator
  · exact hP.two rfl hnumerator hdenominator

theorem showSum (hP : Drawn P) {terms : List Shown} (hterms : ∀ t ∈ terms, t.face.Satisfies P) :
    P (Reduction.showSum terms) := by
  cases terms with
  | nil => exact hP.rational _
  | cons term terms =>
      rcases List.forall_mem_cons.mp hterms with ⟨hterm, hothers⟩
      clear hterms
      have hfirst := hP.signed hterm
      rw [Reduction.showSum]
      generalize term.toExpr = total at hfirst
      induction terms generalizing total with
      | nil => exact hfirst
      | cons t terms ih =>
          rcases List.forall_mem_cons.mp hothers with ⟨ht, hothers⟩
          refine ih hothers _ (hP.two ?_ hfirst (hP.toExpr ht))
          split <;> rfl

theorem showLogarithm (hP : Drawn P) (base : Expr) (hx : P x) (hy : P y) :
    P (Reduction.showLogarithm base x y) := by
  rw [Reduction.showLogarithm]
  split
  · exact hP.one rfl hx
  · split
    · exact hP.one rfl hx
    · exact hP.two rfl hx hy

/-! ## Trees -/

/-- The shown form of a node, if the node of its operands in the form for the user is as it should
be. -/
theorem showApply (hP : Drawn P) (hoperands : ∀ p ∈ operands, P p.1 ∧ p.2.face.Satisfies P)
    (hother : (∀ x ∈ operands.map fun p => Reduction.standalone p.1 p.2, P x) →
      P (.apply f (operands.map fun p => Reduction.standalone p.1 p.2))) :
    (Reduction.showApply f operands).face.Satisfies P := by
  have htexts : ∀ x ∈ operands.map fun p => Reduction.standalone p.1 p.2, P x := by
    intro x hx
    rcases List.mem_map.mp hx with ⟨p, hp, rfl⟩
    exact hP.standalone (hoperands p hp).1 (hoperands p hp).2
  have hfactors : ∀ factors : List (Expr × Shown), factors ⊆ operands →
      ∀ face ∈ factors.map factorFace, face.Satisfies P := by
    intro factors hfactors face hface
    rcases List.mem_map.mp hface with ⟨p, hp, rfl⟩
    have hp := hoperands p (hfactors hp)
    rw [factorFace]
    split
    · exact hp.2
    · exact hP.standalone hp.1 hp.2
  cases f with
  | addition =>
      refine hP.showSum fun t ht => ?_
      rcases List.mem_map.mp ht with ⟨p, hp, rfl⟩
      rw [List.mem_append, List.mem_filter, List.mem_filter] at hp
      exact (hoperands p (hp.elim And.left And.left)).2
  | multiplication =>
      unfold Reduction.showApply
      dsimp only
      split
      · rename_i factors
        exact hP.showProduct (hfactors factors (List.subset_cons_self _ _))
      · exact hP.showProduct (hfactors operands (List.Subset.refl _))
  | power =>
      simp only [Reduction.showApply]
      split
      · rename_i q t base texts hbase
        exact hP.showPower (htexts base (by rw [hbase]; exact List.mem_cons_self))
      · exact hother htexts
      · exact hP.undefined
  | logarithm =>
      simp only [Reduction.showApply]
      split
      · rename_i base t argument shownBase hboth
        exact hP.showLogarithm base (htexts argument (by rw [hboth]; simp))
          (htexts shownBase (by rw [hboth]; simp))
      · exact hP.undefined
  | _ => exact hother htexts

theorem literal (hP : Drawn P) (hliteral : x.isLiteral = true) (hx : P x) :
    (Reduction.shown x).face.Satisfies P := by
  cases x with
  | symbol | apply => cases hliteral
  | rational q => exact hP.rational _
  | infinity negative => exact hP.infinity _
  | decimal d => exact hx
  | constant c => exact hx

/-- A property that passes to operands, and stays when other operands are put into a node, holds in
shown forms as well. -/
theorem shown (hP : Drawn P) (hoperand : ∀ {f xs x}, P (.apply f xs) → x ∈ xs → P x)
    (hrebuilt : ∀ {f xs ys}, P (.apply f xs) → ys.length = xs.length → (∀ y ∈ ys, P y) →
      P (.apply f ys)) (x : Expr) (hx : P x) : (Reduction.shown x).face.Satisfies P := by
  match x with
  | .symbol name => exact hx
  | .apply f xs =>
      rw [Reduction.shown, shownAll_eq_map]
      refine hP.showApply (fun p hp => ?_) (hrebuilt hx (by simp))
      rcases List.mem_map.mp hp with ⟨y, hy, rfl⟩
      exact ⟨hoperand hx hy, hP.shown hoperand hrebuilt y (hoperand hx hy)⟩
  | .rational _ | .decimal _ | .infinity _ | .constant _ => exact hP.literal rfl hx
termination_by x.size
decreasing_by exact size_lt_of_mem hy

/-- The form for the user keeps such a property. -/
theorem beautify (hP : Drawn P) (hoperand : ∀ {f xs x}, P (.apply f xs) → x ∈ xs → P x)
    (hrebuilt : ∀ {f xs ys}, P (.apply f xs) → ys.length = xs.length → (∀ y ∈ ys, P y) →
      P (.apply f ys)) (hx : P x) : P (Reduction.beautify x) :=
  hP.standalone hx (hP.shown hoperand hrebuilt x hx)

end Drawn

end Reduction

end PocketAlgebra

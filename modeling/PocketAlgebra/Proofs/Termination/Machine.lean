import PocketAlgebra.Approximation.Engine

/-!
# Approximation with stacks

An approximation may keep the values of bound variables and the names that are being expanded on two
stacks, which it pushes to before a call and pops from after it. Where it is interrupted it does not
end at once: it remembers this, asks the breaker no more, and lets results without a value pass
through to the outermost call.

A call is for a whole tree, or for what is left of a series or an integral. `run` limits how deep
calls are nested, and checks each call that is made against the call that makes it: a definition is
expanded under one more name, or else there is less to do.
-/

namespace PocketAlgebra

namespace Approximation

open Scalar

variable {F : Type} [Scalar F]

/-! ## The stacks -/

/-- What an approximation keeps from one call to the next. -/
structure Machine (F : Type) where
  bindings : List (String × ComplexNumber F)
  expanding : List String
  interrupted : Bool
  breaker : Breaker

/-- Steps of a machine. They have no result where calls are nested too deep. -/
abbrev MachineM (F : Type) :=
  StateT (Machine F) Option

namespace Machine

variable {α : Type}

omit [Scalar F] in
/-- Asks the breaker, unless it has told to stop already. -/
def poll : MachineM F Bool := do
  let s ← get
  if s.interrupted then
    return true
  else
    let (stop, breaker) := s.breaker.poll
    set { s with interrupted := stop, breaker := breaker }
    return stop

/-- Carries out steps with a variable bound to a value. -/
def withBinding (name : String) (value : ComplexNumber F) (m : MachineM F α) : MachineM F α := do
  modify fun s => { s with bindings := (name, value) :: s.bindings }
  let result ← m
  modify fun s => { s with bindings := s.bindings.tail }
  return result

/-- Carries out steps while a name is being expanded. -/
def withName (name : String) (m : MachineM F α) : MachineM F α := do
  modify fun s => { s with expanding := name :: s.expanding }
  let result ← m
  modify fun s => { s with expanding := s.expanding.tail }
  return result

/-! ## Calls -/

/-- How far an approximation of a tree has come: it is to begin, or some terms of a series or some
halvings of an interval are left. -/
inductive Stage (F : Type) where
  | whole
  | terms (lower : F) (remaining step : Nat) (partialResult : Option (Evaluation F))
  | halving (halvings : Nat) (tolerance : F) (segment : Segment F)

/-- A tree and a stage of its approximation. -/
structure Call (F : Type) where
  tree : Expr
  stage : Stage F

section Operators

variable (call : Expr → MachineM F (Evaluation F))

/-- The number that a tree is approximated by. -/
def complex (x : Expr) : MachineM F (ComplexNumber F) :=
  Evaluation.toComplex <$> call x

/-- The finite real number that a tree is approximated by. -/
def real? (x : Expr) : MachineM F (Option F) := do
  let z ← complex call x
  return if z.isReal && Scalar.isFinite z.re then some z.re else none

/-- The number that a tree is approximated by where a variable has some value. -/
def sample (name : String) (body : Expr) (value : F) : MachineM F (ComplexNumber F) :=
  withBinding name (.ofReal value) (complex call body)

/-- A symbol. -/
def symbol (ctx : Context) (name : String) : MachineM F (Evaluation F) := do
  let s ← get
  match s.bindings.lookup name with
  | some value => return .scalar value
  | none =>
    if s.expanding.contains name then
      return .undefined
    else
      match ctx.definitions.value? name with
      | some body => withName name (call body)
      | none => return .undefined

/-- A call of a defined function. -/
def userFunction (ctx : Context) (name : String) (xs : List Expr) : MachineM F (Evaluation F) := do
  match xs with
  | [] => return .undefined
  | x :: _ =>
    let argument ← complex call x
    let s ← get
    if s.expanding.contains name then
      return .undefined
    else
      match ctx.definitions.function? name with
      | some (parameter, body) => withName name (withBinding parameter argument (call body))
      | none => return .undefined

/-- Approximates operands in order, as long as the results are of the kind that is asked for. -/
def collect? {α : Type} (read : Evaluation F → Option α) : List Expr → MachineM F (Option (List α))
  | [] => return some []
  | x :: xs => do
    match read (← call x) with
    | some value => return (← collect? read xs).map (value :: ·)
    | none => return none

/-- Operands that are collected, and combined where all of them are of the kind that is asked
for. -/
def ofCollected {α : Type} (read : Evaluation F → Option α) (g : List α → Evaluation F)
    (xs : List Expr) : MachineM F (Evaluation F) := do
  match ← collect? call read xs with
  | some values => return g values
  | none => return .undefined

/-- The first operand, which some function is applied to. A missing one is undefined. -/
def ofFirst (g : Evaluation F → Evaluation F) (xs : List Expr) : MachineM F (Evaluation F) := do
  match xs with
  | x :: _ => return g (← call x)
  | [] => return g .undefined

/-- The first two operands, which some function is applied to. -/
def ofTwo (g : Evaluation F → Evaluation F → Evaluation F) (xs : List Expr) :
    MachineM F (Evaluation F) := do
  match xs with
  | x :: y :: _ =>
    let left ← call x
    let right ← call y
    return g left right
  | _ => return .undefined

/-- All operands, combined from the left. -/
def ofAll (g : Evaluation F → Evaluation F → Evaluation F) (xs : List Expr) :
    MachineM F (Evaluation F) := do
  match ← xs.mapM call with
  | [] => return .undefined
  | value :: values => return values.foldl g value

/-- A function of numbers. -/
def ofNumbers (format : Format) (f : Operator) (xs : List Expr) : MachineM F (Evaluation F) := do
  return .scalar (applyFunction format f (← xs.mapM (complex call)))

/-- A power. -/
def powerOperator (format : ComplexFormat) (xs : List Expr) : MachineM F (Evaluation F) := do
  match xs with
  | x :: y :: _ =>
    let base ← call x
    let exponent ← complex call y
    return powerOf format y base exponent
  | _ => return .undefined

/-! ## Series, integrals and derivatives -/

variable (goOn : Stage F → MachineM F (Evaluation F))

/-- A series. Its first term is the first of its stages. -/
def series (f : Operator) (lower upper : F) : MachineM F (Evaluation F) :=
  if less upper lower then
    return .real (if f = .sum then zero else one)
  else
    match termCount? lower upper with
    | some count => goOn (.terms lower count 0 none)
    | none => return .undefined

/-- What combines the terms of a series. -/
def combination (f : Operator) : Evaluation F → Evaluation F → Evaluation F :=
  if f = .sum then .add else .multiply

/-- The terms of a series that are left. -/
def terms (f : Operator) (name : String) (body : Expr) (lower : F) (remaining step : Nat)
    (partialResult : Option (Evaluation F)) : MachineM F (Evaluation F) := do
  match remaining with
  | 0 => return partialResult.getD .undefined
  | remaining + 1 =>
    if ← poll then
      return .undefined
    else
      let value ← withBinding name (.ofReal (lower + ofInt step)) (call body)
      let next := match partialResult with
        | none => value
        | some result => combination f result value
      if next.isUndefined then
        return next
      else
        goOn (.terms lower remaining (step + 1) (some next))

/-- The integral over a segment, within a tolerance as far as so many halvings allow. -/
def halving (name : String) (body : Expr) (halvings : Nat) (tolerance : F) (s : Segment F) :
    MachineM F (Evaluation F) := do
  let middle := (s.start + s.stop) / two
  let first ← sample call name body ((s.start + middle) / two)
  let second ← sample call name body ((middle + s.stop) / two)
  if (← get).interrupted then
    return .undefined
  else if first.isUndefined || second.isUndefined then
    return .undefined
  else
    let left := Segment.make s.start middle s.atStart first s.atMiddle
    let right := Segment.make middle s.stop s.atMiddle second s.atStop
    let change := left.estimate + right.estimate - s.estimate
    let accepted := left.estimate + right.estimate + change.unscale (ofInt 15)
    match halvings with
    | 0 => return .scalar accepted
    | halvings + 1 =>
      if atMost change.norm (ofInt 15 * tolerance) then
        return .scalar accepted
      else
        let leftIntegral ← goOn (.halving halvings (tolerance / two) left)
        let rightIntegral ← goOn (.halving halvings (tolerance / two) right)
        return .scalar (leftIntegral.toComplex + rightIntegral.toComplex)

/-- The integral between two bounds. -/
def integral (name : String) (body : Expr) (lower upper : F) : MachineM F (Evaluation F) := do
  if equal lower upper then
    return .real zero
  else
    let start := if less lower upper then lower else upper
    let stop := if less lower upper then upper else lower
    let atStart ← sample call name body start
    let atMiddle ← sample call name body ((start + stop) / two)
    let atStop ← sample call name body stop
    if atStart.isUndefined || atMiddle.isUndefined || atStop.isUndefined then
      return .undefined
    else
      let segment := Segment.make start stop atStart atMiddle atStop
      let value ← goOn (.halving maxHalvings (integralTolerance segment.estimate) segment)
      return .scalar (if less lower upper then value.toComplex else -value.toComplex)

/-- The slope of the line through two points on either side. -/
def centralDifference (name : String) (body : Expr) (x width : F) :
    MachineM F (ComplexNumber F) := do
  let forward ← sample call name body (x + width)
  let backward ← sample call name body (x - width)
  return (forward - backward).unscale (two * width)

/-- The derivative at a point. -/
def derivative (name : String) (body : Expr) (x : F) : MachineM F (Evaluation F) := do
  let width := differenceWidth x
  let coarse ← centralDifference call name body x width
  let fine ← centralDifference call name body x (width / two)
  return .scalar ((fine.scale (ofInt 4) - coarse).unscale (ofInt 3))

/-- A function that binds a variable between two bounds. -/
def betweenBounds (g : String → Expr → F → F → MachineM F (Evaluation F)) (xs : List Expr) :
    MachineM F (Evaluation F) := do
  match xs with
  | [body, .symbol name, lower, upper] =>
    let start ← real? call lower
    let stop ← real? call upper
    match start, stop with
    | some a, some b => g name body a b
    | _, _ => return .undefined
  | _ => return .undefined

/-- A derivative at a point. -/
def derivativeOperator (xs : List Expr) : MachineM F (Evaluation F) := do
  match xs with
  | [body, .symbol name, point] =>
    match ← real? call point with
    | some x => derivative call name body x
    | none => return .undefined
  | _ => return .undefined

/-! ## All calls -/

/-- An operator over operands. -/
def apply (ctx : Context) (f : Operator) (xs : List Expr) : MachineM F (Evaluation F) :=
  match f with
  | .undefined | .nonreal | .comparison _ => return .undefined
  | .function name => userFunction call ctx name xs
  | .parenthesis | .store => ofFirst call id xs
  | .matrix rows columns => ofCollected call Evaluation.complex?
      (fun zs => .ofMatrix? (NumericMatrix.ofEntries? rows columns zs)) xs
  | .list => ofCollected call Evaluation.complex? .list xs
  | .addition => ofAll call .add xs
  | .multiplication => ofAll call .multiply xs
  | .subtraction => ofTwo call .subtract xs
  | .division => ofTwo call .divide xs
  | .opposite => ofFirst call .negate xs
  | .power => powerOperator call ctx.format.complexFormat xs
  | .determinant | .matrixInverse | .trace | .transpose | .dimension =>
    ofFirst call (matrixFunction f) xs
  | .listSum | .listMean => ofCollected call Evaluation.list?
      (fun lists => .scalar (listFunction f lists)) xs
  | .derivative => derivativeOperator call xs
  | .integral => betweenBounds call (integral call goOn) xs
  | .sum | .product => betweenBounds call (fun _ _ => series goOn f) xs
  | _ => ofNumbers call ctx.format f xs

/-- The topmost node of a tree. -/
def node (ctx : Context) : Expr → MachineM F (Evaluation F)
  | .rational q => return .real (Scalar.ofRat q)
  | .decimal d => return .real (Scalar.ofDecimal d)
  | .infinity negative => return .real (ofInfinity negative)
  | .constant c => return .scalar (ofConstant c)
  | .symbol name => symbol call ctx name
  | .apply f xs => apply call goOn ctx f xs

end Operators

/-- What is done in a call, apart from the calls that it makes. -/
def activation (ctx : Context) (call : Call F → MachineM F (Evaluation F)) :
    Call F → MachineM F (Evaluation F)
  | ⟨x, .whole⟩ => do
    if ← poll then
      return .undefined
    else
      node (fun y => call ⟨y, .whole⟩) (fun stage => call ⟨x, stage⟩) ctx x
  | ⟨.apply f [body, .symbol name, lower, upper], .terms a remaining step partialResult⟩ =>
    terms (fun y => call ⟨y, .whole⟩)
      (fun stage => call ⟨.apply f [body, .symbol name, lower, upper], stage⟩) f name body a
      remaining step partialResult
  | ⟨.apply f [body, .symbol name, lower, upper], .halving halvings tolerance segment⟩ =>
    halving (fun y => call ⟨y, .whole⟩)
      (fun stage => call ⟨.apply f [body, .symbol name, lower, upper], stage⟩) name body halvings
      tolerance segment
  | _ => return .undefined

/-! ## Nested calls -/

/-- A stage of the approximation of a tree may be followed by another one: by terms that come later,
up to the limit, or by fewer halvings. -/
inductive Stage.Follows : Stage F → Stage F → Prop
  | firstTerm {lower partialResult} {remaining : Nat} : (remaining : Int) ≤ maxSeriesTerms →
      Follows (.terms lower remaining 0 partialResult) .whole
  | nextTerm {lower result result'} {remaining remaining' step step' : Nat} : step < step' →
      ((step' + remaining' : Nat) : Int) ≤ maxSeriesTerms →
      Follows (.terms lower remaining' step' result') (.terms lower remaining step result)
  | firstHalving {halvings tolerance segment} : halvings ≤ maxHalvings →
      Follows (.halving halvings tolerance segment) .whole
  | nextHalving {halvings halvings' tolerance tolerance' segment segment'} : halvings' < halvings →
      Follows (.halving halvings' tolerance' segment') (.halving halvings tolerance segment)

/-- The names that are being expanded are all different, and defined. -/
structure Expanding (ds : Definitions) (names : List String) : Prop where
  nodup : names.Nodup
  defined : ∀ name ∈ names, (ds.get? name).isSome = true

/-- A call may be made by another one, with these names being expanded. -/
inductive Admits (ds : Definitions) : List String → Call F → List String → Call F → Prop
  | smaller {names x y stage} : y.size < x.size →
      Admits ds names ⟨x, stage⟩ names ⟨y, .whole⟩
  | later {names x stage stage'} : stage'.Follows stage →
      Admits ds names ⟨x, stage⟩ names ⟨x, stage'⟩
  | expansion {names call name d} : ds.get? name = some d → name ∉ names →
      Admits ds names call (name :: names) ⟨d.body, .whole⟩

/-- What is done with calls that are refused. -/
abbrev Refusal (F : Type) :=
  (Call F → MachineM F (Evaluation F)) → Call F → MachineM F (Evaluation F)

open Classical in
/-- A nested call, which is made where it is admitted and the names that are being expanded are as
they should be. Otherwise it is refused; what this comes to is left open. -/
noncomputable def guarded (ds : Definitions) (refuse : Refusal F) (names : List String)
    (caller : Call F) (make : Call F → MachineM F (Evaluation F)) (call : Call F) :
    MachineM F (Evaluation F) := do
  let s ← get
  if Expanding ds s.expanding ∧ Admits ds names caller s.expanding call then
    make call
  else
    refuse make call

/-- Carries out a call by calls that are nested at most so deep. -/
noncomputable def run (ctx : Context) (refuse : Refusal F) :
    Nat → Call F → MachineM F (Evaluation F)
  | 0, _ => failure
  | nesting + 1, call => do
    let s ← get
    activation ctx (guarded ctx.definitions refuse s.expanding call (run ctx refuse nesting)) call

end Machine

end Approximation

end PocketAlgebra

import PocketAlgebra.Proofs.Closed.Power
import PocketAlgebra.Reduction.ComplexPart
import PocketAlgebra.Reduction.Derivative
import PocketAlgebra.Reduction.Integer
import PocketAlgebra.Reduction.ListFunction

/-!
# Functions and derivatives keep properties

Functions are kept over their own operand or over reduced ones, and derivatives are built from
operands through reduced nodes.
-/

namespace PocketAlgebra

namespace Reduction

open PocketAlgebra.Expr Shape

variable {side : Nat → Prop} {P : Expr → Prop} {node : NodeReducer} {ctx : Context}
  {f : Operator} {x y : Expr} {xs ys : List Expr}

namespace Composed

/-! ## Circular and hyperbolic functions -/

theorem angle (hP : Composed side P) (hnode : Keeps P node) (q : Rat) :
    Yields (Reduction.angle ctx node q) P := by
  rw [Reduction.angle]
  split
  · exact Yields.pure (hP.rational _)
  · exact hnode.multiply (forall_mem_pair (hP.rational q) hP.pi)

theorem radicand_of_sines {s : Surd} {t : Rat} (h : sines.lookup t = some s) :
    s.radicand = 1 ∨ s.radicand = 2 ∨ s.radicand = 3 := by
  have hall : ∀ entry ∈ sines,
      entry.2.radicand = 1 ∨ entry.2.radicand = 2 ∨ entry.2.radicand = 3 := by
    decide
  rcases List.lookup_eq_some_iff.mp h with ⟨before, behind, hentries, _⟩
  exact hall (t, s) (by simp [hentries])

theorem radicand_of_exactSine? {s : Surd} {turns : Rat} (h : exactSine? turns = some s) :
    s.radicand = 1 ∨ s.radicand = 2 ∨ s.radicand = 3 := by
  rcases Option.map_eq_some_iff.mp h with ⟨value, hvalue, rfl⟩
  have hradicand := radicand_of_sines hvalue
  split
  · exact hradicand
  · exact hradicand

theorem surd_exactSine? (hP : Composed side P) {s : Surd} {turns : Rat}
    (h : exactSine? turns = some s) : P s.toExpr := by
  rw [Surd.toExpr]
  split
  · exact hP.rational _
  · rename_i hrational
    rcases radicand_of_exactSine? h with hone | hroot
    · simp [hone] at hrational
    · exact hP.multiple _ (hP.surd hroot) Kind.noConfusion Kind.noConfusion

theorem exactTangent? (hP : Composed side P) (hnode : Keeps P node) {turns : Rat}
    {m : ReduceM Expr} (h : Reduction.exactTangent? node turns = some m) : Yields m P := by
  rw [Reduction.exactTangent?.eq_def] at h
  split at h
  · rename_i sine cosine hsine hcosine
    have hsine := hP.surd_exactSine? hsine
    have hcosine := hP.surd_exactSine? hcosine
    split at h
    · cases h
      exact Yields.pure hP.undefined
    · cases h
      exact (hnode.invert hP hcosine).bind fun z hz => hnode.multiply (forall_mem_pair hsine hz)
  · cases h

theorem exactCircular? (hP : Composed side P) (hnode : Keeps P node) {turns : Rat}
    {m : ReduceM Expr} (h : Reduction.exactCircular? node f turns = some m) : Yields m P := by
  have htable : ∀ {t : Rat},
      (exactSine? t).map (fun s => (pure s.toExpr : ReduceM Expr)) = some m → Yields m P := by
    intro t h
    rcases Option.map_eq_some_iff.mp h with ⟨value, hvalue, rfl⟩
    exact Yields.pure (hP.surd_exactSine? hvalue)
  cases f with
  | sine => exact htable h
  | cosine => exact htable h
  | _ => exact hP.exactTangent? hnode h

theorem foldSign (hP : Composed side P) (hnode : Keeps P node) (hf : f.kind.isTrigonometric = true)
    (hx : P x) : Yields (Reduction.foldSign node f x) (OrKept P (.apply f [x])) := by
  have hcalled : isCalled f = true := by
    cases f <;> first | exact hf | rfl
  rw [Reduction.foldSign]
  split
  · refine (hnode.negate hP hx).bind fun y hy => ?_
    refine (hnode f [y] hcalled (List.forall_mem_singleton.mpr hy)).bind fun z hz => ?_
    split
    · exact (hnode.negate hP hz).orKept
    · exact Yields.pure (.inr hz)
  · exact Yields.kept P _

/-- Looking up a table only asks the breaker. -/
theorem tabulatedHalfTurns?_bind {Q : Expr → Prop} (table : List (Rat × Surd))
    {k : Option Rat → ReduceM Expr} (hk : ∀ turns, Yields (k turns) Q) :
    Yields (tabulatedHalfTurns? node table x >>= k) Q :=
  Yields.bind (P := fun _ => True) (fun _ _ _ _ => trivial) fun turns _ => hk turns

theorem circular (hP : Composed side P) (hnode : Keeps P node) (hf : f.kind.isTrigonometric = true)
    (hx : P x) : Yields (Reduction.circular ctx node f x) (OrKept P (.apply f [x])) := by
  rw [Reduction.circular]
  split
  · exact Yields.pure (.inr hP.undefined)
  · split
    · rename_i value hvalue
      rcases Option.bind_eq_some_iff.mp hvalue with ⟨turns, _, hvalue⟩
      exact (hP.exactCircular? hnode hvalue).orKept
    · exact hP.foldSign hnode hf hx

theorem inverseCircular (hP : Composed side P) (hnode : Keeps P node)
    (hf : f.kind.isTrigonometric = true) (hx : P x) :
    Yields (Reduction.inverseCircular ctx node f x) (OrKept P (.apply f [x])) := by
  rw [Reduction.inverseCircular]
  split
  · split
    · exact Yields.pure (.inr hP.nonreal)
    · exact Yields.kept P _
  · refine tabulatedHalfTurns?_bind _ fun turns => ?_
    split
    · exact (hP.angle hnode _).orKept
    · exact hP.foldSign hnode hf hx

theorem arcTangent (hP : Composed side P) (hnode : Keeps P node) (hx : P x) :
    Yields (Reduction.arcTangent ctx node x) (OrKept P (.apply .arcTangent [x])) := by
  rw [Reduction.arcTangent.eq_def]
  split
  · exact (hP.angle hnode _).orKept
  · refine tabulatedHalfTurns?_bind _ fun turns => ?_
    split
    · exact (hP.angle hnode _).orKept
    · exact hP.foldSign hnode rfl hx

theorem undone? (hP : Composed side P) (hx : P x) (h : trigonometric.undone? f x = some y) : P y := by
  rw [trigonometric.undone?.eq_def] at h
  split at h
  · split at h
    · cases h
      exact hP.operand hx List.mem_cons_self
    · cases h
  · cases h

theorem trigonometric (hP : Composed side P) (ctx : Context) (hnode : Keeps P node)
    (hf : f.kind.isTrigonometric = true) (hxs : ∀ x ∈ xs, P x) :
    Yields (Reduction.trigonometric ctx node f xs) (OrKept P (.apply f xs)) := by
  rw [Reduction.trigonometric.eq_def]
  split
  · have hx := hxs _ List.mem_cons_self
    split
    · rename_i hundone
      exact Yields.pure (.inr (hP.undone? hx hundone))
    · split
      · exact hP.circular hnode hf hx
      · exact hP.circular hnode hf hx
      · exact hP.circular hnode hf hx
      · exact hP.inverseCircular hnode hf hx
      · exact hP.inverseCircular hnode hf hx
      · exact hP.arcTangent hnode hx
      · split
        · exact Yields.pure (.inr (hP.integer _))
        · exact hP.foldSign hnode hf hx
  · exact Yields.pure (.inr hP.undefined)

/-! ## Parts of complex numbers -/

theorem sumOrZero (hP : Composed side P) (hnode : Keeps P node) (hxs : ∀ x ∈ xs, P x) :
    Yields (Reduction.sumOrZero node xs) P := by
  rw [Reduction.sumOrZero]
  split
  · exact Yields.pure (hP.integer 0)
  · exact hnode.add hxs

theorem imaginaryCoefficient? (hP : Composed side P) (hnode : Keeps P node) (hx : P x)
    {m : ReduceM Expr} (h : Reduction.imaginaryCoefficient? node x = some m) : Yields m P := by
  rw [Reduction.imaginaryCoefficient?.eq_def] at h
  split at h
  · cases h
    exact Yields.pure (hP.integer 1)
  · split at h
    · dsimp only at h
      split at h
      · cases h
        exact hnode.multiply fun y hy => hP.operand hx (List.mem_of_mem_filter hy)
      · cases h
    · cases h

theorem eq_i_of_isImaginaryUnit (h : isImaginaryUnit x = true) : x = .i := by
  cases x with
  | constant c =>
      cases c with
      | imaginaryUnit => rfl
      | _ => cases h
  | _ => cases h

/-- An imaginary term is the imaginary unit or has it as a factor. -/
theorem unit_of_imaginaryCoefficient? (hP : Composed side P) (hx : P x) {m : ReduceM Expr}
    (h : Reduction.imaginaryCoefficient? node x = some m) : P .i := by
  rw [Reduction.imaginaryCoefficient?.eq_def] at h
  split at h
  · rename_i hunit
    exact eq_i_of_isImaginaryUnit hunit ▸ hx
  · split at h
    · rename_i factors _
      dsimp only at h
      split at h
      · rename_i hothers
        by_contra hunit
        have hall : factors.filter (fun y => !isImaginaryUnit y) = factors := by
          refine List.filter_eq_self.mpr fun y hy => ?_
          rw [Bool.not_eq_true', Bool.eq_false_iff]
          exact fun hy' => hunit (eq_i_of_isImaginaryUnit hy' ▸ hP.operand hx hy)
        rw [hall] at hothers
        simp at hothers
      · cases h
    · cases h

/-- Real terms and coefficients of imaginary ones, where there are any only if there is an imaginary
unit. -/
structure PartsOf (P : Expr → Prop) (parts : List Expr × List Expr) : Prop where
  real : ∀ x ∈ parts.1, P x
  imaginary : ∀ x ∈ parts.2, P x
  unit : parts.2 = [] ∨ P .i

theorem splitTerms? (hP : Composed side P) (hnode : Keeps P node) (hxs : ∀ x ∈ xs, P x) :
    Yields (Reduction.splitTerms? node xs) fun parts => ∀ p ∈ parts, PartsOf P p := by
  induction xs with
  | nil =>
      rw [Reduction.splitTerms?]
      refine Yields.pure ?_
      rintro _ ⟨⟩
      exact ⟨List.forall_mem_nil _, List.forall_mem_nil _, .inl rfl⟩
  | cons x xs ih =>
      have hx := hxs x List.mem_cons_self
      have htail := ih fun y hy => hxs y (List.mem_cons_of_mem x hy)
      rw [Reduction.splitTerms?]
      split
      · refine htail.bind fun parts hparts => Yields.pure fun p hp => ?_
        rcases Option.map_eq_some_iff.mp hp with ⟨q, hq, rfl⟩
        have hq := hparts q hq
        exact ⟨List.forall_mem_cons.mpr ⟨hx, hq.real⟩, hq.imaginary, hq.unit⟩
      · split
        · exact Yields.pure (by rintro _ ⟨⟩)
        · rename_i hcoefficient
          refine (hP.imaginaryCoefficient? hnode hx hcoefficient).bind fun b hb => ?_
          refine htail.bind fun parts hparts => Yields.pure fun p hp => ?_
          rcases Option.map_eq_some_iff.mp hp with ⟨q, hq, rfl⟩
          have hq := hparts q hq
          exact ⟨hq.real, List.forall_mem_cons.mpr ⟨hb, hq.imaginary⟩,
            .inr (hP.unit_of_imaginaryCoefficient? hx hcoefficient)⟩

theorem cartesianParts? (hP : Composed side P) (hnode : Keeps P node) (hx : P x) :
    Yields (Reduction.cartesianParts? node x) fun parts => ∀ p ∈ parts, PartsOf P p := by
  rw [Reduction.cartesianParts?.eq_def]
  split
  · exact hP.splitTerms? hnode fun y hy => hP.operand hx hy
  · exact hP.splitTerms? hnode (List.forall_mem_singleton.mpr hx)

theorem simplePart? (hP : Composed side P) (hnode : Keeps P node) (hx : P x) {m : ReduceM Expr}
    (h : Reduction.simplePart? ctx node f x = some m) : Yields m P := by
  have hself : Yields (pure x) P := Yields.pure hx
  have hnumber : ∀ n, Yields (pure (.integer n)) P := fun n => Yields.pure (hP.integer n)
  rw [Reduction.simplePart?.eq_def] at h
  dsimp only at h
  split at h
  · split at h
    · cases h
      exact hself
    · split at h
      · cases h
        exact hnode.negate hP hx
      · split at h
        · cases h
          exact hnumber 1
        · cases h
  · split at h
    · cases h
      exact hnumber 0
    · cases h
      exact hP.angle hnode _
    · cases h
      exact Yields.pure hP.undefined
    · split at h
      · cases h
        exact hP.angle hnode _
      · cases h
  · split at h
    · cases h
      exact hself
    · split at h
      · cases h
        exact hnumber 0
      · cases h
  · split at h
    · cases h
      exact hnumber 0
    · split at h
      · cases h
        exact hnumber 1
      · cases h
  · split at h
    · split at h
      · cases h
        exact Yields.pure (hP.operand hx List.mem_cons_self)
      · cases h
    · split at h
      · cases h
        exact hself
      · split at h
        · cases h
          exact hnode.negate hP hx
        · cases h
  · cases h

/-- A reduction of products that are zero, though one factor is the imaginary unit. -/
def Vanishes (P : Expr → Prop) (node : NodeReducer) : Prop :=
  Yields (Reduction.multiply node [.integer (-1), .integer 0, .i]) P

theorem partOfTerms (hP : Composed side P) (hnode : Keeps P node) (hvanishes : Vanishes P node)
    (h : PartsOf P (xs, ys)) : Yields (Reduction.partOfTerms node f xs ys) P := by
  have hreal : ∀ z, P z → Yields (Reduction.add node (xs ++ [z])) P := fun z hz =>
    hnode.add (List.forall_mem_append.mpr ⟨h.real, List.forall_mem_singleton.mpr hz⟩)
  rw [Reduction.partOfTerms.eq_def]
  split
  · exact hP.sumOrZero hnode h.real
  · exact hP.sumOrZero hnode h.imaginary
  · rcases h.unit with rfl | hunit
    · exact hvanishes.bind hreal
    · refine (hP.sumOrZero hnode h.imaginary).bind fun b hb => ?_
      have hproduct : Yields (Reduction.multiply node [.integer (-1), b, .i]) P :=
        hnode.multiply (List.forall_mem_cons.mpr ⟨hP.integer (-1), forall_mem_pair hb hunit⟩)
      exact hproduct.bind hreal

theorem complexPart (hP : Composed side P) (hnode : Keeps P node) (hvanishes : Vanishes P node)
    (hxs : ∀ x ∈ xs, P x) :
    Yields (Reduction.complexPart ctx node f xs) (OrKept P (.apply f xs)) := by
  rw [Reduction.complexPart.eq_def]
  split
  · rename_i x
    have hx := hxs x List.mem_cons_self
    split
    · rename_i hresult
      exact (hP.simplePart? hnode hx hresult).orKept
    · split
      on_goal 4 => exact Yields.kept P _
      all_goals
        refine (hP.cartesianParts? hnode hx).bind fun parts hparts => ?_
        split
        · exact (hP.partOfTerms hnode hvanishes (hparts _ rfl)).orKept
        · exact Yields.kept P _
  · exact Yields.pure (.inr hP.undefined)

/-! ## Functions of numbers and lists -/

theorem outcome (hP : Composed side P) (o : Outcome) (x : Expr) : OrKept P x (o.toExpr x) := by
  cases o with
  | value q => exact .inr (hP.rational q)
  | undefined => exact .inr hP.undefined
  | infinity negative => exact .inr (hP.infinity negative)
  | kept => exact .inl rfl

theorem elements? (hP : Composed side P) (hx : P x) (h : Reduction.elements? x = some ys) :
    ∀ y ∈ ys, P y := by
  rw [Reduction.elements?.eq_def] at h
  split at h
  · cases h
    exact fun y hy => hP.operand hx hy
  · cases h

theorem mean (hP : Composed side P) (hnode : Keeps P node) (hxs : ∀ x ∈ xs, P x) :
    Yields (Reduction.mean node xs) P := by
  rw [Reduction.mean]
  split
  · exact Yields.pure hP.undefined
  · exact (hnode.add hxs).bind fun sum hsum => hnode.multiply (by simp [hsum, hP.rational _])

theorem weightedMean (hP : Composed side P) (hnode : Keeps P node) (hxs : ∀ x ∈ xs, P x)
    (hys : ∀ y ∈ ys, P y) : Yields (Reduction.weightedMean node xs ys) P := by
  rw [Reduction.weightedMean]
  refine (Yields.mapM_forall (P := P) fun pair hpair => ?_).bind fun products hproducts => ?_
  · have hmem := List.of_mem_zip hpair
    exact hnode.multiply (by simp [hxs pair.1 hmem.1, hys pair.2 hmem.2])
  · refine (hP.sumOrZero hnode hproducts).bind fun total htotal => ?_
    refine (hP.sumOrZero hnode hys).bind fun weight hweight => ?_
    refine (hnode.invert hP hweight).bind fun inverse hinverse => ?_
    exact hnode.multiply (by simp [htotal, hinverse])

theorem listFunction (hP : Composed side P) (hnode : Keeps P node) (hxs : ∀ x ∈ xs, P x) :
    Yields (Reduction.listFunction node f xs) (OrKept P (.apply f xs)) := by
  rw [Reduction.listFunction]
  split
  · split
    · exact Yields.kept P _
    · exact Yields.pure (.inr hP.undefined)
  · rename_i lists hlists
    have helements := forall_of_mapM_eq_some (P := fun ys => ∀ y ∈ ys, P y)
      (fun y hy ys hys => hP.elements? (hxs y hy) hys) hlists
    split
    · exact (hP.sumOrZero hnode (helements _ (by simp))).orKept
    · exact (hP.mean hnode (helements _ (by simp))).orKept
    · split
      · exact Yields.pure (.inr hP.undefined)
      · split
        · exact (hP.weightedMean hnode (helements _ (by simp)) (helements _ (by simp))).orKept
        · exact Yields.kept P _
    · exact Yields.pure (.inr hP.undefined)

/-! ## Rules of differentiation -/

theorem naturalLogarithm (hP : Composed side P) (hnode : Keeps P node) (hx : P x) :
    Yields (Reduction.naturalLogarithm node x) P :=
  hnode .logarithm _ rfl (forall_mem_pair hx hP.e)

theorem radiansPerUnit? (hP : Composed side P) (hnode : Keeps P node) {m : ReduceM Expr}
    (h : Reduction.radiansPerUnit? ctx node = some m) : Yields m P := by
  rcases Option.map_eq_some_iff.mp h with ⟨measure, _, rfl⟩
  exact hnode.multiply (forall_mem_pair (hP.rational _) hP.pi)

theorem productRule (hnode : Keeps P node) {before : List Expr} (hbefore : ∀ x ∈ before, P x)
    (hxs : ∀ x ∈ xs, P x) (hys : ∀ y ∈ ys, P y) :
    Yields (Reduction.productRule node before xs ys) fun terms => ∀ t ∈ terms, P t := by
  induction xs generalizing before ys with
  | nil =>
      rw [Reduction.productRule.eq_def]
      exact Yields.pure (List.forall_mem_nil _)
  | cons x xs ih =>
      cases ys with
      | nil =>
          rw [Reduction.productRule.eq_def]
          exact Yields.pure (List.forall_mem_nil _)
      | cons y ys =>
          have hx := hxs x List.mem_cons_self
          have htail := fun z hz => hxs z (List.mem_cons_of_mem x hz)
          have hrest : Yields (Reduction.productRule node (before ++ [x]) xs ys)
              fun terms => ∀ t ∈ terms, P t := ih
            (List.forall_mem_append.mpr ⟨hbefore, List.forall_mem_singleton.mpr hx⟩) htail
            fun z hz => hys z (List.mem_cons_of_mem y hz)
          have hconcat : ∀ terms, (∀ t ∈ terms, P t) →
              Yields (do return terms ++ (← Reduction.productRule node (before ++ [x]) xs ys))
                fun terms => ∀ t ∈ terms, P t := fun terms hterms =>
            hrest.bind fun others hothers =>
              Yields.pure (List.forall_mem_append.mpr ⟨hterms, hothers⟩)
          rw [Reduction.productRule]
          split
          · exact (Yields.pure (List.forall_mem_nil _)).bind hconcat
          · have hproduct : Yields (Reduction.multiply node (y :: (before ++ xs))) P :=
              hnode.multiply (List.forall_mem_cons.mpr ⟨hys y List.mem_cons_self,
                List.forall_mem_append.mpr ⟨hbefore, htail⟩⟩)
            refine hproduct.bind fun term hterm => ?_
            exact (Yields.pure (List.forall_mem_singleton.mpr hterm)).bind hconcat

theorem powerRule (hP : Composed side P) (hnode : Keeps P node) (name : String)
    {base exponent db dp : Expr} (hwhole : P (.apply .power [base, exponent])) (hdb : P db)
    (hdp : P dp) : Yields (Reduction.powerRule node name base exponent db dp) P := by
  have hbase : P base := hP.operand hwhole (by simp)
  have hexponent : P exponent := hP.operand hwhole (by simp)
  have hlogarithm := hP.naturalLogarithm hnode hbase
  rw [Reduction.powerRule]
  split
  · refine (hnode.add (by simp [hexponent, hP.integer (-1)])).bind fun low hlow => ?_
    refine (hnode.power hbase hlow).bind fun power hpower => ?_
    exact hnode.multiply (by simp [hexponent, hpower, hdb])
  · split
    · refine hlogarithm.bind fun l hl => ?_
      exact hnode.multiply (by simp [hwhole, hl, hdp])
    · refine hlogarithm.bind fun l hl => ?_
      refine (hnode.multiply (by simp [hdp, hl])).bind fun first hfirst => ?_
      refine (hnode.invert hP hbase).bind fun inverse hinverse => ?_
      refine (hnode.multiply (by simp [hexponent, hdb, hinverse])).bind fun second hsecond => ?_
      refine (hnode.add (by simp [hfirst, hsecond])).bind fun sum hsum => ?_
      exact hnode.multiply (by simp [hwhole, hsum])

theorem outerDerivative? (hP : Composed side P) (hnode : Keeps P node) (hx : P x)
    {m : ReduceM Expr} (h : Reduction.outerDerivative? node f x = some m) : Yields m P := by
  have hone := hP.integer 1
  have hcall : ∀ g, isCalled g = true → Yields (apply1 node g x) P := fun g hg =>
    hnode g [x] hg (List.forall_mem_singleton.mpr hx)
  have hsquare : Yields (square node x) P := hnode.power hx (hP.integer 2)
  have hroot : Yields (outerDerivative?.arcSineDerivative node x) P := by
    refine hsquare.bind fun s hs => (hnode.negate hP hs).bind fun z hz => ?_
    refine (hnode.add (by simp [hone, hz])).bind fun radicand hradicand => ?_
    exact hnode.power hradicand (hP.rational _)
  rw [Reduction.outerDerivative?.eq_def] at h
  split at h <;> cases h
  case h_1 => exact hcall .cosine rfl
  case h_2 => exact (hcall .sine rfl).bind fun s hs => hnode.negate hP hs
  case h_3 => exact (hcall .cosine rfl).bind fun c hc => hnode.power hc (hP.integer _)
  case h_4 =>
    refine hsquare.bind fun s hs => (hnode.add (by simp [hone, hs])).bind fun sum hsum => ?_
    exact hnode.invert hP hsum
  case h_5 => exact hroot
  case h_6 => exact hroot.bind fun r hr => hnode.negate hP hr
  case h_7 => exact hcall .hyperbolicCosine rfl
  case h_8 => exact hcall .hyperbolicSine rfl
  case h_9 => exact (hcall .hyperbolicCosine rfl).bind fun c hc => hnode.power hc (hP.integer _)

theorem unitFactor? (hP : Composed side P) (hnode : Keeps P node) {m : ReduceM Expr}
    (h : Reduction.unitFactor? ctx node f = some m) : Yields m P := by
  have hinverse : (Reduction.radiansPerUnit? ctx node).map
      (fun scale => do Reduction.invert node (← scale)) = some m → Yields m P := by
    intro h
    rcases Option.map_eq_some_iff.mp h with ⟨scale, hscale, rfl⟩
    exact (hP.radiansPerUnit? hnode hscale).bind fun s hs => hnode.invert hP hs
  rw [Reduction.unitFactor?.eq_def] at h
  split at h
  · exact hP.radiansPerUnit? hnode h
  · exact hP.radiansPerUnit? hnode h
  · exact hP.radiansPerUnit? hnode h
  · exact hinverse h
  · exact hinverse h
  · exact hinverse h
  · cases h

theorem chainRule (hP : Composed side P) (hnode : Keeps P node) {outer : ReduceM Expr}
    (houter : Yields outer P) {du : Expr} (hdu : P du) :
    Yields (Reduction.chainRule ctx node f outer du) P := by
  rw [Reduction.chainRule]
  refine houter.bind fun d hd => ?_
  split
  · rename_i factor hunit
    exact (hP.unitFactor? hnode hunit).bind fun u hu => hnode.multiply (by simp [hd, hdu, hu])
  · exact hnode.multiply (by simp [hd, hdu])

theorem logarithmRule (hP : Composed side P) (hnode : Keeps P node) {base du : Expr} (hx : P x)
    (hbase : P base) (hdu : P du) : Yields (Reduction.logarithmRule node x base du) P := by
  refine (hnode.invert hP hx).bind fun inverse hinverse => ?_
  refine (hP.naturalLogarithm hnode hbase).bind fun l hl => ?_
  refine (hnode.invert hP hl).bind fun scale hscale => ?_
  exact hnode.multiply (by simp [hdu, hinverse, hscale])

/-! ## Derivatives -/

/-- A derivative, where there is one. -/
def IfAny (P : Expr → Prop) (d : Option Expr) : Prop :=
  ∀ y ∈ d, P y

theorem ifAny_some (hy : P y) : IfAny P (some y) := by
  rintro _ ⟨⟩
  exact hy

theorem ifAny_none : IfAny P none :=
  nofun

theorem derivatives? {name : String}
    (hxs : ∀ x ∈ xs, Yields (Reduction.derivative? ctx node name x) (IfAny P)) :
    Yields (Reduction.derivatives? ctx node name xs) fun ds => ∀ ys ∈ ds, ∀ y ∈ ys, P y := by
  induction xs with
  | nil =>
      rw [Reduction.derivatives?]
      refine Yields.pure ?_
      rintro _ ⟨⟩
      exact List.forall_mem_nil _
  | cons x xs ih =>
      rw [Reduction.derivatives?]
      refine (hxs x List.mem_cons_self).bind fun d hd => ?_
      split
      · exact Yields.pure fun _ h => by cases h
      · rename_i d
        refine (ih fun y hy => hxs y (List.mem_cons_of_mem x hy)).bind fun ds hds =>
          Yields.pure fun ys hys => ?_
        rcases Option.map_eq_some_iff.mp hys with ⟨zs, hzs, rfl⟩
        exact List.forall_mem_cons.mpr ⟨hd d rfl, hds zs hzs⟩

theorem derivative?_apply (hP : Composed side P) (hnode : Keeps P node) {name : String}
    (hx : P (.apply f xs))
    (hderivatives : ∀ y ∈ xs, Yields (Reduction.derivative? ctx node name y) (IfAny P)) :
    Yields (Reduction.derivative? ctx node name (.apply f xs)) (IfAny P) := by
  have hxs : ∀ y ∈ xs, P y := fun y hy => hP.operand hx hy
  rw [Reduction.derivative?.eq_def]
  dsimp only
  split
  · exact Yields.pure (ifAny_some (hP.integer 0))
  · split
    · refine (derivatives? hderivatives).bind fun ds hds => ?_
      split
      · rename_i ds
        exact (hnode.add (hds ds rfl)).bind fun d hd => Yields.pure (ifAny_some hd)
      · exact Yields.pure ifAny_none
    · refine (derivatives? hderivatives).bind fun ds hds => ?_
      split
      · rename_i ds
        refine (productRule hnode (List.forall_mem_nil _) hxs (hds ds rfl)).bind
          fun terms hterms => (hnode.add hterms).bind fun d hd => Yields.pure (ifAny_some hd)
      · exact Yields.pure ifAny_none
    · rename_i base exponent _
      refine (hderivatives base (by simp)).bind fun db hdb => ?_
      split
      · exact Yields.pure ifAny_none
      · refine (hderivatives exponent (by simp)).bind fun dp hdp => ?_
        split
        · exact Yields.pure ifAny_none
        · exact (hP.powerRule hnode name hx (hdb _ rfl) (hdp _ rfl)).bind
            fun d hd => Yields.pure (ifAny_some hd)
    · rename_i u base _
      split
      · exact Yields.pure ifAny_none
      · refine (hderivatives u (by simp)).bind fun du hdu => ?_
        split
        · exact (hP.logarithmRule hnode (hxs u (by simp)) (hxs base (by simp))
            (hdu _ rfl)).bind fun d hd => Yields.pure (ifAny_some hd)
        · exact Yields.pure ifAny_none
    · split
      · exact Yields.pure ifAny_none
      · rename_i outer houter
        refine (hderivatives _ List.mem_cons_self).bind fun du hdu => ?_
        split
        · exact (hP.chainRule hnode (hP.outerDerivative? hnode (hxs _ List.mem_cons_self) houter)
            (hdu _ rfl)).bind fun d hd => Yields.pure (ifAny_some hd)
        · exact Yields.pure ifAny_none
    · exact Yields.pure ifAny_none

theorem derivative? (hP : Composed side P) (hnode : Keeps P node) (name : String) :
    ∀ x, P x → Yields (Reduction.derivative? ctx node name x) (IfAny P)
  | .apply f xs, hx => hP.derivative?_apply hnode hx fun y hy =>
      hP.derivative? hnode name y (hP.operand hx hy)
  | .symbol other, _ => by
      rw [Reduction.derivative?]
      exact Yields.pure (ifAny_some (hP.integer _))
  | .rational _, _ => Yields.pure (ifAny_some (hP.integer 0))
  | .decimal _, _ => Yields.pure (ifAny_some (hP.integer 0))
  | .infinity _, _ => Yields.pure (ifAny_some (hP.integer 0))
  | .constant _, _ => Yields.pure (ifAny_some (hP.integer 0))
termination_by x => x.size
decreasing_by exact size_lt_of_mem hy

theorem derivativeAt (hP : Composed side P) {T : Expr → Prop} {tree : NodeReducer}
    (hnode : Keeps P node) (htree : ∀ x, T x → Yields (tree x) P)
    (hsubstitute : ∀ {name point d}, P point → P d → T (Expr.substitute name point d))
    (hxs : ∀ x ∈ xs, P x) :
    Yields (Reduction.derivativeAt ctx node tree xs) (OrKept P (.apply .derivative xs)) := by
  rw [Reduction.derivativeAt.eq_def]
  split
  · rename_i body name point
    refine (hP.derivative? hnode name body (hxs body (by simp))).bind fun d hd => ?_
    split
    · rename_i d
      exact (htree _ (hsubstitute (hxs point (by simp)) (hd d rfl))).orKept
    · exact Yields.kept P _
  · exact Yields.pure (.inr hP.undefined)

end Composed

end Reduction

end PocketAlgebra

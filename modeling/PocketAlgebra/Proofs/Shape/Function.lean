import PocketAlgebra.Proofs.Shape.Canonical
import PocketAlgebra.Proofs.Shape.Power
import PocketAlgebra.Reduction.ComplexPart
import PocketAlgebra.Reduction.Derivative
import PocketAlgebra.Reduction.Integer
import PocketAlgebra.Reduction.ListFunction

/-!
# Canonical forms of functions

A function that is kept has proper operands, and exact values are numbers or multiples of roots.
Only functions of lists are kept over lists.

The rules of differentiation build on operands of the tree and on derivatives, all through reduced
nodes. The point is put into the derivative where the variable stood; that cannot make anything but
a symbol of a bound variable, since the operand that names it is left alone.
-/

namespace PocketAlgebra

namespace Shape

open PocketAlgebra.Expr Reduction

variable {node : NodeReducer} {ctx : Context} {f : Operator} {x y : Expr} {xs ys : List Expr}

theorem entry_kept (hf : isProper f = true) (hx : Proper x) : Entry (.apply f [x]) :=
  (proper_plain hf (List.forall_mem_singleton.mpr hx)).1

/-! ## Circular and hyperbolic functions -/

theorem angle_entry (hnode : KeepsShape node) (q : Rat) : Yields (angle ctx node q) Entry := by
  rw [angle]
  split
  · exact Yields.pure (proper_rational _).1
  · exact hnode.multiply (by simp [Expr.pi, (proper_rational q).1, (proper_constant _).1])

theorem proper_surd (s : Surd) : Proper s.toExpr := by
  rw [Surd.toExpr]
  split
  · exact proper_rational _
  · rename_i hzero
    rw [Bool.or_eq_true, not_or, decide_eq_true_eq, decide_eq_true_eq] at hzero
    exact proper_multiple_of_power hzero.2 (proper_integer _) (proper_rational _)

theorem exactTangent?_entry (hnode : KeepsShape node) {turns : Rat} {m : ReduceM Expr}
    (h : exactTangent? node turns = some m) : Yields m Entry := by
  obtain ⟨sine?, hsine⟩ : ∃ s, exactSine? turns = s := ⟨_, rfl⟩
  obtain ⟨cosine?, hcosine⟩ : ∃ s, exactCosine? turns = s := ⟨_, rfl⟩
  unfold exactTangent? at h
  simp only [hsine, hcosine] at h
  clear hsine hcosine
  split at h
  · rename_i sine cosine
    split at h
    · cases h
      exact Yields.pure entry_undefined
    · cases h
      refine (hnode.invert (proper_surd cosine).1).bind fun z hz => ?_
      exact hnode.multiply (by simp [(proper_surd sine).1, hz])
  · cases h

theorem exactCircular?_entry (hnode : KeepsShape node) {turns : Rat} {m : ReduceM Expr}
    (h : exactCircular? node f turns = some m) : Yields m Entry := by
  have htable : ∀ {s : Option Surd}, s.map (fun s => (pure s.toExpr : ReduceM Expr)) = some m →
      Yields m Entry := by
    intro s hs
    rcases Option.map_eq_some_iff.mp hs with ⟨value, _, rfl⟩
    exact Yields.pure (proper_surd value).1
  cases f with
  | sine => exact htable h
  | cosine => exact htable h
  | _ => exact exactTangent?_entry hnode h

theorem foldSign_entry (hnode : KeepsShape node) (hf : f.kind.isTrigonometric = true)
    (hproper : isProper f = true) (hx : Proper x) : Yields (foldSign node f x) Entry := by
  have hcalled : isCalled f = true := by
    cases f <;> first | exact hf | rfl
  rw [foldSign]
  split
  · refine (hnode.negate hx.1).bind fun y hy => ?_
    refine (hnode f [y] hcalled (List.forall_mem_singleton.mpr hy)).bind fun z hz => ?_
    split
    · exact hnode.negate hz
    · exact Yields.pure hz
  · exact Yields.pure (entry_kept hproper hx)

theorem tabulatedHalfTurns?_bind (table : List (Rat × Surd)) {k : Option Rat → ReduceM Expr}
    (hk : ∀ turns, Yields (k turns) Entry) :
    Yields (tabulatedHalfTurns? node table x >>= k) Entry :=
  Yields.bind (P := fun _ => True) (fun _ _ _ _ => trivial) fun turns _ => hk turns

theorem circular_entry (hnode : KeepsShape node) (hf : f.kind.isTrigonometric = true)
    (hproper : isProper f = true) (hx : Proper x) : Yields (circular ctx node f x) Entry := by
  rw [circular]
  split
  · exact Yields.pure entry_undefined
  · split
    · rename_i value hvalue
      rcases Option.bind_eq_some_iff.mp hvalue with ⟨turns, _, hvalue⟩
      exact exactCircular?_entry hnode hvalue
    · exact foldSign_entry hnode hf hproper hx

theorem inverseCircular_entry (hnode : KeepsShape node) (hf : f.kind.isTrigonometric = true)
    (hproper : isProper f = true) (hx : Proper x) :
    Yields (inverseCircular ctx node f x) Entry := by
  rw [inverseCircular]
  split
  · refine Yields.pure ?_
    split
    · exact entry_nonreal
    · exact entry_kept hproper hx
  · refine tabulatedHalfTurns?_bind _ fun turns => ?_
    split
    · exact angle_entry hnode _
    · exact foldSign_entry hnode hf hproper hx

theorem arcTangent_entry (hnode : KeepsShape node) (hx : Proper x) :
    Yields (arcTangent ctx node x) Entry := by
  rw [arcTangent.eq_def]
  split
  · exact angle_entry hnode _
  · refine tabulatedHalfTurns?_bind _ fun turns => ?_
    split
    · exact angle_entry hnode _
    · exact foldSign_entry hnode rfl rfl hx

theorem undone?_entry (hx : Proper x) (h : trigonometric.undone? f x = some y) : Entry y := by
  rw [trigonometric.undone?.eq_def] at h
  split at h
  · rename_i g z
    split at h
    · rename_i hinverse
      cases h
      have hg : admitsAny g = false := by
        cases f <;> cases hinverse <;> rfl
      exact (hx.canonical.operand_proper hg List.mem_cons_self).1
    · cases h
  · cases h

theorem trigonometric_entry (ctx : Context) (hnode : KeepsShape node)
    (hf : f.kind.isTrigonometric = true) (hproper : isProper f = true) (hxs : ∀ x ∈ xs, Proper x) :
    Yields (trigonometric ctx node f xs) Entry := by
  rw [trigonometric.eq_def]
  split
  · have hx := hxs _ List.mem_cons_self
    split
    · rename_i hundone
      exact Yields.pure (undone?_entry hx hundone)
    · split
      · exact circular_entry hnode hf hproper hx
      · exact circular_entry hnode hf hproper hx
      · exact circular_entry hnode hf hproper hx
      · exact inverseCircular_entry hnode hf hproper hx
      · exact inverseCircular_entry hnode hf hproper hx
      · exact arcTangent_entry hnode hx
      · split
        · exact Yields.pure (proper_integer _).1
        · exact foldSign_entry hnode hf hproper hx
  · exact Yields.pure entry_undefined

/-! ## Parts of complex numbers -/

theorem sumOrZero_entry (hnode : KeepsShape node) (hxs : ∀ x ∈ xs, Entry x) :
    Yields (sumOrZero node xs) Entry := by
  rw [sumOrZero]
  split
  · exact Yields.pure (proper_integer 0).1
  · exact hnode.add hxs

theorem imaginaryCoefficient?_entry (hnode : KeepsShape node) (hx : Proper x) {m : ReduceM Expr}
    (h : imaginaryCoefficient? node x = some m) : Yields m Entry := by
  rw [imaginaryCoefficient?.eq_def] at h
  split at h
  · cases h
    exact Yields.pure (proper_integer 1).1
  · split at h
    · dsimp only at h
      split at h
      · cases h
        exact hnode.multiply fun y hy =>
          (hx.canonical.operand_proper rfl (List.mem_of_mem_filter hy)).1
      · cases h
    · cases h

/-- Both parts of what a sum is split into. -/
def EntryParts (parts : List Expr × List Expr) : Prop :=
  (∀ x ∈ parts.1, Entry x) ∧ ∀ x ∈ parts.2, Entry x

theorem splitTerms?_entry (hnode : KeepsShape node) (hxs : ∀ x ∈ xs, Proper x) :
    Yields (splitTerms? node xs) fun parts => ∀ p ∈ parts, EntryParts p := by
  induction xs with
  | nil =>
      rw [splitTerms?]
      refine Yields.pure ?_
      rintro _ ⟨⟩
      exact ⟨List.forall_mem_nil _, List.forall_mem_nil _⟩
  | cons x xs ih =>
      have hx := hxs x List.mem_cons_self
      have htail := ih fun y hy => hxs y (List.mem_cons_of_mem x hy)
      rw [splitTerms?]
      split
      · refine htail.bind fun parts hparts => Yields.pure fun p hp => ?_
        rcases Option.map_eq_some_iff.mp hp with ⟨q, hq, rfl⟩
        exact ⟨List.forall_mem_cons.mpr ⟨hx.1, (hparts q hq).1⟩, (hparts q hq).2⟩
      · split
        · exact Yields.pure nofun
        · rename_i hcoefficient
          refine (imaginaryCoefficient?_entry hnode hx hcoefficient).bind fun b hb => ?_
          refine htail.bind fun parts hparts => Yields.pure fun p hp => ?_
          rcases Option.map_eq_some_iff.mp hp with ⟨q, hq, rfl⟩
          exact ⟨(hparts q hq).1, List.forall_mem_cons.mpr ⟨hb, (hparts q hq).2⟩⟩

theorem cartesianParts?_entry (hnode : KeepsShape node) (hx : Proper x) :
    Yields (cartesianParts? node x) fun parts => ∀ p ∈ parts, EntryParts p := by
  rw [cartesianParts?.eq_def]
  split
  · exact splitTerms?_entry hnode fun y hy => hx.canonical.operand_proper rfl hy
  · exact splitTerms?_entry hnode (List.forall_mem_singleton.mpr hx)

theorem simplePart?_entry (hnode : KeepsShape node) (hx : Proper x) {m : ReduceM Expr}
    (h : simplePart? ctx node f x = some m) : Yields m Entry := by
  have hself : Yields (pure x) Entry := Yields.pure hx.1
  have hnumber : ∀ n, Yields (pure (.integer n)) Entry := fun n => Yields.pure (proper_integer n).1
  rw [simplePart?.eq_def] at h
  dsimp only at h
  split at h
  · split at h
    · cases h
      exact hself
    · split at h
      · cases h
        exact hnode.negate hx.1
      · split at h
        · cases h
          exact hnumber 1
        · cases h
  · split at h
    · cases h
      exact hnumber 0
    · cases h
      exact angle_entry hnode _
    · cases h
      exact Yields.pure entry_undefined
    · split at h
      · cases h
        exact angle_entry hnode _
      · cases h
  · split at h
    · cases h
      exact hself
    · split at h
      · cases h
        exact hnumber 0
      · cases h
  · split at h
    · cases h
      exact hnumber 0
    · split at h
      · cases h
        exact hnumber 1
      · cases h
  · split at h
    · split at h
      · cases h
        exact Yields.pure (hx.canonical.operand_proper rfl List.mem_cons_self).1
      · cases h
    · split at h
      · cases h
        exact hself
      · split at h
        · cases h
          exact hnode.negate hx.1
        · cases h
  · cases h

theorem partOfTerms_entry (hnode : KeepsShape node) (hxs : ∀ x ∈ xs, Entry x)
    (hys : ∀ y ∈ ys, Entry y) : Yields (partOfTerms node f xs ys) Entry := by
  rw [partOfTerms.eq_def]
  split
  · exact sumOrZero_entry hnode hxs
  · exact sumOrZero_entry hnode hys
  · refine (sumOrZero_entry hnode hys).bind fun b hb => ?_
    have hproduct : Yields (multiply node [.integer (-1), b, .i]) Entry :=
      hnode.multiply (by simp [Expr.i, (proper_integer (-1)).1, hb, (proper_constant _).1])
    refine hproduct.bind fun z hz => hnode.add ?_
    exact List.forall_mem_append.mpr ⟨hxs, List.forall_mem_singleton.mpr hz⟩

theorem complexPart_entry (ctx : Context) (hnode : KeepsShape node) (hf : isProper f = true)
    (hxs : ∀ x ∈ xs, Proper x) : Yields (complexPart ctx node f xs) Entry := by
  rw [complexPart.eq_def]
  split
  · rename_i x
    have hx := hxs x List.mem_cons_self
    have hkept : Entry (.apply f [x]) := entry_kept hf hx
    have hparts := cartesianParts?_entry hnode hx
    split
    · rename_i hresult
      exact simplePart?_entry hnode hx hresult
    · split
      on_goal 4 => exact Yields.pure hkept
      all_goals
        refine hparts.bind fun parts hparts => ?_
        split
        · exact partOfTerms_entry hnode (hparts _ rfl).1 (hparts _ rfl).2
        · exact Yields.pure hkept
  · exact Yields.pure entry_undefined

/-! ## Functions of numbers -/

theorem entry_outcome (o : Outcome) (hx : Entry x) : Entry (o.toExpr x) := by
  cases o with
  | value q => exact (proper_rational q).1
  | undefined => exact entry_undefined
  | infinity negative => exact (proper_infinity negative).1
  | kept => exact hx

/-! ## Functions of lists -/

theorem elements?_entry (hx : Canonical x) (h : elements? x = some ys) : ∀ y ∈ ys, Entry y := by
  rw [elements?.eq_def] at h
  split at h
  · cases h
    exact fun y hy => hx.operand_entry rfl hy
  · cases h

theorem mean_entry (hnode : KeepsShape node) (hxs : ∀ x ∈ xs, Entry x) :
    Yields (mean node xs) Entry := by
  rw [mean]
  split
  · exact Yields.pure entry_undefined
  · exact (hnode.add hxs).bind fun sum hsum =>
      hnode.multiply (by simp [hsum, (proper_rational _).1])

theorem weightedMean_entry (hnode : KeepsShape node) (hxs : ∀ x ∈ xs, Entry x)
    (hys : ∀ y ∈ ys, Entry y) : Yields (weightedMean node xs ys) Entry := by
  rw [weightedMean]
  refine (Yields.mapM_forall (P := Entry) fun pair hpair => ?_).bind fun products hproducts => ?_
  · have hmem := List.of_mem_zip hpair
    exact hnode.multiply (by simp [hxs pair.1 hmem.1, hys pair.2 hmem.2])
  · refine (sumOrZero_entry hnode hproducts).bind fun total htotal => ?_
    refine (sumOrZero_entry hnode hys).bind fun weight hweight => ?_
    refine (hnode.invert hweight).bind fun inverse hinverse => ?_
    exact hnode.multiply (by simp [htotal, hinverse])

theorem listFunction_entry (hnode : KeepsShape node) (hf : f.kind.isListFunction = true)
    (hxs : ∀ x ∈ xs, Canonical x) (hpoison : ∀ x ∈ xs, x.kind.isPoison = false) :
    Yields (listFunction node f xs) Entry := by
  have hkept : Entry (.apply f xs) := by
    have hplain : isPlain f = true := by cases f <;> first | rfl | cases hf
    refine ⟨.apply (.of_plain hplain (fun x hx h => ?_) fun _ _ _ => hf) hxs, ?_⟩
    · rw [hpoison x hx] at h
      cases h
    · cases f <;> first | rfl | cases hf
  rw [listFunction]
  split
  · refine Yields.pure ?_
    split
    · exact hkept
    · exact entry_undefined
  · rename_i lists hlists
    have hentries := forall_of_mapM_eq_some (P := fun ys => ∀ y ∈ ys, Entry y)
      (fun x hx ys hys => elements?_entry (hxs x hx) hys) hlists
    split
    · exact sumOrZero_entry hnode (hentries _ (by simp))
    · exact mean_entry hnode (hentries _ (by simp))
    · split
      · exact Yields.pure entry_undefined
      · split
        · exact weightedMean_entry hnode (hentries _ (by simp)) (hentries _ (by simp))
        · exact Yields.pure hkept
    · exact Yields.pure entry_undefined

/-! ## Substitution -/

theorem mem_substituteAll {name : String} {value : Expr} {shelters : List Bool}
    (hy : y ∈ substituteAll name value shelters xs) :
    ∃ x ∈ xs, y = x ∨ y = substitute name value x := by
  induction xs generalizing shelters with
  | nil =>
      rw [substituteAll] at hy
      cases hy
  | cons x xs ih =>
      rw [substituteAll] at hy
      rcases List.mem_cons.mp hy with rfl | hy
      · refine ⟨x, List.mem_cons_self, ?_⟩
        split
        · exact .inl rfl
        · exact .inr rfl
      · rcases ih hy with ⟨z, hz, h⟩
        exact ⟨z, List.mem_cons_of_mem x hz, h⟩

/-- Substitution leaves alone what names a variable. -/
theorem namesVariable_substituteAll {name : String} {value : Expr} (h : NamesVariable f xs) :
    NamesVariable f (substituteAll name value (sheltered name f xs) xs) := by
  intro hbinds y hy
  rw [sheltered, if_pos hbinds] at hy
  refine h hbinds y ?_
  match xs with
  | [] => exact hy
  | [x] => exact hy
  | x :: z :: xs => exact hy

theorem bindsSymbols_substitute {name : String} {value : Expr} (hvalue : BindsSymbols value)
    (hx : BindsSymbols x) : BindsSymbols (substitute name value x) := by
  induction hx with
  | symbol other =>
      rw [substitute]
      split
      · exact hvalue
      · exact .symbol other
  | apply bound operands ih =>
      rw [substitute]
      refine .apply (namesVariable_substituteAll bound) fun y hy => ?_
      rcases mem_substituteAll hy with ⟨z, hz, rfl | rfl⟩
      · exact operands y hz
      · exact ih z hz
  | rational q => exact .rational q
  | decimal d => exact .decimal d
  | infinity negative => exact .infinity negative
  | constant c => exact .constant c

/-! ## Rules of differentiation -/

theorem radiansPerUnit?_entry (hnode : KeepsShape node) {m : ReduceM Expr}
    (h : radiansPerUnit? ctx node = some m) : Yields m Entry := by
  rcases Option.map_eq_some_iff.mp h with ⟨measure, _, rfl⟩
  exact hnode.multiply (by simp [Expr.pi, (proper_rational _).1, (proper_constant _).1])

theorem productRule_entry (hnode : KeepsShape node) {before : List Expr}
    (hbefore : ∀ x ∈ before, Entry x) (hxs : ∀ x ∈ xs, Entry x) (hys : ∀ y ∈ ys, Entry y) :
    Yields (productRule node before xs ys) fun terms => ∀ t ∈ terms, Entry t := by
  induction xs generalizing before ys with
  | nil =>
      rw [productRule]
      · exact Yields.pure (List.forall_mem_nil _)
      · exact nofun
  | cons x xs ih =>
      match ys with
      | [] =>
          rw [productRule]
          · exact Yields.pure (List.forall_mem_nil _)
          · exact nofun
      | y :: ys =>
          have hx := hxs x List.mem_cons_self
          have htail := fun z hz => hxs z (List.mem_cons_of_mem x hz)
          have hrest : Yields (productRule node (before ++ [x]) xs ys)
              fun terms => ∀ t ∈ terms, Entry t := ih
            (List.forall_mem_append.mpr ⟨hbefore, List.forall_mem_singleton.mpr hx⟩) htail
            fun z hz => hys z (List.mem_cons_of_mem y hz)
          have hconcat : ∀ terms, (∀ t ∈ terms, Entry t) →
              Yields (do return terms ++ (← productRule node (before ++ [x]) xs ys))
                fun terms => ∀ t ∈ terms, Entry t := fun terms hterms =>
            hrest.bind fun others hothers =>
              Yields.pure (List.forall_mem_append.mpr ⟨hterms, hothers⟩)
          rw [productRule]
          split
          · exact (Yields.pure (List.forall_mem_nil _)).bind hconcat
          · have hproduct : Yields (multiply node (y :: (before ++ xs))) Entry := hnode.multiply
              (List.forall_mem_cons.mpr ⟨hys y List.mem_cons_self,
                List.forall_mem_append.mpr ⟨hbefore, htail⟩⟩)
            refine hproduct.bind fun term hterm => ?_
            exact (Yields.pure (List.forall_mem_singleton.mpr hterm)).bind hconcat

theorem powerRule_entry (hnode : KeepsShape node) (name : String) {base exponent db dp : Expr}
    (hbase : Proper base) (hexponent : Proper exponent) (hdb : Entry db) (hdp : Entry dp) :
    Yields (powerRule node name base exponent db dp) Entry := by
  have hwhole : Entry (.apply .power [base, exponent]) :=
    (proper_plain rfl (by simp [hbase, hexponent])).1
  have hlogarithm : Yields (naturalLogarithm node base) Entry :=
    hnode .logarithm _ rfl (by simp [hbase.1, Expr.e, (proper_constant _).1])
  rw [powerRule]
  split
  · refine (hnode.add (by simp [hexponent.1, (proper_integer (-1)).1])).bind fun low hlow => ?_
    refine (hnode.power hbase.1 hlow).bind fun power hpower => ?_
    exact hnode.multiply (by simp [hexponent.1, hpower, hdb])
  · split
    · refine hlogarithm.bind fun l hl => ?_
      exact hnode.multiply (by simp [hwhole, hl, hdp])
    · refine hlogarithm.bind fun l hl => ?_
      refine (hnode.multiply (by simp [hdp, hl])).bind fun first hfirst => ?_
      refine (hnode.invert hbase.1).bind fun inverse hinverse => ?_
      refine (hnode.multiply (by simp [hexponent.1, hdb, hinverse])).bind fun second hsecond => ?_
      refine (hnode.add (by simp [hfirst, hsecond])).bind fun sum hsum => ?_
      exact hnode.multiply (by simp [hwhole, hsum])

theorem outerDerivative?_entry (hnode : KeepsShape node) (hx : Proper x) {m : ReduceM Expr}
    (h : outerDerivative? node f x = some m) : Yields m Entry := by
  have hone := (proper_integer 1).1
  have hcall : ∀ g, isCalled g = true → Yields (apply1 node g x) Entry := fun g hg =>
    hnode g [x] hg (List.forall_mem_singleton.mpr hx.1)
  have hsquare : Yields (square node x) Entry := hnode.power hx.1 (proper_integer 2).1
  have hroot : Yields (outerDerivative?.arcSineDerivative node x) Entry := by
    refine hsquare.bind fun s hs => (hnode.negate hs).bind fun z hz => ?_
    refine (hnode.add (by simp [hone, hz])).bind fun radicand hradicand => ?_
    exact hnode.power hradicand (proper_rational _).1
  rw [outerDerivative?.eq_def] at h
  split at h <;> cases h
  case h_1 => exact hcall .cosine rfl
  case h_2 => exact (hcall .sine rfl).bind fun s hs => hnode.negate hs
  case h_3 => exact (hcall .cosine rfl).bind fun c hc => hnode.power hc (proper_integer _).1
  case h_4 =>
    refine hsquare.bind fun s hs => (hnode.add (by simp [hone, hs])).bind fun sum hsum => ?_
    exact hnode.invert hsum
  case h_5 => exact hroot
  case h_6 => exact hroot.bind fun r hr => hnode.negate hr
  case h_7 => exact hcall .hyperbolicCosine rfl
  case h_8 => exact hcall .hyperbolicSine rfl
  case h_9 =>
    exact (hcall .hyperbolicCosine rfl).bind fun c hc => hnode.power hc (proper_integer _).1

theorem admitsAny_of_outerDerivative? {m : ReduceM Expr}
    (h : outerDerivative? node f x = some m) : admitsAny f = false := by
  cases f <;> first | rfl | simp [outerDerivative?] at h

theorem chainRule_entry (hnode : KeepsShape node) {outer : ReduceM Expr}
    (houter : Yields outer Entry) {du : Expr} (hdu : Entry du) :
    Yields (chainRule ctx node f outer du) Entry := by
  have hfactor : ∀ m, unitFactor? ctx node f = some m → Yields m Entry := by
    intro m hm
    rw [unitFactor?.eq_def] at hm
    have hinverse : (radiansPerUnit? ctx node).map
        (fun scale => do invert node (← scale)) = some m → Yields m Entry := by
      intro h
      rcases Option.map_eq_some_iff.mp h with ⟨scale, hscale, rfl⟩
      exact (radiansPerUnit?_entry hnode hscale).bind fun s hs => hnode.invert hs
    split at hm
    · exact radiansPerUnit?_entry hnode hm
    · exact radiansPerUnit?_entry hnode hm
    · exact radiansPerUnit?_entry hnode hm
    · exact hinverse hm
    · exact hinverse hm
    · exact hinverse hm
    · cases hm
  rw [chainRule]
  refine houter.bind fun d hd => ?_
  split
  · rename_i factor hunit
    exact (hfactor factor hunit).bind fun u hu => hnode.multiply (by simp [hd, hdu, hu])
  · exact hnode.multiply (by simp [hd, hdu])

theorem logarithmRule_entry (hnode : KeepsShape node) {base du : Expr} (hx : Proper x)
    (hbase : Proper base) (hdu : Entry du) : Yields (logarithmRule node x base du) Entry := by
  have hlogarithm : Yields (naturalLogarithm node base) Entry :=
    hnode .logarithm _ rfl (by simp [hbase.1, Expr.e, (proper_constant _).1])
  refine (hnode.invert hx.1).bind fun inverse hinverse => ?_
  refine hlogarithm.bind fun l hl => (hnode.invert hl).bind fun scale hscale => ?_
  exact hnode.multiply (by simp [hdu, hinverse, hscale])

/-! ## Derivatives -/

/-- A derivative, where there is one. -/
def EntryIfAny (d : Option Expr) : Prop :=
  ∀ y ∈ d, Entry y

theorem entryIfAny_some (hy : Entry y) : EntryIfAny (some y) := by
  rintro _ ⟨⟩
  exact hy

theorem entryIfAny_none : EntryIfAny none :=
  nofun

theorem derivatives?_entry {name : String}
    (hxs : ∀ x ∈ xs, Yields (derivative? ctx node name x) EntryIfAny) :
    Yields (derivatives? ctx node name xs) fun ds => ∀ ys ∈ ds, ∀ y ∈ ys, Entry y := by
  induction xs with
  | nil =>
      rw [derivatives?]
      refine Yields.pure ?_
      rintro _ ⟨⟩
      exact List.forall_mem_nil _
  | cons x xs ih =>
      rw [derivatives?]
      refine (hxs x List.mem_cons_self).bind fun d hd => ?_
      split
      · exact Yields.pure nofun
      · rename_i d
        refine (ih fun y hy => hxs y (List.mem_cons_of_mem x hy)).bind fun ds hds =>
          Yields.pure fun ys hys => ?_
        rcases Option.map_eq_some_iff.mp hys with ⟨zs, hzs, rfl⟩
        exact List.forall_mem_cons.mpr ⟨hd d rfl, hds zs hzs⟩

/-- A derivative is formed from those of operands that may themselves be operands. -/
theorem derivative?_apply (hnode : KeepsShape node) {name : String} (hx : Canonical (.apply f xs))
    (hxs : ∀ y ∈ xs, Proper y → Yields (derivative? ctx node name y) EntryIfAny) :
    Yields (derivative? ctx node name (.apply f xs)) EntryIfAny := by
  have hoperands : admitsAny f = false →
      ∀ y ∈ xs, Proper y ∧ Yields (derivative? ctx node name y) EntryIfAny := fun hf y hy =>
    ⟨hx.operand_proper hf hy, hxs y hy (hx.operand_proper hf hy)⟩
  rw [derivative?.eq_def]
  dsimp only
  split
  · exact Yields.pure (entryIfAny_some (proper_integer 0).1)
  · rename_i hmentions
    split
    · refine (derivatives?_entry fun y hy => (hoperands rfl y hy).2).bind fun ds hds => ?_
      split
      · rename_i ds
        exact (hnode.add (hds ds rfl)).bind fun d hd => Yields.pure (entryIfAny_some hd)
      · exact Yields.pure entryIfAny_none
    · refine (derivatives?_entry fun y hy => (hoperands rfl y hy).2).bind fun ds hds => ?_
      split
      · rename_i ds
        have hterms := productRule_entry hnode (List.forall_mem_nil _)
          (fun y hy => (hoperands rfl y hy).1.1) (hds ds rfl)
        refine hterms.bind fun terms hterms => (hnode.add hterms).bind fun d hd => ?_
        exact Yields.pure (entryIfAny_some hd)
      · exact Yields.pure entryIfAny_none
    · rename_i base exponent
      have hbase := hoperands rfl base (by simp)
      have hexponent := hoperands rfl exponent (by simp)
      refine hbase.2.bind fun db hdb => ?_
      split
      · exact Yields.pure entryIfAny_none
      · refine hexponent.2.bind fun dp hdp => ?_
        split
        · exact Yields.pure entryIfAny_none
        · refine (powerRule_entry hnode name hbase.1 hexponent.1 (hdb _ rfl) (hdp _ rfl)).bind
            fun d hd => Yields.pure (entryIfAny_some hd)
    · rename_i u base
      have hu := hoperands rfl u (by simp)
      have hbase := hoperands rfl base (by simp)
      split
      · exact Yields.pure entryIfAny_none
      · refine hu.2.bind fun du hdu => ?_
        split
        · exact (logarithmRule_entry hnode hu.1 hbase.1 (hdu _ rfl)).bind fun d hd =>
            Yields.pure (entryIfAny_some hd)
        · exact Yields.pure entryIfAny_none
    · split
      · exact Yields.pure entryIfAny_none
      · rename_i outer houter
        have hu := hoperands (admitsAny_of_outerDerivative? houter) _ List.mem_cons_self
        refine hu.2.bind fun du hdu => ?_
        split
        · exact (chainRule_entry hnode (outerDerivative?_entry hnode hu.1 houter)
            (hdu _ rfl)).bind fun d hd => Yields.pure (entryIfAny_some hd)
        · exact Yields.pure entryIfAny_none
    · exact Yields.pure entryIfAny_none

theorem derivative?_entry (hnode : KeepsShape node) (name : String) (hx : Canonical x) :
    Yields (derivative? ctx node name x) EntryIfAny := by
  have hnumber : ∀ n, Yields (pure (some (.integer n))) EntryIfAny := fun n =>
    Yields.pure (entryIfAny_some (proper_integer n).1)
  induction hx with
  | apply shape operands ih =>
      exact derivative?_apply hnode (.apply shape operands) fun y hy _ => ih y hy
  | symbol other =>
      rw [derivative?]
      exact hnumber _
  | rational q => exact hnumber 0
  | infinity negative => exact hnumber 0
  | constant c => exact hnumber 0

theorem derivativeAt_canonical {tree : NodeReducer} (hnode : KeepsShape node)
    (htree : ∀ x, BindsSymbols x → Yields (tree x) Canonical) (hxs : ∀ x ∈ xs, Proper x) :
    Yields (derivativeAt ctx node tree xs) Canonical := by
  rw [derivativeAt.eq_def]
  split
  · rename_i body name point
    have hbody := hxs body (by simp)
    have hpoint := hxs point (by simp)
    refine (derivative?_entry hnode name hbody.canonical).bind fun d hd => ?_
    split
    · rename_i d
      exact htree _ (bindsSymbols_substitute hpoint.1.bindsSymbols (hd d rfl).bindsSymbols)
    · refine Yields.pure (canonical_binding rfl hxs ?_)
      rintro _ _ ⟨⟩
      rfl
  · exact Yields.pure entry_undefined.1

end Shape

end PocketAlgebra

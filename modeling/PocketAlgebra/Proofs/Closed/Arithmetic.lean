import PocketAlgebra.Proofs.Field.Engine
import PocketAlgebra.Proofs.Shape.Canonical

/-!
# Properties that sums, products and powers keep

Sums, products and powers of scalars are put together from parts of the operands, and from powers
with exponents that are sums and products of others. A property of trees is kept by their rules
where it holds of what they put together, for exponents of any kind that is kept as well.
-/

namespace PocketAlgebra

namespace Reduction

open PocketAlgebra.Expr Shape

/-- A property of trees that passes from sums and products to their operands and back. -/
structure ClosedOperands (P : Expr → Prop) : Prop where
  rational : ∀ q, P (.rational q)
  operand : ∀ {f xs x}, f = .addition ∨ f = .multiplication → P (.apply f xs) → x ∈ xs → P x
  many : ∀ {f xs}, f = .addition ∨ f = .multiplication → 2 ≤ xs.length → (∀ x ∈ xs, P x) →
    P (.apply f xs)
  prefixed : ∀ {x xs}, P (.apply .multiplication xs) → P x →
    P (.apply .multiplication (x :: xs))

/-- Factors in order, behind a number. -/
def orderedFactors (c : Rat) (xs : List Expr) : List Expr :=
  (if c = 1 then [] else [.rational c]) ++ sort xs

/-- A property of trees, and one of exponents, that hold of what is put together by the rules for
sums, products and powers. -/
structure ClosedArithmetic (E P : Expr → Prop) : Prop where
  rational : ∀ q, P (.rational q)
  undefined : P .undefined
  /-- There may be no infinities. -/
  infinity : ∀ {negative} other, P (.infinity negative) → P (.infinity other)
  operand : ∀ {f xs x}, f = .addition ∨ f = .multiplication → P (.apply f xs) → x ∈ xs → P x
  collected : ∀ {xs : List Expr}, (∀ x ∈ xs, P x) → P (xs.foldl LinearSum.add {}).toExpr
  gathered : ∀ {xs : List Expr} c,
    (∀ x ∈ xs, P x ∧ x.kind ≠ .rational ∧ x.kind ≠ .multiplication) →
      P (assemble .multiplication 1 (orderedFactors c xs))
  exponent : ∀ n, E (.integer n)
  parts : ∀ {x y}, P (.apply .power [x, y]) → P x ∧ E y

/-- A reduction of sums, products and powers keeps a property of trees and one of exponents. -/
structure KeepsArithmetic (E P : Expr → Prop) (node : NodeReducer) : Prop where
  add : ∀ {xs}, (∀ x ∈ xs, P x) → Yields (add node xs) P
  multiply : ∀ {xs}, (∀ x ∈ xs, P x) → Yields (multiply node xs) P
  power : ∀ {x y}, P x → E y → Yields (power node x y) P
  addExponents : ∀ {xs}, (∀ x ∈ xs, E x) → Yields (Reduction.add node xs) E
  multiplyExponents : ∀ {xs}, (∀ x ∈ xs, E x) → Yields (Reduction.multiply node xs) E

/-- The result of a rule that may keep a node: the node itself, or what has a property. -/
def OrKept (P : Expr → Prop) (kept r : Expr) : Prop :=
  r = kept ∨ P r

variable {E P : Expr → Prop} {ctx : Context} {node : NodeReducer} {f : Operator} {x y : Expr}
  {xs ys : List Expr}

theorem Yields.orKept {m : ReduceM Expr} (h : Yields m P) : Yields m (OrKept P x) :=
  h.mono fun _ => .inr

theorem Yields.kept (P : Expr → Prop) (x : Expr) : Yields (Pure.pure x) (OrKept P x) :=
  Yields.pure (.inl rfl)

/-- A kept node has the property that all other results have. -/
theorem Yields.settle {m : ReduceM Expr} (h : Yields m (OrKept P x))
    (hkept : Yields m fun r => r = x → P r) : Yields m P :=
  (h.and hkept).mono fun _ hr => hr.1.elim hr.2 id

theorem Yields.of_orKept {m : ReduceM Expr} (h : Yields m (OrKept P x)) (hx : P x) : Yields m P :=
  h.settle fun _ _ _ _ hr => hr ▸ hx

namespace ClosedOperands

theorem assemble (hP : ClosedOperands P) (hf : f = .addition ∨ f = .multiplication)
    (neutral : Int) (hxs : ∀ x ∈ xs, P x) : P (Reduction.assemble f neutral xs) := by
  match xs with
  | [] => exact hP.rational neutral
  | [x] => exact hxs x List.mem_cons_self
  | x :: y :: xs => exact hP.many hf (by simp) hxs

theorem term_ofExpr (hP : ClosedOperands P) (hx : P x) : P (Term.ofExpr x).rest := by
  rw [Term.ofExpr.eq_def]
  split
  · exact hP.assemble (.inr rfl) 1 fun y hy => hP.operand (.inr rfl) hx (List.mem_cons_of_mem _ hy)
  · exact hx

theorem term_toExpr (hP : ClosedOperands P) {t : Term} (ht : P t.rest) : P t.toExpr := by
  rw [Term.toExpr]
  split
  · exact ht
  · split
    · rename_i factors hrest
      rw [hrest] at ht
      exact hP.prefixed ht (hP.rational t.coefficient)
    · exact hP.many (.inr rfl) (by simp) (by simp [hP.rational t.coefficient, ht])

theorem term_insert {t : Term} {ts : List Term} (ht : P t.rest) (hts : ∀ s ∈ ts, P s.rest) :
    ∀ s ∈ t.insert ts, P s.rest := by
  induction ts with
  | nil => simpa [Term.insert] using ht
  | cons r ts ih =>
      have hr := hts r List.mem_cons_self
      have htail := fun s hs => hts s (List.mem_cons_of_mem r hs)
      rw [Term.insert]
      split
      · exact List.forall_mem_cons.mpr ⟨hr, htail⟩
      · exact List.forall_mem_cons.mpr ⟨hr, ih htail⟩

theorem foldl_add (hP : ClosedOperands P) (hxs : ∀ x ∈ xs, P x) {s : LinearSum}
    (hs : ∀ t ∈ s.terms, P t.rest) : ∀ t ∈ (xs.foldl LinearSum.add s).terms, P t.rest := by
  induction xs generalizing s with
  | nil => exact hs
  | cons x xs ih =>
      refine ih (fun y hy => hxs y (List.mem_cons_of_mem x hy)) ?_
      rw [LinearSum.add.eq_def]
      split
      · exact hs
      · exact term_insert (hP.term_ofExpr (hxs x List.mem_cons_self)) hs

theorem linearSum (hP : ClosedOperands P) {s : LinearSum} (hs : ∀ t ∈ s.terms, P t.rest) :
    P s.toExpr := by
  rw [LinearSum.toExpr]
  refine hP.assemble (.inl rfl) 0 fun x hx => ?_
  rcases List.mem_append.mp ((sort_perm _).mem_iff.mp hx) with hx | hx
  · rcases List.mem_map.mp hx with ⟨t, ht, rfl⟩
    exact hP.term_toExpr (hs t (List.mem_of_mem_filter ht))
  · split at hx
    · cases hx
    · rw [List.mem_singleton.mp hx]
      exact hP.rational _

theorem collected (hP : ClosedOperands P) (hxs : ∀ x ∈ xs, P x) :
    P (xs.foldl LinearSum.add {}).toExpr :=
  hP.linearSum (hP.foldl_add hxs (List.forall_mem_nil _))

theorem gathered (hP : ClosedOperands P) (c : Rat)
    (hxs : ∀ x ∈ xs, P x ∧ x.kind ≠ .rational ∧ x.kind ≠ .multiplication) :
    P (Reduction.assemble .multiplication 1 (orderedFactors c xs)) := by
  refine hP.assemble (.inr rfl) 1 (List.forall_mem_append.mpr ⟨?_, fun x hx => ?_⟩)
  · split
    · exact List.forall_mem_nil _
    · exact List.forall_mem_singleton.mpr (hP.rational _)
  · exact (hxs x ((sort_perm _).mem_iff.mp hx)).1

end ClosedOperands

namespace ClosedArithmetic

theorem integer (hP : ClosedArithmetic E P) (n : Int) : P (.integer n) :=
  hP.rational n

/-! ## Sums -/

theorem flatten (hP : ClosedArithmetic E P) (hf : f = .addition ∨ f = .multiplication) (x : Expr)
    (hx : P x) : ∀ y ∈ Reduction.flatten f x, P y :=
  flatten_forall (P := P) (fun _ h _ hy => hP.operand hf h hy) x hx

theorem flattenAll (hP : ClosedArithmetic E P) (hf : f = .addition ∨ f = .multiplication)
    (hxs : ∀ x ∈ xs, P x) : ∀ y ∈ Reduction.flattenAll f xs, P y :=
  flattenAll_forall (P := P) (fun _ h _ hy => hP.operand hf h hy) xs hxs

theorem infinite (hP : ClosedArithmetic E P) (hx : P x) (hkind : x.kind = .infinity)
    (negative : Bool) : P (.infinity negative) := by
  cases x with
  | infinity sign => exact hP.infinity negative hx
  | apply f xs => cases f <;> cases hkind
  | _ => cases hkind

theorem infiniteSum? (hP : ClosedArithmetic E P) (hxs : ∀ x ∈ xs, P x) {s : Option Bool}
    (h : Reduction.infiniteSum? xs = some s) (negative : Bool) : P (.infinity negative) := by
  rw [Reduction.infiniteSum?] at h
  split at h
  · cases h
  · rename_i sign _ hsigns
    have hsign : sign ∈ xs.filterMap Expr.infinity? := by simp [hsigns]
    rcases List.mem_filterMap.mp hsign with ⟨x, hx, hsign⟩
    cases x with
    | infinity sign => exact hP.infinity negative (hxs _ hx)
    | _ => cases hsign

theorem sumOfScalars (hP : ClosedArithmetic E P) (hxs : ∀ x ∈ xs, P x) :
    P (Reduction.sumOfScalars xs) := by
  rw [Reduction.sumOfScalars]
  split
  · exact hP.undefined
  · rename_i hinfinite
    split
    · exact hP.infiniteSum? hxs hinfinite _
    · exact hP.collected hxs
  · exact hP.collected hxs

/-! ## Products -/

/-- The base and the exponents of a group of powers. The power of a group of one is a factor. -/
structure Grouped (E P : Expr → Prop) (g : PowerGroup) : Prop where
  base : P g.base
  nonempty : g.exponents ≠ []
  exponents : ∀ x ∈ g.exponents, E x
  single : ∀ x, g.exponents = [x] → x.isRational 1 = false → P (.apply .power [g.base, x])

theorem powerGroup_insert {gs : List PowerGroup} (hx : P x) (hy : E y)
    (hpower : y.isRational 1 = false → P (.apply .power [x, y]))
    (hgs : ∀ g ∈ gs, Grouped E P g) : ∀ g ∈ PowerGroup.insert x y gs, Grouped E P g := by
  induction gs with
  | nil =>
      rw [PowerGroup.insert]
      refine List.forall_mem_singleton.mpr ⟨hx, List.cons_ne_nil _ _,
        List.forall_mem_singleton.mpr hy, fun z hz => ?_⟩
      cases hz
      exact hpower
  | cons g gs ih =>
      have hg := hgs g List.mem_cons_self
      have htail := fun r hr => hgs r (List.mem_cons_of_mem g hr)
      rw [PowerGroup.insert]
      split
      · refine List.forall_mem_cons.mpr ⟨⟨hg.base, by simp, ?_, fun z hz => ?_⟩, htail⟩
        · exact List.forall_mem_append.mpr ⟨hg.exponents, List.forall_mem_singleton.mpr hy⟩
        · have hlength := congrArg List.length hz
          have hpos := List.length_pos_iff.mpr hg.nonempty
          rw [List.length_append, List.length_singleton, List.length_singleton] at hlength
          omega
      · exact List.forall_mem_cons.mpr ⟨hg, ih htail⟩

theorem merge (hnode : KeepsArithmetic E P node) {g : PowerGroup} (hg : Grouped E P g) :
    Yields (g.merge node) P := by
  rw [PowerGroup.merge]
  split
  · rename_i exponent hexponents
    refine Yields.pure ?_
    split
    · exact hg.base
    · rename_i hone
      exact hg.single exponent hexponents (Bool.not_eq_true _ ▸ hone)
  · exact (hnode.addExponents hg.exponents).bind fun sum hsum => hnode.power hg.base hsum

theorem multiply? (hP : ClosedArithmetic E P) {p r : PowerProduct}
    (hp : ∀ g ∈ p.groups, Grouped E P g) (hx : P x) (h : p.multiply? x = some r) :
    ∀ g ∈ r.groups, Grouped E P g := by
  rw [PowerProduct.multiply?.eq_def] at h
  split at h
  · cases h
    exact hp
  · split at h
    · cases h
      exact powerGroup_insert (hP.parts hx).1 (hP.parts hx).2 (fun _ => hx) hp
    · cases h
  · cases h
    exact powerGroup_insert hx (hP.exponent 1) (fun h => nomatch h) hp

theorem foldlM_multiply? (hP : ClosedArithmetic E P) {p r : PowerProduct}
    (hp : ∀ g ∈ p.groups, Grouped E P g) (hxs : ∀ x ∈ xs, P x)
    (h : xs.foldlM PowerProduct.multiply? p = some r) : ∀ g ∈ r.groups, Grouped E P g := by
  induction xs generalizing p with
  | nil =>
      cases h
      exact hp
  | cons x xs ih =>
      rw [List.foldlM_cons] at h
      rcases Option.bind_eq_some_iff.mp h with ⟨q, hq, h⟩
      exact ih (hP.multiply? hp (hxs x List.mem_cons_self) hq)
        (fun y hy => hxs y (List.mem_cons_of_mem x hy)) h

/-- Merged factors. Numbers and products are among them only if products are to be taken in. -/
structure Merged (P : Expr → Prop) (f : Factors) : Prop where
  others : ∀ x ∈ f.others, P x
  apart : f.spliced = false → ∀ x ∈ f.others, x.kind ≠ .rational ∧ x.kind ≠ .multiplication

theorem mergeGroups (hP : ClosedArithmetic E P) (hnode : KeepsArithmetic E P node)
    {gs : List PowerGroup} (hgs : ∀ g ∈ gs, Grouped E P g) {f : Factors} (hf : Merged P f) :
    Yields (Reduction.mergeGroups node gs f) fun r => match r with
      | .ok f' => Merged P f'
      | .error poison => P poison := by
  induction gs generalizing f with
  | nil => exact Yields.pure hf
  | cons g gs ih =>
      have htail := fun r hr => hgs r (List.mem_cons_of_mem g hr)
      rw [Reduction.mergeGroups]
      refine (merge hnode (hgs g List.mem_cons_self)).bind fun x hx => ?_
      split
      · exact ih htail ⟨hf.others, hf.apart⟩
      · exact ih htail ⟨List.forall_mem_append.mpr ⟨hf.others, fun y hy => hP.operand (.inr rfl) hx hy⟩,
          Bool.noConfusion⟩
      · rename_i hrational hproduct
        split
        · exact Yields.pure hx
        · refine ih htail ⟨List.forall_mem_append.mpr ⟨hf.others, List.forall_mem_singleton.mpr hx⟩,
            fun hspliced => List.forall_mem_append.mpr ⟨hf.apart hspliced,
              List.forall_mem_singleton.mpr ⟨fun hkind => ?_, fun hkind => ?_⟩⟩⟩
          · rcases exists_rational_of_kind hkind with ⟨q, rfl⟩
            exact hrational q rfl
          · rcases exists_operands_of_kind (.inr rfl) hkind with ⟨factors, rfl⟩
            exact hproduct factors rfl

theorem distribute (hP : ClosedArithmetic E P) (hnode : KeepsArithmetic E P node) {c : Rat}
    (hxs : ∀ x ∈ xs, P x) (hys : ∀ y ∈ ys, P y) : Yields (Reduction.distribute node c xs ys) P := by
  refine (Yields.mapM_forall fun y hy => hnode.multiply ?_).bind fun products hproducts =>
    hnode.add hproducts
  exact List.forall_mem_append.mpr ⟨List.forall_mem_cons.mpr ⟨hP.rational c, hxs⟩,
    List.forall_mem_singleton.mpr (hys y hy)⟩

theorem finishProduct (hP : ClosedArithmetic E P) (hnode : KeepsArithmetic E P node) {f : Factors}
    (hf : Merged P f) : Yields (Reduction.finishProduct node f) P := by
  rw [Reduction.finishProduct]
  split
  · exact Yields.pure (hP.integer 0)
  · split
    · exact hnode.multiply (List.forall_mem_cons.mpr ⟨hP.rational _, hf.others⟩)
    · rename_i hspliced
      split
      · rename_i before terms behind hsplit
        have heq := eq_of_splitAtSum?_eq_some hsplit
        refine hP.distribute hnode (fun x hx => hf.others x ?_) fun x hx => ?_
        · rw [heq]
          rcases List.mem_append.mp hx with hx | hx <;> simp [hx]
        · exact hP.operand (.inl rfl) (hf.others (.apply .addition terms) (by simp [heq])) hx
      · have hapart := hf.apart (Bool.not_eq_true _ ▸ hspliced)
        exact Yields.pure (hP.gathered _ fun x hx => ⟨hf.others x hx, hapart x hx⟩)

theorem productOfScalars (hP : ClosedArithmetic E P) (hnode : KeepsArithmetic E P node)
    (hxs : ∀ x ∈ xs, P x) : Yields (Reduction.productOfScalars node xs) P := by
  rw [Reduction.productOfScalars]
  split
  · refine Yields.pure ?_
    split
    · exact hP.undefined
    · exact hP.integer 0
  · split
    · rename_i hinfinite
      rw [Bool.and_eq_true, List.any_eq_true] at hinfinite
      rcases hinfinite.1 with ⟨x, hx, hkind⟩
      exact Yields.pure (hP.infinite (hxs x hx) (eq_of_beq hkind) _)
    · split
      · exact Yields.pure hP.undefined
      · rename_i product hproduct
        have hgroups := hP.foldlM_multiply? (p := {}) (List.forall_mem_nil _) hxs hproduct
        refine (hP.mergeGroups hnode hgroups (f := ⟨product.coefficient, [], false⟩)
          ⟨List.forall_mem_nil _, fun _ => List.forall_mem_nil _⟩).bind fun r hr => ?_
        split
        · exact Yields.pure hr
        · exact hP.finishProduct hnode hr

/-! ## Powers of compound expressions -/

theorem multiplyOut (hP : ClosedArithmetic E P) (hnode : KeepsArithmetic E P node) (hx : P x)
    (hys : ∀ y ∈ ys, P y) : Yields (Reduction.multiplyOut node x ys) P := by
  have hproducts : Yields ((Reduction.flatten .addition x).mapM fun a => ys.mapM fun b =>
      Reduction.multiply node [a, b]) fun products => ∀ row ∈ products, ∀ z ∈ row, P z := by
    refine Yields.mapM_forall fun a ha => Yields.mapM_forall fun b hb => ?_
    exact hnode.multiply (by simp [hP.flatten (.inl rfl) x hx a ha, hys b hb])
  refine hproducts.bind fun products hproducts => hnode.add fun z hz => ?_
  rcases List.mem_flatten.mp hz with ⟨row, hrow, hz⟩
  exact hproducts row hrow z hz

theorem expandPower (hP : ClosedArithmetic E P) (hnode : KeepsArithmetic E P node)
    (hxs : ∀ x ∈ xs, P x) (times : Nat) (hy : P y) :
    Yields (Reduction.expandPower node xs times y) P := by
  induction times generalizing y with
  | zero => exact Yields.pure hy
  | succ times ih => exact (hP.multiplyOut hnode hy hxs).bind fun z hz => ih hz

theorem compoundPower? (hP : ClosedArithmetic E P) (hnode : KeepsArithmetic E P node) (hx : P x)
    {n : Int} {m : ReduceM Expr} (h : Reduction.compoundPower? node x n = some m) : Yields m P := by
  rw [Reduction.compoundPower?.eq_def] at h
  split at h
  · cases h
    have hfactors := hP.flattenAll (.inr rfl) fun y hy => hP.operand (.inr rfl) hx hy
    refine (Yields.mapM_forall fun y hy => ?_).bind fun powers hpowers => hnode.multiply hpowers
    exact hnode.power (hfactors y hy) (hP.exponent n)
  · split at h
    · cases h
      exact hP.expandPower hnode (fun y hy => hP.operand (.inl rfl) hx hy) _ hx
    · cases h
  · cases h

theorem nestedPower? (hP : ClosedArithmetic E P) (hnode : KeepsArithmetic E P node) (hx : P x)
    (hy : E y) {m : ReduceM Expr} (h : Reduction.nestedPower? node x y = some m) : Yields m P := by
  rw [Reduction.nestedPower?.eq_def] at h
  split at h
  · split at h
    · split at h
      · rename_i inner innerExponent _
        cases h
        rcases hP.parts hx with ⟨hinner, hexponent⟩
        refine (hnode.multiplyExponents (by simp [hexponent, hy])).bind fun z hz => ?_
        exact hnode.power hinner hz
      · cases h
        exact Yields.pure hP.undefined
    · cases h
  · cases h

theorem symbolicPower (hP : ClosedArithmetic E P) (hnode : KeepsArithmetic E P node) (hx : P x)
    (hy : E y) (hargument : ∀ z, logarithmicPower? x y = some z → P z) :
    Yields (Reduction.symbolicPower node x y) (OrKept P (rawPower x y)) := by
  rw [Reduction.symbolicPower]
  split
  · rename_i result hresult
    exact (hP.nestedPower? hnode hx hy hresult).orKept
  · split
    · rename_i result hresult
      rcases Option.bind_eq_some_iff.mp hresult with ⟨n, _, hresult⟩
      exact (hP.compoundPower? hnode hx hresult).orKept
    · cases hsome : logarithmicPower? x y with
      | none => exact Yields.kept P _
      | some argument => exact Yields.pure (.inr (hargument argument hsome))

end ClosedArithmetic

/-! ## Scalars -/

/-- A whole number. -/
def IsWhole (x : Expr) : Prop :=
  ∃ n, x = .integer n

theorem exists_wholes (h : ∀ x ∈ xs, IsWhole x) : ∃ ns : List Int, xs = ns.map .integer := by
  induction xs with
  | nil => exact ⟨[], rfl⟩
  | cons x xs ih =>
      rcases h x List.mem_cons_self with ⟨n, rfl⟩
      rcases ih fun y hy => h y (List.mem_cons_of_mem _ hy) with ⟨ns, rfl⟩
      exact ⟨n :: ns, rfl⟩

/-- A property of trees that are neither matrices nor lists nor constants, which is kept with whole
exponents. -/
structure ClosedScalars (P : Expr → Prop) : Prop extends ClosedArithmetic IsWhole P where
  not_matrix : ∀ {x}, P x → x.isMatrix = false
  not_list : ∀ {x}, P x → x.isList = false
  kind_ne_nonreal : ∀ {x}, P x → x.kind ≠ .nonreal
  not_constant : ∀ c, ¬ P (.constant c)
  power : ∀ {x y}, P x → IsWhole y → P (.apply .power [x, y])

namespace ClosedScalars

theorem ofExpr? (hP : ClosedScalars P) (hx : P x) : Grid.ofExpr? x = none := by
  have hmatrix := hP.not_matrix hx
  rw [Grid.ofExpr?.eq_def]
  split
  · nomatch hmatrix
  · rfl

theorem any_isMatrix (hP : ClosedScalars P) (hxs : ∀ x ∈ xs, P x) : xs.any isMatrix = false := by
  rw [List.any_eq_false]
  intro x hx
  simp [hP.not_matrix (hxs x hx)]

theorem poison? (hP : ClosedScalars P) (hxs : ∀ x ∈ xs, P x) :
    Reduction.poison? xs = none ∨ Reduction.poison? xs = some .undefined := by
  have hnonreal : xs.any (·.kind == .nonreal) = false := by
    rw [List.any_eq_false]
    intro x hx
    simpa using hP.kind_ne_nonreal (hxs x hx)
  rw [Reduction.poison?, hnonreal]
  split
  · exact .inr rfl
  · exact .inl rfl

/-- Scalars do not spoil a node, unless one is undefined. -/
theorem spoiled? (hP : ClosedScalars P) (hxs : ∀ x ∈ xs, P x) :
    Reduction.spoiled? f xs = none ∨ Reduction.spoiled? f xs = some .undefined := by
  have hlists : xs.any isList = false := by
    rw [List.any_eq_false]
    intro x hx
    simp [hP.not_list (hxs x hx)]
  rw [Reduction.spoiled?, hlists, hP.any_isMatrix hxs, Bool.and_false, if_neg Bool.false_ne_true,
    Bool.and_false, if_neg Bool.false_ne_true]
  dsimp only
  rw [Option.or_none]
  split
  · exact .inl rfl
  · exact hP.poison? hxs

theorem nodeWithin (hP : ClosedScalars P) {Q : Expr → Prop} {nesting : Nat}
    (hxs : ∀ x ∈ xs, P x) (hundefined : Q .undefined)
    (h : ∀ inner < nesting, Yields
      (reduceApply ctx (Reduction.nodeWithin inner ctx) (treeWithin inner ctx) f xs) Q) :
    Yields (Reduction.nodeWithin nesting ctx (.apply f xs)) Q := by
  rcases hP.spoiled? (f := f) hxs with hspoiled | hspoiled
  · exact nodeWithin_unspoiled hspoiled h
  · exact nodeWithin_spoiled hspoiled hundefined nesting

theorem reduceSum (hP : ClosedScalars P) (hxs : ∀ x ∈ xs, P x) :
    Yields (Reduction.reduceSum node xs) P := by
  have hterms := hP.flattenAll (.inl rfl) hxs
  rw [Reduction.reduceSum, hP.any_isMatrix hterms]
  rcases hP.poison? hterms with hpoison | hpoison
  · rw [hpoison]
    exact Yields.pure (hP.sumOfScalars hterms)
  · rw [hpoison]
    exact Yields.pure hP.undefined

theorem reduceProduct (hP : ClosedScalars P) (hnode : KeepsArithmetic IsWhole P node)
    (hxs : ∀ x ∈ xs, P x) : Yields (Reduction.reduceProduct node xs) P := by
  have hfactors := hP.flattenAll (.inr rfl) hxs
  rw [Reduction.reduceProduct, hP.any_isMatrix hfactors]
  rcases hP.poison? hfactors with hpoison | hpoison
  · rw [hpoison]
    exact hP.productOfScalars hnode hfactors
  · rw [hpoison]
    exact Yields.pure hP.undefined

/-- Powers with whole exponents. -/
theorem wholePower (hP : ClosedScalars P) (hnode : KeepsArithmetic IsWhole P node) (hx : P x)
    (n : Int) :
    Yields (powerOfScalars ctx node x (.integer n)) P := by
  have hkept : P (rawPower x (.integer n)) := hP.power hx ⟨n, rfl⟩
  have hsymbolic : Yields (Reduction.symbolicPower node x (.integer n)) P :=
    (hP.symbolicPower hnode hx ⟨n, rfl⟩ nofun).of_orKept hkept
  rw [powerOfScalars]
  split
  · refine Yields.pure ?_
    split
    · exact hP.undefined
    · exact hP.integer 1
  · split
    · exact Yields.pure hx
    · split
      · split
        · exact Yields.pure (hP.integer 0)
        · exact Yields.pure hP.undefined
        · exact Yields.pure hP.undefined
        · exact Yields.pure hkept
      · split
        · exact Yields.pure (hP.integer 1)
        · cases x with
          | rational b =>
              rw [Expr.integer, properPower, rationalPower, if_pos (by simp [Rat.isInt])]
              refine Yields.pure ?_
              cases wholePower? b (n : Rat).num with
              | none => exact hkept
              | some value => exact hP.rational value
          | infinity negative =>
              rw [Expr.integer, properPower, infinitePower]
              refine Yields.pure ?_
              split
              · exact hP.integer 0
              · split
                · exact hP.infinity _ hx
                · rw [if_pos (by simp [Rat.isInt])]
                  exact hP.infinity _ hx
          | constant c => exact absurd hx (hP.not_constant c)
          | _ => exact hsymbolic

theorem reducePower (hP : ClosedScalars P) (hnode : KeepsArithmetic IsWhole P node) (hx : P x)
    (n : Int) : Yields (Reduction.reducePower ctx node [x, .integer n]) P := by
  have hexponent : (Expr.integer n).isMatrix = false := rfl
  simp only [Reduction.reducePower, hexponent, hP.ofExpr? hx, Bool.false_eq_true, if_false]
  exact hP.wholePower hnode hx n

theorem keepsArithmetic (hP : ClosedScalars P) (ctx : Context) (nesting : Nat) :
    KeepsArithmetic IsWhole P (Reduction.nodeWithin nesting ctx) := by
  induction nesting using Nat.strongRecOn with
  | ind nesting ih =>
      refine ⟨fun hxs => ?_, fun hxs => ?_, fun hx hy => ?_, fun hxs => ?_, fun hxs => ?_⟩
      · exact hP.nodeWithin hxs hP.undefined fun inner _ => hP.reduceSum hxs
      · exact hP.nodeWithin hxs hP.undefined fun inner hlt => hP.reduceProduct (ih inner hlt) hxs
      · rcases hy with ⟨n, rfl⟩
        exact hP.nodeWithin (forall_mem_pair hx (hP.integer n)) hP.undefined
          fun inner hlt => hP.reducePower (ih inner hlt) hx n
      · rcases exists_wholes hxs with ⟨ns, rfl⟩
        rw [map_integer_eq]
        refine (nodeWithin_sum ctx nesting _).mono fun r hr => ⟨ns.sum, hr.trans ?_⟩
        exact congrArg Expr.rational (map_list_sum (Int.castRingHom Rat) ns).symm
      · rcases exists_wholes hxs with ⟨ns, rfl⟩
        rw [map_integer_eq]
        refine (nodeWithin_product ctx nesting _).mono fun r hr => ⟨ns.prod, hr.trans ?_⟩
        exact congrArg Expr.rational (map_list_prod (Int.castRingHom Rat) ns).symm

end ClosedScalars

end Reduction

end PocketAlgebra

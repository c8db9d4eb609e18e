import PocketAlgebra.Proofs.Expr.Everywhere
import PocketAlgebra.Proofs.Extent.Matrix
import PocketAlgebra.Proofs.Interruption.Reduction

/-!
# Reduction keeps extents

A node over operands of some extents is reduced to what has the extent of the node, or is undefined.
So what an expression is reduced to has the extent that can be told from the expression, or is
undefined. For this, the powers and inverses of matrices among its operands have to be computed:
where the power or the inverse of a matrix is left as it is, it is taken for a scalar.
-/

namespace PocketAlgebra

namespace Reduction

open PocketAlgebra.Expr

variable {ctx : Context} {Q : Expr → Prop} {f : Operator} {x y : Expr} {xs : List Expr}
  {s t : Extent} {ss : List Extent} {rows columns nesting : Nat}

/-! ## Sums -/

theorem flatten_toExpr (hf : Kind.matrix ≠ f.kind) (m : Grid) :
    flatten f m.toExpr = [m.toExpr] :=
  flatten_of_ne (x := m.toExpr) hf

theorem flattenAll_matrices (hf : Kind.matrix ≠ f.kind)
    (hxs : ∀ x ∈ xs, HasExtent (.matrix rows columns) x) : flattenAll f xs = xs := by
  induction xs with
  | nil => rfl
  | cons x xs ih =>
      rcases hxs x List.mem_cons_self with ⟨m, _, rfl⟩
      rw [flattenAll, flatten_toExpr hf, ih fun y hy => hxs y (List.mem_cons_of_mem _ hy)]
      rfl

theorem fits_sum (hne : xs ≠ []) (hxs : ∀ x ∈ xs, Fits s x) (nesting : Nat) :
    Yields (nodeWithin nesting ctx (.apply .addition xs)) (Fits s) := by
  cases s with
  | scalar =>
      have hscalars : ∀ x ∈ xs, IsScalar x := fun x hx => (hxs x hx).isScalar
      exact ((keepsScalars_nodeWithin ctx nesting).add hscalars).mono fun _ => .inr
  | matrix rows columns =>
      have hfits := forall₂_replicate hxs
      refine nodeWithin_fits rfl (by decide) hfits (.inl rfl) fun hstrict inner _ => ?_
      have hextents : ∀ x ∈ xs, HasExtent (.matrix rows columns) x :=
        forall_of_forall₂ hstrict fun t ht x hx => by rwa [List.eq_of_mem_replicate ht] at hx
      have hmatrix : xs.any isMatrix = true := by
        cases xs with
        | nil => exact absurd rfl hne
        | cons x xs =>
            rcases hextents x List.mem_cons_self with ⟨m, _, rfl⟩
            rfl
      have hsum := hasExtent_sumOfMatrices (keepsScalars_nodeWithin ctx inner) hne hextents
      rw [reduceApply, reduceSum, flattenAll_matrices (by decide) hextents, if_pos hmatrix]
      rcases poison?_of_fits hfits with ⟨hnone, _⟩ | hsome
      · rw [hnone]
        exact hsum.mono fun _ => .inr
      · rw [hsome]
        exact Yields.pure (.inl rfl)

/-! ## Products -/

/-- The factors of products in products have the extents that the product calls for. -/
theorem hasExtent_flattenAll (hxs : List.Forall₂ HasExtent ss xs) :
    ∃ ts, List.Forall₂ HasExtent ts (flattenAll .multiplication xs) ∧
      ∀ s, ts.foldlM Extent.times? s = ss.foldlM Extent.times? s := by
  induction hxs with
  | nil => exact ⟨[], .nil, fun _ => rfl⟩
  | @cons t x ss xs hx _ ih =>
      rcases ih with ⟨ts, hts, hfold⟩
      rw [flattenAll]
      cases t with
      | scalar =>
          have hfactors : ∀ y ∈ flatten .multiplication x, HasExtent .scalar y :=
            closedScalars_isScalar.flatten (.inr rfl) x hx
          refine ⟨_, List.rel_append (forall₂_replicate hfactors) hts, fun s => ?_⟩
          rw [List.foldlM_append, foldlM_scalars, List.foldlM_cons, times?_scalar]
          exact hfold s
      | matrix rows columns =>
          rcases hx with ⟨m, hm, rfl⟩
          rw [flatten_toExpr (by decide)]
          refine ⟨.matrix rows columns :: ts, .cons ⟨m, hm, rfl⟩ hts, fun s => ?_⟩
          rw [List.foldlM_cons, List.foldlM_cons]
          exact congrArg _ (funext hfold)

/-- A product of scalars is one of scalars alone. -/
theorem forall_scalar_of_foldlM (h : ss.foldlM Extent.times? .scalar = some .scalar) :
    ∀ s ∈ ss, s = .scalar := by
  induction ss with
  | nil => exact List.forall_mem_nil _
  | cons t ss ih =>
      cases t with
      | scalar => exact List.forall_mem_cons.mpr ⟨rfl, ih h⟩
      | matrix rows columns =>
          rcases exists_columns_of_foldlM h with ⟨_, hscalar⟩
          cases hscalar

theorem any_isMatrix_of_foldlM (hxs : List.Forall₂ HasExtent ss xs)
    (hs : ss.foldlM Extent.times? .scalar = some (.matrix rows columns)) :
    xs.any isMatrix = true := by
  rcases exists_first_matrix hxs hs with ⟨m, _, _, _, hfilter, _⟩
  have hm : m ∈ xs.filterMap Grid.ofExpr? := by
    rw [hfilter]
    exact List.mem_cons_self
  rcases List.mem_filterMap.mp hm with ⟨x, hx, hm⟩
  refine List.any_eq_true.mpr ⟨x, hx, ?_⟩
  rw [Grid.ofExpr?.eq_def] at hm
  split at hm
  · rfl
  · cases hm

theorem fits_product (hxs : List.Forall₂ Fits ss xs)
    (hs : ss.foldlM Extent.times? .scalar = some s) (nesting : Nat) :
    Yields (nodeWithin nesting ctx (.apply .multiplication xs)) (Fits s) := by
  cases s with
  | scalar =>
      have hscalars : ∀ x ∈ xs, IsScalar x := forall_of_forall₂ hxs fun t ht x hx => by
        rw [forall_scalar_of_foldlM hs t ht] at hx
        exact hx.isScalar
      exact ((keepsScalars_nodeWithin ctx nesting).multiply hscalars).mono fun _ => .inr
  | matrix rows columns =>
      refine nodeWithin_fits rfl (by decide) hxs (.inl rfl) fun hstrict inner _ => ?_
      rcases hasExtent_flattenAll hstrict with ⟨ts, hfactors, hfold⟩
      have hts := (hfold .scalar).trans hs
      have hproduct :=
        hasExtent_productOfMatrices (keepsScalars_nodeWithin ctx inner) hfactors hts
      rw [reduceApply, reduceProduct, if_pos (any_isMatrix_of_foldlM hfactors hts)]
      rcases poison?_of_fits (hfactors.imp fun _ _ => .inr) with ⟨hnone, _⟩ | hsome
      · rw [hnone]
        exact hproduct.mono fun _ => .inr
      · rw [hsome]
        exact Yields.pure (.inl rfl)

/-! ## Operators -/

theorem fits_negate (hx : Fits s x) (nesting : Nat) :
    Yields (Reduction.negate (nodeWithin nesting ctx) x) (Fits s) :=
  fits_product (.cons (fits_rational (-1)) (.cons hx .nil)) rfl nesting

/-- A function of one operand. -/
theorem nodeWithin_function {Q : Expr → Prop} (hf : admitsMatrices f.kind = true)
    (hmatrix : f.kind ≠ .matrix) (hundefined : Q .undefined) (hx : Fits t x)
    (h : HasExtent t x → ∀ inner, Yields
      (reduceApply ctx (nodeWithin inner ctx) (treeWithin inner ctx) f [x]) Q)
    (nesting : Nat) : Yields (nodeWithin nesting ctx (.apply f [x])) Q := by
  refine nodeWithin_fits hf hmatrix (.cons hx .nil) hundefined fun hstrict inner _ => ?_
  cases hstrict with
  | cons hx _ => exact h hx inner

theorem fits_operator (hf : f.isPlain = true) (hxs : List.Forall₂ Fits ss xs)
    (hs : f.extent? ss = some s) (nesting : Nat) :
    Yields (nodeWithin nesting ctx (.apply f xs)) (Fits s) := by
  have hkeeps := keepsScalars_nodeWithin ctx
  cases f with
  | addition =>
      cases hxs with
      | nil => cases hs
      | @cons t x ss xs hx hxs =>
          simp only [Operator.extent?, List.all_eq_true, decide_eq_true_eq,
            Option.ite_none_right_eq_some, Option.some_inj] at hs
          rcases hs with ⟨hall, rfl⟩
          refine fits_sum (List.cons_ne_nil x xs)
            (List.forall_mem_cons.mpr ⟨hx, forall_of_forall₂ hxs fun r hr y hy => ?_⟩) nesting
          rwa [hall r hr] at hy
  | multiplication => exact fits_product hxs hs nesting
  | subtraction =>
      rcases Operator.exists_operands hs hxs with ⟨x, y, rfl, hx, hy⟩
      refine nodeWithin_fits rfl (by decide) (.cons hx (.cons hy .nil)) (.inl rfl)
        fun _ inner _ => ?_
      exact (fits_negate hy inner).bind fun z hz =>
        fits_sum (List.cons_ne_nil x [z]) (forall_mem_pair hx hz) inner
  | opposite =>
      rcases Operator.exists_operand rfl hs hxs with ⟨t, x, rfl, rfl, hx⟩
      cases hs
      refine nodeWithin_function rfl (by decide) (.inl rfl) hx (fun hx inner => ?_) nesting
      exact fits_negate (.inr hx) inner
  | parenthesis =>
      rcases Operator.exists_operand rfl hs hxs with ⟨t, x, rfl, rfl, hx⟩
      cases hs
      refine nodeWithin_function rfl (by decide) (.inl rfl) hx (fun hx inner => ?_) nesting
      exact Yields.pure (.inr hx)
  | determinant =>
      rcases Operator.exists_operand rfl hs hxs with ⟨t, x, rfl, rfl, hx⟩
      rcases Option.ite_none_right_eq_some.mp hs with ⟨hsquare, hscalar⟩
      cases hscalar
      refine nodeWithin_function rfl (by decide) (.inl rfl) hx (fun hx inner => ?_) nesting
      exact (yields_determinant (hkeeps inner) hx hsquare).mono fun _ => .inr
  | trace =>
      rcases Operator.exists_operand rfl hs hxs with ⟨t, x, rfl, rfl, hx⟩
      rcases Option.ite_none_right_eq_some.mp hs with ⟨hsquare, hscalar⟩
      cases hscalar
      refine nodeWithin_function rfl (by decide) (.inl rfl) hx (fun hx inner => ?_) nesting
      exact (yields_trace (hkeeps inner) hx hsquare).mono fun _ => .inr
  | transpose =>
      rcases Operator.exists_operand rfl hs hxs with ⟨t, x, rfl, rfl, hx⟩
      cases hs
      refine nodeWithin_function rfl (by decide) (.inl rfl) hx (fun hx inner => ?_) nesting
      exact (yields_transpose hx).mono fun _ => .inr
  | dimension =>
      rcases Operator.exists_operand rfl hs hxs with ⟨t, x, rfl, rfl, hx⟩
      cases hs
      refine nodeWithin_function rfl (by decide) (.inl rfl) hx (fun hx inner => ?_) nesting
      refine (yields_dimension hx).mono fun y hy => .inr ?_
      rw [hy]
      exact hasExtent_dimension t
  | _ => cases hf

/-! ## Trees over operands that keep their extents -/

/-- What an expression with an extent is reduced to has this extent, if it fits into memory. -/
def KeepsExtent (ctx : Context) (x : Expr) : Prop :=
  ∀ s, x.extent? = some s → ∀ nesting ≤ maxNesting,
    Yields (treeWithin nesting ctx x) fun r => r.charge ≤ ctx.room → Fits s r

/-- What an operand of some extent is reduced to. -/
def Suits (ctx : Context) (x y : Expr) : Prop :=
  ∀ s, x.extent? = some s → y.charge ≤ ctx.room → Fits s y

theorem fits_of_suits {ys : List Expr}
    (hxs : List.Forall₂ (fun x s => x.extent? = some s) xs ss)
    (hys : List.Forall₂ (Suits ctx) xs ys) (hroom : chargeAll ys ≤ ctx.room) :
    List.Forall₂ Fits ss ys := by
  induction hxs generalizing ys with
  | nil =>
      cases hys
      exact .nil
  | cons hx _ ih =>
      cases hys with
      | cons hy hys =>
          rw [chargeAll] at hroom
          exact .cons (hy _ hx (by omega)) (ih hys (by omega))

theorem treeWithin_operands (hstore : f ≠ .store) (hscope : f.kind.isParametered = false)
    (hkeeps : ∀ x ∈ xs, KeepsExtent ctx x) (hxs : extents? xs = some ss)
    (hnode : ∀ ys, List.Forall₂ Fits ss ys → ∀ n, Yields (nodeWithin n ctx (.apply f ys)) Q)
    (hnesting : nesting ≤ maxNesting) : Yields (treeWithin nesting ctx (.apply f xs)) Q := by
  refine treeWithin_apply_below (R := Suits ctx) hstore hscope (fun x hx n hn => ?_)
    fun ys hys n _ => nodeWithin_room fun hroom => ?_
  · intro b r b' hr s hs
    exact hkeeps x hx s hs n (by omega) b r b' hr
  · rw [charge_eq] at hroom
    have hoperands : chargeAll ys ≤ ctx.room := Nat.le_of_add_right_le hroom
    exact hnode ys (fits_of_suits (extents?_eq_some_iff.mp hxs) hys hoperands) n

theorem treeWithin_symbol (hdefinitions : ctx.definitions = {}) (name : String) :
    Yields (treeWithin nesting ctx (.symbol name)) (Fits .scalar) := by
  refine treeWithin_leaf (by simp) (fun inner => ?_) nesting
  have hvalue : ctx.definitions.value? name = none := by
    rw [hdefinitions]
    rfl
  rw [reduceNode, symbol, hvalue]
  dsimp only
  split
  · exact Yields.pure (.inr (.symbol name))
  · rw [undefinedName]
    split
    · exact Yields.pure (.inl rfl)
    · exact Yields.pure (.inr (.symbol name))

theorem treeWithin_undefined : Yields (treeWithin nesting ctx .undefined) (Fits .scalar) := by
  refine treeWithin_apply (R := fun _ _ => True) (by decide) rfl (by simp)
    (fun ys hys n => ?_) nesting
  cases hys
  exact nodeWithin_unspoiled rfl fun _ _ => Yields.pure (.inl rfl)

theorem nodeWithin_matrix (hxs : ∀ x ∈ xs, IsScalar x) (nesting : Nat) :
    Yields (nodeWithin nesting ctx (.apply (.matrix rows columns) xs))
      (· = .apply (.matrix rows columns) xs) := by
  have hlists : xs.any isList = false := by
    rw [List.any_eq_false]
    intro x hx
    simp [(hxs x hx).isList]
  have hspoiled : spoiled? (.matrix rows columns) xs = none := by
    simp [spoiled?, hlists, Operator.kind, admitsMatrices]
  exact nodeWithin_unspoiled hspoiled fun _ _ => Yields.pure rfl

theorem treeWithin_matrix (hlength : xs.length = rows * columns)
    (hkeeps : ∀ x ∈ xs, KeepsExtent ctx x) (hxs : ∀ x ∈ xs, x.extent? = some .scalar)
    (hnesting : nesting ≤ maxNesting) :
    Yields (treeWithin nesting ctx (.apply (.matrix rows columns) xs))
      (HasExtent (.matrix rows columns)) := by
  refine treeWithin_operands (by simp) rfl hkeeps (extents?_of_forall hxs) (fun ys hys n => ?_)
    hnesting
  have hentries : ∀ y ∈ ys, IsScalar y := forall_of_forall₂ hys fun t ht y hy => by
    rw [List.eq_of_mem_replicate ht] at hy
    exact hy.isScalar
  have hentered := hys.length_eq
  rw [List.length_replicate, hlength] at hentered
  refine (nodeWithin_matrix hentries n).mono fun r hr => ?_
  exact ⟨⟨rows, columns, ys⟩, ⟨rfl, rfl, hentered.symm, hentries⟩, hr⟩

theorem treeWithin_inverse (hkeeps : KeepsExtent ctx x) (hx : x.extent? = some s)
    (hsquare : s.isSquare = true) (hnesting : nesting ≤ maxNesting) :
    Yields (treeWithin nesting ctx (.apply .matrixInverse [x])) fun r =>
      Fits s r ∨ Untouched s r := by
  have hextents : extents? [x] = some [s] := extents?_eq_some_iff.mpr (.cons hx .nil)
  refine treeWithin_operands (by decide) rfl (List.forall_mem_singleton.mpr hkeeps) hextents
    (fun ys hys n => ?_) hnesting
  cases hys with
  | @cons _ b _ _ hb hnil =>
      cases hnil
      refine nodeWithin_function rfl (by decide) (.inl (.inl rfl)) hb (fun hb inner => ?_) n
      exact yields_inverse (keepsScalars_nodeWithin ctx inner) hb hsquare

/-- The base is known by its extent, the exponent as a literal. -/
theorem treeWithin_power (hkeeps : KeepsExtent ctx x) (hx : x.extent? = some s)
    (hsquare : s.isSquare = true) {n : Int} (hy : y.wholeLiteral? = some n)
    (hnesting : nesting ≤ maxNesting) :
    Yields (treeWithin nesting ctx (.apply .power [x, y])) fun r => Fits s r ∨ Untouched s r := by
  have hoperand : ∀ z ∈ [x, y], ∀ inner < nesting, Yields (treeWithin inner ctx z) fun r =>
      (z = x → r.charge ≤ ctx.room → Fits s r) ∧ (z = y → r = .integer n) := by
    intro z _ k hk b r b' hr
    refine ⟨fun hzx => ?_, fun hzy => ?_⟩
    · subst hzx
      exact hkeeps s hx k (by omega) b r b' hr
    · subst hzy
      exact treeWithin_literal hy k b r b' hr
  refine treeWithin_apply_below (by decide) rfl hoperand fun zs hzs k _ => ?_
  rcases eq_pair_of_forall₂ hzs with ⟨b, e, hb, he, rfl⟩
  rw [he.2 rfl]
  refine nodeWithin_room fun hroom => ?_
  have hbase : b.charge ≤ ctx.room := by
    rw [charge_eq, operands, chargeAll] at hroom
    omega
  have hfits : List.Forall₂ Fits [s, .scalar] [b, .integer n] :=
    .cons (hb.1 rfl hbase) (.cons (fits_rational n) .nil)
  refine nodeWithin_fits rfl (by decide) hfits (.inl (.inl rfl)) fun hstrict inner _ => ?_
  cases hstrict with
  | cons hb _ => exact yields_power (keepsScalars_nodeWithin ctx inner) hb hsquare n

theorem treeWithin_plain (hf : f.isPlain = true) (hkeeps : ∀ x ∈ xs, KeepsExtent ctx x)
    (hxs : extents? xs = some ss) (hs : f.extent? ss = some s) (hnesting : nesting ≤ maxNesting) :
    Yields (treeWithin nesting ctx (.apply f xs)) (Fits s) := by
  refine treeWithin_operands ?_ ?_ hkeeps hxs (fun ys hys => fits_operator hf hys hs) hnesting
  · rintro rfl
    cases hf
  · cases f <;> first | rfl | cases hf

/-- Over operands that keep their extents, an expression does too, or is kept. -/
theorem treeWithin_extent (hdefinitions : ctx.definitions = {})
    (hkeeps : ∀ y ∈ x.operands, KeepsExtent ctx y) (hs : x.extent? = some s)
    (hnesting : nesting ≤ maxNesting) :
    Yields (treeWithin nesting ctx x) fun r => Fits s r ∨ Untouched s r := by
  cases measured_of_extent? hs with
  | rational q =>
      exact treeWithin_leaf (by simp) (fun _ => Yields.pure (.inl (fits_rational q))) nesting
  | symbol name => exact (treeWithin_symbol hdefinitions name).mono fun _ => .inl
  | undefined => exact treeWithin_undefined.mono fun _ => .inl
  | matrix hlength hxs =>
      exact (treeWithin_matrix hlength hkeeps hxs hnesting).mono fun _ hr => .inl (.inr hr)
  | power hx hsquare hy =>
      exact treeWithin_power (hkeeps _ List.mem_cons_self) hx hsquare hy hnesting
  | inverse hx hsquare =>
      exact treeWithin_inverse (hkeeps _ List.mem_cons_self) hx hsquare hnesting
  | plain hf hxs hs => exact (treeWithin_plain hf hkeeps hxs hs hnesting).mono fun _ => .inl

/-! ## Operands that are computed -/

/-- An expression that is not a scalar is not reduced to a power or an inverse. -/
def Computed (ctx : Context) (x : Expr) : Prop :=
  x.extent? ≠ some .scalar →
    ∀ r, x.reduce ctx {} = .ok r → isPowerOrInverse r = false

instance (ctx : Context) : DecidablePred (Computed ctx) := fun x =>
  decidable_of_iff
    (x.extent? = some .scalar ∨
      (x.reduce ctx {}).toOption.all (fun r => !isPowerOrInverse r) = true) <| by
    rw [Computed, Ne, ← or_iff_not_imp_left]
    refine or_congr_right ?_
    cases x.reduce ctx {} <;> simp [Except.toOption]

theorem not_untouched_of_computed (htarget : ctx.settings.target ≠ .user)
    (hroom : x.charge ≤ ctx.room) (hx : Computed ctx x) (hs : x.extent? = some s)
    (hnesting : nesting ≤ maxNesting) :
    Yields (treeWithin nesting ctx x) fun r => r.charge ≤ ctx.room → ¬ Untouched s r := by
  intro b r b' hr hcharge huntouched
  rcases prolongs_reduceWithin hnesting ctx (.tree x) b {} (Breaker.outlasts_default b) r b' hr
    with ⟨_, c, hmax, rfl, _⟩
  have hreduced := reduce_of_reduceWithin htarget hroom hcharge hmax
  have hscalar : x.extent? ≠ some .scalar := by
    rw [hs]
    exact fun h => huntouched.ne_scalar (Option.some.inj h)
  have hfalse := hx hscalar r hreduced
  rw [huntouched.isPowerOrInverse] at hfalse
  cases hfalse

theorem keepsExtent_of_everywhere (hdefinitions : ctx.definitions = {})
    (htarget : ctx.settings.target ≠ .user) (hroom : x.charge ≤ ctx.room)
    (hx : x.Everywhere (Computed ctx)) : KeepsExtent ctx x := by
  induction hx with
  | @node x here below ih =>
      intro s hs nesting hnesting
      have hoperands : ∀ y ∈ x.operands, KeepsExtent ctx y := by
        intro y hy
        have hcharge := charge_le_chargeAll hy
        rw [charge_eq] at hroom
        exact ih y hy (by omega)
      refine ((treeWithin_extent hdefinitions hoperands hs hnesting).and
        (not_untouched_of_computed htarget hroom here hs hnesting)).mono fun r hr hcharge => ?_
      exact hr.1.resolve_right (hr.2 hcharge)

/-! ## Whole reductions -/

theorem treeWithin_dimension (hkeeps : KeepsExtent ctx x) (hx : x.extent? = some s) :
    Yields (treeWithin maxNesting ctx (.apply .dimension [x])) fun r =>
      r = .undefined ∨ r = .apply (.matrix 1 2) [.integer s.sides.1, .integer s.sides.2] := by
  have hextents : extents? [x] = some [s] := extents?_eq_some_iff.mpr (.cons hx .nil)
  refine treeWithin_operands (by decide) rfl (List.forall_mem_singleton.mpr hkeeps) hextents
    (fun ys hys n => ?_) le_rfl
  cases hys with
  | @cons _ b _ _ hb hnil =>
      cases hnil
      refine nodeWithin_function rfl (by decide) (.inl rfl) hb (fun hb inner => ?_) n
      exact (yields_dimension hb).mono fun _ => .inr

/-- Where no power or inverse of a matrix is left as it is below the top of an expression, what it
is reduced to is undefined or has the extent of the expression, and the dimensions of a scalar or a
matrix are those of its extent. -/
theorem reduce_extent {settings : Settings} {room : Nat} {breaker : Breaker} {r : Expr}
    (htarget : settings.target ≠ .user) (hs : x.extent? = some s)
    (hoperands : ∀ y ∈ x.operands, y.Everywhere (Computed ⟨settings, {}, room, []⟩))
    (hr : x.reduce ⟨settings, {}, room, []⟩ breaker = .ok r) :
    (r = .undefined ∨ r.extent? = some s) ∧
      ∀ y t, x = .apply .dimension [y] → y.extent? = some t →
        r = .undefined ∨ r = .apply (.matrix 1 2) [.integer t.sides.1, .integer t.sides.2] := by
  have hroom : x.charge ≤ room := charge_le_of_reduce hr
  have hkeeps : ∀ y ∈ x.operands, KeepsExtent ⟨settings, {}, room, []⟩ y := by
    intro y hy
    have hcharge := charge_le_chargeAll hy
    rw [charge_eq] at hroom
    exact keepsExtent_of_everywhere rfl htarget (show y.charge ≤ room by omega) (hoperands y hy)
  constructor
  · rcases of_reduce (treeWithin_extent rfl hkeeps hs le_rfl) htarget hr with hfits | huntouched
    · exact hfits.imp_right HasExtent.extent?
    · exact .inr huntouched.extent?_eq
  · rintro y t rfl ht
    exact of_reduce (treeWithin_dimension (hkeeps y List.mem_cons_self) ht) htarget hr

/-- `inverse([[2,1][1,1]])×[[x,y,1][y,x,2]]` -/
def numbersTimesNames : Expr :=
  .apply .multiplication
    [.apply .matrixInverse [.apply (.matrix 2 2)
      [.integer 2, .integer 1, .integer 1, .integer 1]],
      .apply (.matrix 2 3)
        [.symbol "x", .symbol "y", .integer 1, .symbol "y", .symbol "x", .integer 2]]

theorem reduce_extent_numbersTimesNames : ∃ r,
    (Expr.apply .dimension [numbersTimesNames]).reduce
        ⟨{ target := .systemForAnalysis }, {}, 4096, []⟩ {} = .ok r ∧
      r.extent? = some (.matrix 1 2) ∧ r = .apply (.matrix 1 2) [.integer 2, .integer 3] := by
  have hresult : ((Expr.apply .dimension [numbersTimesNames]).reduce
      ⟨{ target := .systemForAnalysis }, {}, 4096, []⟩ {}).toOption.map Expr.kind =
        some .matrix := by
    decide +kernel
  rcases exists_ok hresult with ⟨r, hr, hkind⟩
  have hdefined : r ≠ .undefined := by
    rintro rfl
    cases hkind
  have hoperands : ∀ y ∈ [numbersTimesNames], y.Everywhere
      (Computed ⟨{ target := .systemForAnalysis }, {}, 4096, []⟩) := by
    decide +kernel
  have hextents := reduce_extent (x := .apply .dimension [numbersTimesNames]) (s := .matrix 1 2)
    (by decide) (by decide) hoperands hr
  exact ⟨r, hr, hextents.1.resolve_left hdefined,
    (hextents.2 numbersTimesNames (.matrix 2 3) rfl (by decide)).resolve_left hdefined⟩

/-- `inverse([[x,1][1,y]])` -/
def inverseOfNames : Expr :=
  .apply .matrixInverse [.apply (.matrix 2 2)
    [.symbol "x", .integer 1, .integer 1, .symbol "y"]]

/-- An inverse that is kept is taken for a scalar: it has the dimensions of one, and it is its own
trace. -/
theorem reduce_keptInverse : ∃ r s,
    (Expr.apply .dimension [inverseOfNames]).reduce
        ⟨{ target := .systemForAnalysis }, {}, 4096, []⟩ {} = .ok r ∧
      (Expr.apply .trace [inverseOfNames]).reduce
        ⟨{ target := .systemForAnalysis }, {}, 4096, []⟩ {} = .ok s ∧
      (inverseOfNames.extent?, r.same (.apply (.matrix 1 2) [.integer 1, .integer 1])) =
        (some (.matrix 2 2), true) ∧
      ((Expr.apply .trace [inverseOfNames]).extent?, s.extent?) =
        (some .scalar, some (.matrix 2 2)) := by
  have hdimensions : ((Expr.apply .dimension [inverseOfNames]).reduce
      ⟨{ target := .systemForAnalysis }, {}, 4096, []⟩ {}).toOption.map
        (·.same (.apply (.matrix 1 2) [.integer 1, .integer 1])) = some true := by
    decide +kernel
  have htrace : ((Expr.apply .trace [inverseOfNames]).reduce
      ⟨{ target := .systemForAnalysis }, {}, 4096, []⟩ {}).toOption.map Expr.extent? =
        some (some (.matrix 2 2)) := by
    decide +kernel
  rcases exists_ok hdimensions with ⟨r, hr, hsame⟩
  rcases exists_ok htrace with ⟨s, hs, hextent⟩
  refine ⟨r, s, hr, hs, ?_, ?_⟩
  · rw [hsame]
    decide
  · rw [hextent]
    decide

end Reduction

end PocketAlgebra

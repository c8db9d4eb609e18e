import PocketAlgebra.Expr.Order
import PocketAlgebra.Expr.Substitution
import PocketAlgebra.Proofs.Reduction.Yields

/-!
# The shape of canonical trees

What reduction leaves: no operator that can be written with others, flat sums and products with at
most one number, no poison below the root unless it is an entry of a matrix or list, and lists only
where they are taken as a whole.
-/

namespace PocketAlgebra

namespace Shape

open PocketAlgebra.Expr Reduction

/-! ## Canonical trees -/

/-- The operators that are written with others in canonical trees. -/
def isReplaced : Operator → Bool
  | .subtraction | .division | .opposite | .parenthesis | .store => true
  | .squareRoot | .nthRoot | .naturalLogarithm | .commonLogarithm => true
  | _ => false

/-- The terms of a canonical sum. -/
structure SumShape (xs : List Expr) : Prop where
  many : 2 ≤ xs.length
  flat : ∀ x ∈ xs, x.kind ≠ .addition
  constant : xs.countP (·.kind == .rational) ≤ 1
  nonzero : ∀ x ∈ xs, x ≠ .rational 0

/-- The factors of a canonical product. -/
structure ProductShape (xs : List Expr) : Prop where
  many : 2 ≤ xs.length
  flat : ∀ x ∈ xs, x.kind ≠ .addition ∧ x.kind ≠ .multiplication
  leading : ∀ x ∈ xs.tail, x.kind ≠ .rational
  coefficient : ∀ x ∈ xs, x ≠ .rational 0 ∧ x ≠ .rational 1

/-- The operand that names the variable of a function that binds one is a symbol. -/
def NamesVariable (f : Operator) (xs : List Expr) : Prop :=
  f.kind.isParametered = true → ∀ x, xs[1]? = some x → x.kind = .symbol

/-- A node of a canonical tree, as far as it concerns its operands alone. -/
structure NodeShape (f : Operator) (xs : List Expr) : Prop where
  kept : isReplaced f = false
  sum : f = .addition → SumShape xs
  product : f = .multiplication → ProductShape xs
  poison : ∀ x ∈ xs, x.kind.isPoison = true → f = .list ∨ f.kind = .matrix
  lists : ∀ x ∈ xs, x.isList = true → f.kind.isListFunction = true
  bound : NamesVariable f xs

/-- A tree all of whose nodes are those of a canonical tree. -/
inductive Canonical : Expr → Prop where
  | rational (q : Rat) : Canonical (.rational q)
  | infinity (negative : Bool) : Canonical (.infinity negative)
  | constant (c : Constant) : Canonical (.constant c)
  | symbol (name : String) : Canonical (.symbol name)
  | apply {f : Operator} {xs : List Expr} (shape : NodeShape f xs)
      (operands : ∀ x ∈ xs, Canonical x) : Canonical (.apply f xs)

/-- A tree in which all variables that functions bind are symbols. -/
inductive BindsSymbols : Expr → Prop where
  | rational (q : Rat) : BindsSymbols (.rational q)
  | decimal (d : Decimal) : BindsSymbols (.decimal d)
  | infinity (negative : Bool) : BindsSymbols (.infinity negative)
  | constant (c : Constant) : BindsSymbols (.constant c)
  | symbol (name : String) : BindsSymbols (.symbol name)
  | apply {f : Operator} {xs : List Expr} (bound : NamesVariable f xs)
      (operands : ∀ x ∈ xs, BindsSymbols x) : BindsSymbols (.apply f xs)

/-- Definitions all of whose bodies bind symbols only. -/
def DefinesSymbols (ds : Definitions) : Prop :=
  ∀ entry ∈ ds.entries, BindsSymbols entry.2.body

mutual

/-- Whether all variables that functions bind are symbols. -/
def bindsSymbols : Expr → Bool
  | .apply f xs =>
    (!f.kind.isParametered || xs[1]?.all (·.kind == .symbol)) && bindsSymbolsAll xs
  | _ => true

/-- The same for several trees. -/
def bindsSymbolsAll : List Expr → Bool
  | [] => true
  | x :: xs => bindsSymbols x && bindsSymbolsAll xs

end

theorem bindsSymbolsAll_iff {xs : List Expr} :
    bindsSymbolsAll xs = true ↔ ∀ x ∈ xs, bindsSymbols x = true := by
  induction xs with
  | nil => simp [bindsSymbolsAll]
  | cons x xs ih => simp [bindsSymbolsAll, ih]

theorem namesVariable_iff {f : Operator} {xs : List Expr} :
    (!f.kind.isParametered || xs[1]?.all (·.kind == .symbol)) = true ↔ NamesVariable f xs := by
  rw [NamesVariable]
  cases f.kind.isParametered <;> cases xs[1]? <;> simp

theorem BindsSymbols.of_eq_true (x : Expr) (h : bindsSymbols x = true) : BindsSymbols x :=
  match x with
  | .rational q => .rational q
  | .decimal d => .decimal d
  | .infinity negative => .infinity negative
  | .constant c => .constant c
  | .symbol name => .symbol name
  | .apply f xs => by
      rw [bindsSymbols, Bool.and_eq_true, namesVariable_iff, bindsSymbolsAll_iff] at h
      exact .apply h.1 fun y hy => .of_eq_true y (h.2 y hy)
termination_by x.size
decreasing_by exact size_lt_of_mem hy

theorem bindsSymbols_iff {x : Expr} : bindsSymbols x = true ↔ BindsSymbols x := by
  refine ⟨.of_eq_true x, fun h => ?_⟩
  induction h with
  | apply bound _ ih =>
      rw [bindsSymbols, Bool.and_eq_true, namesVariable_iff, bindsSymbolsAll_iff]
      exact ⟨bound, ih⟩
  | _ => rfl

instance (x : Expr) : Decidable (BindsSymbols x) :=
  decidable_of_iff _ bindsSymbols_iff

instance (ds : Definitions) : Decidable (DefinesSymbols ds) :=
  inferInstanceAs (Decidable (∀ entry ∈ ds.entries, BindsSymbols entry.2.body))

theorem Canonical.bindsSymbols {x : Expr} (h : Canonical x) : BindsSymbols x := by
  induction h with
  | rational q => exact .rational q
  | infinity negative => exact .infinity negative
  | constant c => exact .constant c
  | symbol name => exact .symbol name
  | apply shape _ ih => exact .apply shape.bound ih

/-! ## What may stand where -/

/-- A canonical tree that may be an entry of a matrix or list: no list. -/
def Entry (x : Expr) : Prop :=
  Canonical x ∧ x.isList = false

/-- A canonical tree that may be an operand of any function: neither poison nor a list. -/
def Proper (x : Expr) : Prop :=
  Entry x ∧ x.kind.isPoison = false

theorem Proper.canonical {x : Expr} (h : Proper x) : Canonical x :=
  h.1.1

theorem Entry.bindsSymbols {x : Expr} (h : Entry x) : BindsSymbols x :=
  h.1.bindsSymbols

theorem proper_rational (q : Rat) : Proper (.rational q) :=
  ⟨⟨.rational q, rfl⟩, rfl⟩

theorem proper_integer (n : Int) : Proper (.integer n) :=
  proper_rational n

theorem proper_infinity (negative : Bool) : Proper (.infinity negative) :=
  ⟨⟨.infinity negative, rfl⟩, rfl⟩

theorem proper_constant (c : Constant) : Proper (.constant c) :=
  ⟨⟨.constant c, rfl⟩, rfl⟩

/-! ## Nodes that reduction keeps as they are -/

/-- The operators that ask nothing of their operands except that they are proper. -/
def isPlain : Operator → Bool
  | .addition | .multiplication | .derivative | .integral | .sum | .product => false
  | f => !isReplaced f

variable {f : Operator} {x y : Expr} {xs ys : List Expr}

theorem namesVariable_of_plain (hf : isPlain f = true) : NamesVariable f xs := by
  intro hbinds
  cases f <;> simp_all [isPlain, Operator.kind, Kind.isParametered]

theorem NodeShape.of_plain (hf : isPlain f = true)
    (hpoison : ∀ x ∈ xs, x.kind.isPoison = true → f = .list ∨ f.kind = .matrix)
    (hlists : ∀ x ∈ xs, x.isList = true → f.kind.isListFunction = true) : NodeShape f xs where
  kept := by cases f <;> simp_all [isPlain]
  sum := by rintro rfl; cases hf
  product := by rintro rfl; cases hf
  poison := hpoison
  lists := hlists
  bound := namesVariable_of_plain hf

theorem canonical_plain (hf : isPlain f = true) (hxs : ∀ x ∈ xs, Proper x) :
    Canonical (.apply f xs) := by
  refine .apply (.of_plain hf (fun x hx hpoison => ?_) fun x hx hlist => ?_)
    fun x hx => (hxs x hx).canonical
  · rw [(hxs x hx).2] at hpoison
    cases hpoison
  · rw [(hxs x hx).1.2] at hlist
    cases hlist

/-- The functions that bind a variable ask that a symbol names it. -/
theorem canonical_binding (hf : f.kind.isParametered = true) (hxs : ∀ x ∈ xs, Proper x)
    (hbound : NamesVariable f xs) : Canonical (.apply f xs) := by
  refine .apply ⟨?_, ?_, ?_, fun x hx hpoison => ?_, fun x hx hlist => ?_, hbound⟩
    fun x hx => (hxs x hx).canonical
  · cases f <;> first | rfl | cases hf
  · rintro rfl
    cases hf
  · rintro rfl
    cases hf
  · rw [(hxs x hx).2] at hpoison
    cases hpoison
  · rw [(hxs x hx).1.2] at hlist
    cases hlist

/-- The operators whose nodes are neither poison nor lists. -/
def isProper (f : Operator) : Bool :=
  isPlain f && !f.kind.isPoison && f != .list

theorem proper_plain (hf : isProper f = true) (hxs : ∀ x ∈ xs, Proper x) :
    Proper (.apply f xs) := by
  simp only [isProper, Bool.and_eq_true, Bool.not_eq_true', bne_iff_ne, ne_eq] at hf
  obtain ⟨⟨hplain, hpoison⟩, hlist⟩ := hf
  refine ⟨⟨canonical_plain hplain hxs, ?_⟩, hpoison⟩
  cases f <;> first | rfl | exact absurd rfl hlist

theorem proper_matrix {rows columns : Nat} (hxs : ∀ x ∈ xs, Entry x) :
    Proper (.apply (.matrix rows columns) xs) := by
  refine ⟨⟨.apply (.of_plain rfl (fun x hx _ => .inr rfl) fun x hx hlist => ?_)
    fun x hx => (hxs x hx).1, rfl⟩, rfl⟩
  rw [(hxs x hx).2] at hlist
  cases hlist

theorem entry_undefined : Entry .undefined :=
  ⟨canonical_plain rfl (by simp), rfl⟩

theorem entry_nonreal : Entry .nonreal :=
  ⟨canonical_plain rfl (by simp), rfl⟩

/-! ## Operands of canonical nodes -/

theorem Canonical.shape (h : Canonical (.apply f xs)) : NodeShape f xs := by
  cases h with
  | apply shape _ => exact shape

theorem Canonical.operand (h : Canonical (.apply f xs)) (hx : x ∈ xs) : Canonical x := by
  cases h with
  | apply _ operands => exact operands x hx

/-- The operators that may have poison or lists as operands. -/
def admitsAny : Operator → Bool
  | .matrix _ _ | .list | .listSum | .listMean => true
  | _ => false

/-- Operands are proper, except for those of matrices, lists and functions of lists. -/
theorem Canonical.operand_proper (h : Canonical (.apply f xs)) (hf : admitsAny f = false)
    (hx : x ∈ xs) : Proper x := by
  refine ⟨⟨h.operand hx, ?_⟩, ?_⟩
  · rw [Bool.eq_false_iff]
    intro hlist
    have hkind := h.shape.lists x hx hlist
    cases f <;> simp_all [admitsAny, Operator.kind, Kind.isListFunction]
  · rw [Bool.eq_false_iff]
    intro hpoison
    have hkind := h.shape.poison x hx hpoison
    cases f <;> simp_all [admitsAny, Operator.kind]

/-- No matrix and no list has a list as an entry. -/
theorem Canonical.operand_entry (h : Canonical (.apply f xs))
    (hf : f.kind.isListFunction = false) (hx : x ∈ xs) : Entry x := by
  refine ⟨h.operand hx, ?_⟩
  rw [Bool.eq_false_iff]
  intro hlist
  rw [h.shape.lists x hx hlist] at hf
  cases hf

/-! ## Flattening -/

theorem exists_rational_of_kind (h : x.kind = .rational) : ∃ q, x = .rational q := by
  cases x with
  | rational q => exact ⟨q, rfl⟩
  | apply g _ => cases g <;> cases h
  | _ => cases h

theorem exists_operands_of_kind (hf : f = .addition ∨ f = .multiplication)
    (h : x.kind = f.kind) : ∃ xs, x = .apply f xs := by
  cases x with
  | apply g xs =>
      refine ⟨xs, ?_⟩
      rcases hf with rfl | rfl <;> cases g <;> first | rfl | cases h
  | _ => rcases hf with rfl | rfl <;> cases h

/-- Canonical sums and products are flat. -/
theorem Canonical.flat (h : Canonical (.apply f xs)) (hf : f = .addition ∨ f = .multiplication)
    (hx : x ∈ xs) : x.kind ≠ f.kind := by
  rcases hf with rfl | rfl
  · exact (h.shape.sum rfl).flat x hx
  · exact ((h.shape.product rfl).flat x hx).2

/-- So they are flattened in one step, into proper operands. -/
theorem Canonical.flatten_cases (h : Canonical x) (hf : f = .addition ∨ f = .multiplication)
    (hy : y ∈ flatten f x) : y.kind ≠ f.kind ∧ (y = x ∨ Proper y) := by
  by_cases hkind : x.kind = f.kind
  · rcases exists_operands_of_kind hf hkind with ⟨xs, rfl⟩
    rw [flatten, if_pos rfl, mem_flattenAll] at hy
    rcases hy with ⟨z, hz, hy⟩
    have hne := h.flat hf hz
    rw [flatten_of_ne hne, List.mem_singleton] at hy
    subst hy
    have hadmits : admitsAny f = false := by rcases hf with rfl | rfl <;> rfl
    exact ⟨hne, .inr (h.operand_proper hadmits hz)⟩
  · rw [flatten_of_ne hkind, List.mem_singleton] at hy
    subst hy
    exact ⟨hkind, .inl rfl⟩

theorem flatten_entry (h : Entry x) (hf : f = .addition ∨ f = .multiplication)
    (hy : y ∈ flatten f x) : Entry y ∧ y.kind ≠ f.kind := by
  rcases h.1.flatten_cases hf hy with ⟨hne, rfl | hproper⟩
  · exact ⟨h, hne⟩
  · exact ⟨hproper.1, hne⟩

theorem flattenAll_proper (h : ∀ x ∈ xs, Proper x) (hf : f = .addition ∨ f = .multiplication) :
    ∀ y ∈ flattenAll f xs, Proper y ∧ y.kind ≠ f.kind := by
  intro y hy
  rcases mem_flattenAll.mp hy with ⟨x, hx, hy⟩
  rcases (h x hx).canonical.flatten_cases hf hy with ⟨hne, rfl | hproper⟩
  · exact ⟨h y hx, hne⟩
  · exact ⟨hproper, hne⟩

/-! ## Poison -/

theorem poison?_entry {poison : Expr} (h : poison? xs = some poison) : Entry poison := by
  rw [poison?] at h
  split at h
  · cases h
    exact entry_undefined
  · split at h
    · cases h
      exact entry_nonreal
    · cases h

theorem isPoison_of_poison?_eq_none (h : poison? xs = none) (hx : x ∈ xs) :
    x.kind.isPoison = false := by
  rw [poison?] at h
  split at h
  · cases h
  · split at h
    · cases h
    · rename_i hundefined hnonreal
      rw [Bool.not_eq_true, List.any_eq_false] at hundefined hnonreal
      have hundefined := hundefined x hx
      have hnonreal := hnonreal x hx
      cases hkind : x.kind <;> simp_all [Kind.isPoison]

/-! ## Lists of parts -/

/-- What is taken from each of several expressions, where something is taken from all. -/
theorem forall_of_mapM_eq_some {α : Type} {part? : Expr → Option α} {P : α → Prop}
    (hpart : ∀ x ∈ xs, ∀ part, part? x = some part → P part) {parts : List α}
    (h : xs.mapM part? = some parts) : ∀ part ∈ parts, P part := by
  induction xs generalizing parts with
  | nil =>
      cases h
      exact List.forall_mem_nil _
  | cons x xs ih =>
      rw [List.mapM_cons] at h
      rcases Option.bind_eq_some_iff.mp h with ⟨part, hx, h⟩
      rcases Option.bind_eq_some_iff.mp h with ⟨tail, htail, h⟩
      cases h
      exact List.forall_mem_cons.mpr ⟨hpart x List.mem_cons_self part hx,
        ih (fun y hy => hpart y (List.mem_cons_of_mem x hy)) htail⟩

/-! ## What rules rely on -/

/-- The operators whose nodes are reduced in the course of a rule. -/
def isCalled : Operator → Bool
  | .addition | .multiplication | .power | .logarithm => true
  | f => f.kind.isTrigonometric

/-- A reduction of nodes with entries for operands that gives entries again. -/
def KeepsShape (node : NodeReducer) : Prop :=
  ∀ f xs, isCalled f = true → (∀ x ∈ xs, Entry x) → Yields (node (.apply f xs)) Entry

namespace KeepsShape

variable {node : NodeReducer}

theorem add (hnode : KeepsShape node) (hxs : ∀ x ∈ xs, Entry x) :
    Yields (Reduction.add node xs) Entry :=
  hnode .addition xs rfl hxs

theorem multiply (hnode : KeepsShape node) (hxs : ∀ x ∈ xs, Entry x) :
    Yields (Reduction.multiply node xs) Entry :=
  hnode .multiplication xs rfl hxs

theorem power (hnode : KeepsShape node) (hx : Entry x) (hy : Entry y) :
    Yields (Reduction.power node x y) Entry :=
  hnode .power [x, y] rfl (by simp [hx, hy])

theorem negate (hnode : KeepsShape node) (hx : Entry x) : Yields (Reduction.negate node x) Entry :=
  hnode.multiply (by simp [hx, (proper_integer (-1)).1])

theorem invert (hnode : KeepsShape node) (hx : Entry x) : Yields (Reduction.invert node x) Entry :=
  hnode.power hx (proper_integer (-1)).1

end KeepsShape

end Shape

end PocketAlgebra

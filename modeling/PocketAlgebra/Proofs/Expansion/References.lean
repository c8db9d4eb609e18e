import Mathlib.Data.List.Chain
import Mathlib.Data.List.Perm.Subperm
import Mathlib.Logic.Function.Iterate
import Mathlib.Logic.Relation
import PocketAlgebra.Expr.Order
import PocketAlgebra.Proofs.Evaluation.Exact
import PocketAlgebra.Reduction.Engine
import PocketAlgebra.Reduction.Name

/-!
# References between definitions

A definition refers to the names of all symbols and functions in its tree, except that a function
does not refer to its parameter. A name is circular where a way along such references leads back to
it. A shortest way visits no name twice, and visits only names that are defined; so no longer ways
than there are definitions need to be looked for.

Inside the scope of a function that binds a variable, the name of the variable does not refer to a
definition; nor does the operand that names the variable, or the parameter of a function in its
body. A reference is free where neither is the case. The search for circular names follows the
references to all names that stand in a definition, free or not. So it finds every name that leads
back to itself along free references, and it finds as well those that lead back only where a
definition on the way mentions the next name as a bound variable.
-/

open Relation

namespace PocketAlgebra

namespace Expr

/-- A tree stands somewhere in another one. -/
inductive Within : Expr → Expr → Prop
  | whole {x} : Within x x
  | operand {x f xs y} : y ∈ xs → Within x y → Within x (apply f xs)

variable {name other : String} {parameter : Option String} {f : Operator} {x y : Expr}
  {xs : List Expr}

theorem within_apply : Within x (apply f xs) ↔ x = apply f xs ∨ ∃ y ∈ xs, Within x y := by
  constructor
  · intro h
    cases h with
    | whole => exact .inl rfl
    | operand hy hx => exact .inr ⟨_, hy, hx⟩
  · rintro (rfl | ⟨y, hy, hx⟩)
    · exact .whole
    · exact .operand hy hx

/-! ## The names in a tree -/

theorem mem_referencesAll :
    name ∈ referencesAll parameter xs ↔ ∃ x ∈ xs, name ∈ x.references parameter := by
  induction xs with
  | nil => simp [referencesAll]
  | cons x xs ih => simp [referencesAll, ih]

theorem mem_references_apply : name ∈ (apply f xs).references parameter ↔
    f = .function name ∨ ∃ x ∈ xs, name ∈ x.references parameter := by
  rw [← mem_referencesAll]
  by_cases hf : ∃ other, f = .function other
  · rcases hf with ⟨other, rfl⟩
    simp [references, eq_comm]
  · have hreferences : (apply f xs).references parameter = referencesAll parameter xs := by
      rw [references]
      intro other hother
      exact hf ⟨other, hother⟩
    have hname : f ≠ .function name := fun h => hf ⟨name, h⟩
    rw [hreferences]
    simp [hname]

theorem mem_references_symbol : name ∈ (symbol other).references parameter ↔
    other = name ∧ parameter ≠ some name := by
  rw [references]
  split
  · rename_i hparameter
    simp only [List.not_mem_nil, false_iff, not_and, not_not]
    rintro rfl
    exact hparameter
  · rename_i hparameter
    rw [List.mem_singleton]
    constructor
    · rintro rfl
      exact ⟨rfl, hparameter⟩
    · exact fun h => h.1.symm

/-- The references of a tree are its symbols and functions, without the symbol of the parameter. -/
theorem mem_references (x : Expr) : name ∈ x.references parameter ↔
    (Within (.symbol name) x ∧ parameter ≠ some name) ∨
      ∃ ys, Within (.apply (.function name) ys) x := by
  cases x with
  | symbol other =>
      rw [mem_references_symbol]
      constructor
      · rintro ⟨rfl, hparameter⟩
        exact .inl ⟨.whole, hparameter⟩
      · rintro (⟨⟨⟩, hparameter⟩ | ⟨ys, ⟨⟩⟩)
        exact ⟨rfl, hparameter⟩
  | apply f xs =>
      have hoperand : ∀ x ∈ xs, _ := fun x hx => mem_references x
      rw [mem_references_apply]
      constructor
      · rintro (rfl | ⟨x, hx, hname⟩)
        · exact .inr ⟨xs, .whole⟩
        · rcases (hoperand x hx).mp hname with ⟨hsymbol, hparameter⟩ | ⟨ys, hcall⟩
          · exact .inl ⟨.operand hx hsymbol, hparameter⟩
          · exact .inr ⟨ys, .operand hx hcall⟩
      · rintro (⟨hsymbol, hparameter⟩ | ⟨ys, hcall⟩)
        · rcases within_apply.mp hsymbol with heq | ⟨x, hx, hsymbol⟩
          · cases heq
          · exact .inr ⟨x, hx, (hoperand x hx).mpr (.inl ⟨hsymbol, hparameter⟩)⟩
        · rcases within_apply.mp hcall with heq | ⟨x, hx, hcall⟩
          · cases heq
            exact .inl rfl
          · exact .inr ⟨x, hx, (hoperand x hx).mpr (.inr ⟨ys, hcall⟩)⟩
  | _ =>
      constructor
      · nofun
      · rintro (⟨⟨⟩, _⟩ | ⟨ys, ⟨⟩⟩)
termination_by x.size
decreasing_by exact size_lt_of_mem hx

end Expr

namespace Definitions

/-- The definition of a name refers to another one. -/
def Refers (ds : Definitions) (name other : String) : Prop :=
  ∃ d, ds.get? name = some d ∧ ((Expr.Within (.symbol other) d.body ∧ d.parameter? ≠ some other) ∨
    ∃ xs, Expr.Within (.apply (.function other) xs) d.body)

variable {ds : Definitions} {name other : String} {names path : List String} {steps : Nat}

theorem mem_referencesOf : other ∈ ds.referencesOf name ↔ ds.Refers name other := by
  rw [referencesOf, Refers]
  cases ds.get? name with
  | none => simp
  | some d => simp [Definition.references, Expr.mem_references]

theorem Refers.defined (h : ds.Refers name other) : (ds.get? name).isSome = true := by
  rcases h with ⟨d, hd, _⟩
  rw [hd]
  rfl

/-! ## Definitions of values and functions -/

theorem get?_of_value? {body : Expr} (h : ds.value? name = some body) :
    ds.get? name = some (.value body) := by
  rcases Option.bind_eq_some_iff.mp h with ⟨d, hd, hvalue⟩
  cases d with
  | value => rw [hd, Option.some.inj hvalue]
  | function => cases hvalue

theorem get?_of_function? {parameter : String} {body : Expr}
    (h : ds.function? name = some (parameter, body)) :
    ds.get? name = some (.function parameter body) := by
  rcases Option.bind_eq_some_iff.mp h with ⟨d, hd, hfunction⟩
  cases d with
  | value => cases hfunction
  | function => cases hfunction; exact hd

/-! ## Ways without repetitions -/

theorem mem_entries_of_get? {d : Definition} (h : ds.get? name = some d) :
    (name, d) ∈ ds.entries := by
  rcases List.lookup_eq_some_iff.mp h with ⟨front, rest, heq, _⟩
  rw [heq]
  exact List.mem_append_right front List.mem_cons_self

theorem mem_names_of_isSome (h : (ds.get? name).isSome = true) : name ∈ ds.names := by
  rcases Option.isSome_iff_exists.mp h with ⟨d, hd⟩
  exact List.mem_map_of_mem (f := Prod.fst) (mem_entries_of_get? hd)

/-- Different names that are defined are no more than the definitions. -/
theorem length_le_size (hnodup : names.Nodup)
    (hdefined : ∀ name ∈ names, (ds.get? name).isSome = true) : names.length ≤ ds.size := by
  have hsubset : names ⊆ ds.names := fun name hname => mem_names_of_isSome (hdefined name hname)
  have hlength := (hnodup.subperm hsubset).length_le
  rwa [Definitions.names, List.length_map] at hlength

/-- A way from one name to another can be cut short until no name comes twice. -/
theorem exists_nodup_path {r : String → String → Prop} {a b : String} (h : ReflTransGen r a b) :
    ∃ path, (a :: path).Nodup ∧ (a :: path).IsChain r ∧ (a :: path).getLast? = some b := by
  induction h using ReflTransGen.head_induction_on with
  | refl => exact ⟨[], by simp, by simp, rfl⟩
  | @head a c hac _ ih =>
      rcases ih with ⟨path, hnodup, hchain, hlast⟩
      by_cases hmem : a ∈ c :: path
      · rcases List.append_of_mem hmem with ⟨before, after, hsplit⟩
        have hsuffix : (a :: after) <:+ (c :: path) := ⟨before, hsplit.symm⟩
        refine ⟨after, hnodup.sublist hsuffix.sublist, hchain.suffix hsuffix, ?_⟩
        rw [← hlast, hsplit, List.getLast?_append, List.getLast?_cons, Option.some_or]
      · refine ⟨c :: path, List.nodup_cons.mpr ⟨hmem, hnodup⟩, hchain.cons_cons hac, ?_⟩
        rw [List.getLast?_cons_cons, hlast]

theorem subset_reachable (ds : Definitions) (steps : Nat) (names : List String) :
    names ⊆ ds.reachable steps names := by
  induction steps generalizing names with
  | zero => exact List.Subset.refl names
  | succ steps ih =>
      intro name hname
      exact ih _ (List.mem_eraseDups.mpr (List.mem_append_left _ hname))

theorem reachable_of_path {a : String} (ha : a ∈ names) (hchain : (a :: path).IsChain ds.Refers)
    (hlength : path.length ≤ steps) : ∀ b ∈ (a :: path).getLast?, b ∈ ds.reachable steps names := by
  induction path generalizing a names steps with
  | nil =>
      rintro b ⟨⟩
      exact subset_reachable ds steps names ha
  | cons c path ih =>
      obtain ⟨rest, rfl⟩ : ∃ rest, steps = rest + 1 := ⟨steps - 1, by simp at hlength; omega⟩
      rcases List.isChain_cons_cons.mp hchain with ⟨hac, hrest⟩
      have hc : c ∈ (names ++ names.flatMap ds.referencesOf).eraseDups :=
        List.mem_eraseDups.mpr (List.mem_append_right _
          (List.mem_flatMap.mpr ⟨a, ha, mem_referencesOf.mpr hac⟩))
      rw [List.getLast?_cons_cons, reachable]
      exact ih hc hrest (by simpa using hlength)

theorem exists_of_mem_reachable (h : name ∈ ds.reachable steps names) :
    ∃ a ∈ names, ReflTransGen ds.Refers a name := by
  induction steps generalizing names with
  | zero => exact ⟨name, h, .refl⟩
  | succ steps ih =>
      rcases ih h with ⟨c, hc, hway⟩
      rcases List.mem_append.mp (List.mem_eraseDups.mp hc) with hc | hc
      · exact ⟨c, hc, hway⟩
      · rcases List.mem_flatMap.mp hc with ⟨a, ha, hac⟩
        exact ⟨a, ha, hway.head (mem_referencesOf.mp hac)⟩

theorem defined_of_path {a : String} (hchain : (a :: path).IsChain ds.Refers)
    (hlast : (a :: path).getLast? = some name) (hname : (ds.get? name).isSome = true) :
    ∀ b ∈ a :: path, (ds.get? b).isSome = true := by
  induction path generalizing a with
  | nil =>
      cases hlast
      exact List.forall_mem_singleton.mpr hname
  | cons c path ih =>
      rcases List.isChain_cons_cons.mp hchain with ⟨hac, hrest⟩
      rw [List.getLast?_cons_cons] at hlast
      exact List.forall_mem_cons.mpr ⟨hac.defined, ih hrest hlast⟩

/-! ## Circular names -/

/-- A name is circular exactly where a way along references leads back to it. -/
theorem isCircular_iff : ds.isCircular name = true ↔ TransGen ds.Refers name name := by
  rw [isCircular, List.contains_iff_mem]
  constructor
  · intro h
    rcases exists_of_mem_reachable h with ⟨a, ha, hway⟩
    exact .head' (mem_referencesOf.mp ha) hway
  · intro h
    rcases TransGen.head'_iff.mp h with ⟨a, ha, hway⟩
    rcases exists_nodup_path hway with ⟨path, hnodup, hchain, hlast⟩
    have hdefined := defined_of_path hchain hlast (Refers.defined ha)
    have hlength := length_le_size hnodup hdefined
    exact reachable_of_path (mem_referencesOf.mpr ha) hchain
      (by rw [List.length_cons] at hlength; omega) name hlast

end Definitions

/-!
## Searching for a way back

Whether a name is circular can be found by a search that keeps the names it has come across, and
those of them whose definitions it has not looked into. The search ends: a name is put aside once
at most, when it is first come across, and then is referred to by some definition.
-/

/-- A search has ended with an answer, or under way with the names that it has come across and those
that it has still to look into. -/
inductive Search where
  | ended (circular : Bool)
  | underway (visited pending : List String)

namespace Search

/-- Goes through the names that a definition refers to. -/
def take (name : String) (visited pending : List String) : List String → Search
  | [] => underway visited pending
  | other :: rest =>
    if other = name then
      ended true
    else if other ∈ visited then
      take name visited pending rest
    else
      take name (other :: visited) (other :: pending) rest

/-- Looks into the definition of the name that was put aside last. -/
def step (ds : Definitions) (name : String) : Search → Search
  | ended circular => ended circular
  | underway _ [] => ended false
  | underway visited (current :: pending) =>
    take name visited pending (ds.referencesOf current)

/-- A search for a way back to a name begins with the name itself. -/
def start (name : String) : Search :=
  underway [] [name]

/-- How many steps are enough for any search. -/
def bound (ds : Definitions) : Nat :=
  (ds.names.flatMap ds.referencesOf).length + 2

/-- What a search knows after so many steps, while it goes through the names of one definition. -/
structure Underway (ds : Definitions) (name : String) (steps : Nat)
    (visited pending waiting : List String) : Prop where
  nodup : visited.Nodup
  not_mem : name ∉ visited
  reached : ∀ other ∈ visited, TransGen ds.Refers name other
  ahead : ∀ other ∈ waiting, TransGen ds.Refers name other
  known : ∀ other ∈ pending, other = name ∨ other ∈ visited
  done : ∀ other, other = name ∨ other ∈ visited → other ∉ pending →
    ∀ next, ds.Refers other next → next ∈ visited ∨ next ∈ waiting
  count : pending.length + steps = visited.length + 1

/-- A search that has ended has the right answer. -/
def Sound (ds : Definitions) (name : String) (steps : Nat) : Search → Prop
  | ended circular => circular = ds.isCircular name
  | underway visited pending => Underway ds name steps visited pending []

variable {ds : Definitions} {name other : String} {steps : Nat}
  {visited pending waiting : List String}

namespace Underway

theorem visit (h : Underway ds name steps visited pending (other :: waiting))
    (hname : other ≠ name) (hother : other ∉ visited) :
    Underway ds name steps (other :: visited) (other :: pending) waiting where
  nodup := List.nodup_cons.mpr ⟨hother, h.nodup⟩
  not_mem := by
    rw [List.mem_cons]
    rintro (heq | hmem)
    · exact hname heq.symm
    · exact h.not_mem hmem
  reached := List.forall_mem_cons.mpr ⟨h.ahead other List.mem_cons_self, h.reached⟩
  ahead next hnext := h.ahead next (List.mem_cons_of_mem other hnext)
  known := by
    intro next hnext
    rcases List.mem_cons.mp hnext with rfl | hnext
    · exact .inr List.mem_cons_self
    · exact (h.known next hnext).imp_right (List.mem_cons_of_mem other)
  done := by
    intro current hcurrent hpending next hnext
    rw [List.mem_cons, not_or] at hpending
    have hold : current = name ∨ current ∈ visited :=
      hcurrent.imp_right fun hmem => (List.mem_cons.mp hmem).resolve_left hpending.1
    rcases h.done current hold hpending.2 next hnext with hvisited | hwaiting
    · exact .inl (List.mem_cons_of_mem other hvisited)
    · rcases List.mem_cons.mp hwaiting with rfl | hwaiting
      · exact .inl List.mem_cons_self
      · exact .inr hwaiting
  count := by
    have hcount := h.count
    simp only [List.length_cons]
    omega

theorem skip (h : Underway ds name steps visited pending (other :: waiting))
    (hother : other ∈ visited) : Underway ds name steps visited pending waiting where
  nodup := h.nodup
  not_mem := h.not_mem
  reached := h.reached
  ahead next hnext := h.ahead next (List.mem_cons_of_mem other hnext)
  known := h.known
  done := by
    intro current hcurrent hpending next hnext
    rcases h.done current hcurrent hpending next hnext with hvisited | hwaiting
    · exact .inl hvisited
    · rcases List.mem_cons.mp hwaiting with rfl | hwaiting
      · exact .inl hother
      · exact .inr hwaiting
  count := h.count

/-- The next name is taken from those that were put aside. -/
theorem look (h : Underway ds name steps visited (other :: pending) []) :
    Underway ds name (steps + 1) visited pending (ds.referencesOf other) where
  nodup := h.nodup
  not_mem := h.not_mem
  reached := h.reached
  ahead next hnext := by
    have hrefers := Definitions.mem_referencesOf.mp hnext
    rcases h.known other List.mem_cons_self with rfl | hother
    · exact .single hrefers
    · exact (h.reached other hother).tail hrefers
  known current hcurrent := h.known current (List.mem_cons_of_mem other hcurrent)
  done := by
    intro current hcurrent hpending next hnext
    by_cases heq : current = other
    · rw [← heq]
      exact .inr (Definitions.mem_referencesOf.mpr hnext)
    · have hold : current ∉ other :: pending := by
        rw [List.mem_cons, not_or]
        exact ⟨heq, hpending⟩
      exact .inl ((h.done current hcurrent hold next hnext).resolve_right List.not_mem_nil)
  count := by
    have hcount := h.count
    rw [List.length_cons] at hcount
    omega

theorem take (h : Underway ds name steps visited pending waiting) :
    Sound ds name steps (Search.take name visited pending waiting) := by
  induction waiting generalizing visited pending with
  | nil => exact h
  | cons other waiting ih =>
      rw [Search.take]
      split
      · rename_i heq
        rw [heq] at h
        exact (Definitions.isCircular_iff.mpr (h.ahead name List.mem_cons_self)).symm
      · rename_i hname
        split
        · rename_i hother
          exact ih (h.skip hother)
        · rename_i hother
          exact ih (h.visit hname hother)

/-- Where nothing is left to look into, all that can be reached has been come across. -/
theorem mem_visited (h : Underway ds name steps visited [] [])
    (hway : TransGen ds.Refers name other) : other ∈ visited := by
  induction hway with
  | single hnext => exact (h.done name (.inl rfl) nofun _ hnext).resolve_right nofun
  | tail _ hnext ih => exact (h.done _ (.inr ih) nofun _ hnext).resolve_right nofun

theorem steps_lt (h : Underway ds name steps visited pending waiting) : steps < bound ds := by
  have hsubset : visited ⊆ ds.names.flatMap ds.referencesOf := by
    intro other hother
    rcases TransGen.tail'_iff.mp (h.reached other hother) with ⟨current, _, hrefers⟩
    exact List.mem_flatMap.mpr ⟨current, Definitions.mem_names_of_isSome hrefers.defined,
      Definitions.mem_referencesOf.mpr hrefers⟩
  have hlength := (List.Nodup.subperm h.nodup hsubset).length_le
  have hcount := h.count
  rw [bound]
  omega

end Underway

theorem Sound.step {s : Search} (h : Sound ds name steps s) :
    Sound ds name (steps + 1) (s.step ds name) := by
  match s with
  | ended circular => exact h
  | underway visited [] =>
      have hcircular : ds.isCircular name ≠ true := fun htrue =>
        h.not_mem (h.mem_visited (Definitions.isCircular_iff.mp htrue))
      exact (Bool.eq_false_iff.mpr hcircular).symm
  | underway visited (current :: pending) => exact (Underway.look h).take

theorem sound_start (ds : Definitions) (name : String) : Sound ds name 0 (start name) where
  nodup := List.nodup_nil
  not_mem := List.not_mem_nil
  reached := nofun
  ahead := nofun
  known other hother := .inl (List.mem_singleton.mp hother)
  done := by
    rintro other (rfl | hother) hpending
    · exact absurd (List.mem_singleton_self other) hpending
    · cases hother
  count := rfl

theorem sound_iterate (ds : Definitions) (name : String) (steps : Nat) :
    Sound ds name steps ((step ds name)^[steps] (start name)) := by
  induction steps with
  | zero => exact sound_start ds name
  | succ steps ih =>
      rw [Function.iterate_succ_apply']
      exact ih.step

/-- Every search ends, and tells whether the name is circular. -/
theorem iterate_eq_ended (ds : Definitions) (name : String) (more : Nat) :
    (step ds name)^[bound ds + more] (start name) = ended (ds.isCircular name) := by
  have hsound := sound_iterate ds name (bound ds + more)
  cases hs : (step ds name)^[bound ds + more] (start name) with
  | ended circular =>
      rw [hs] at hsound
      rw [hsound]
  | underway visited pending =>
      rw [hs] at hsound
      have hlt := Underway.steps_lt hsound
      omega

end Search

/-! ## Free references -/

namespace Expr

/-- A name stands free in a tree, as a symbol or a function that is called, where the given
variables are bound around the tree. -/
inductive FreeIn (name : String) : List String → Expr → Prop
  | symbol {B} : name ∉ B → FreeIn name B (symbol name)
  | call {B xs} : FreeIn name B (apply (.function name) xs)
  | operand {B f xs x} : f.kind.isParametered = false → x ∈ xs → FreeIn name B x →
      FreeIn name B (apply f xs)
  | body {B f xs x} : f.kind.isParametered = true → x ∈ xs.head? →
      FreeIn name ((xs[1]?.bind name?).toList ++ B) x → FreeIn name B (apply f xs)
  | bound {B f xs x} : f.kind.isParametered = true → x ∈ xs.drop 2 → FreeIn name B x →
      FreeIn name B (apply f xs)

variable {name : String} {B : List String} {x : Expr}

/-- A name that stands free in a tree is that of a symbol or of a function in it, and no symbol that
is bound around the tree. -/
theorem FreeIn.within (h : FreeIn name B x) :
    (Within (.symbol name) x ∧ name ∉ B) ∨ ∃ ys, Within (.apply (.function name) ys) x := by
  induction h with
  | symbol hname => exact .inl ⟨.whole, hname⟩
  | call => exact .inr ⟨_, .whole⟩
  | operand _ hx _ ih =>
      exact ih.imp (fun h => ⟨.operand hx h.1, h.2⟩) fun ⟨ys, h⟩ => ⟨ys, .operand hx h⟩
  | body _ hx _ ih =>
      have hmem := List.mem_of_mem_head? hx
      exact ih.imp (fun h => ⟨.operand hmem h.1, fun hB => h.2 (List.mem_append_right _ hB)⟩)
        fun ⟨ys, h⟩ => ⟨ys, .operand hmem h⟩
  | bound _ hx _ ih =>
      have hmem := List.mem_of_mem_drop hx
      exact ih.imp (fun h => ⟨.operand hmem h.1, h.2⟩) fun ⟨ys, h⟩ => ⟨ys, .operand hmem h⟩

end Expr

namespace Definitions

/-- The definition of a name refers to another one outside the scope of any variable of that
name. -/
def RefersFreely (ds : Definitions) (name other : String) : Prop :=
  ∃ d, ds.get? name = some d ∧ Expr.FreeIn other d.parameter?.toList d.body

/-- The definition of a name refers to another one, but only as a variable that is bound. -/
def RefersBound (ds : Definitions) (name other : String) : Prop :=
  ds.Refers name other ∧ ¬ ds.RefersFreely name other

variable {ds : Definitions} {name other : String}

theorem RefersFreely.refers (h : ds.RefersFreely name other) : ds.Refers name other := by
  rcases h with ⟨d, hd, hfree⟩
  refine ⟨d, hd, hfree.within.imp_left fun h => ⟨h.1, ?_⟩⟩
  exact fun hparameter => h.2 (Option.mem_toList.mpr hparameter)

/-- A way back to a name is free, or leads over a definition that refers to the next name only as a
bound variable. -/
theorem free_or_bound_of_leads (h : TransGen ds.Refers other name)
    (hother : ReflTransGen ds.Refers name other) : TransGen ds.RefersFreely other name ∨
      ∃ first next, ReflTransGen ds.Refers name first ∧ ds.RefersBound first next ∧
        ReflTransGen ds.Refers next name := by
  induction h using TransGen.head_induction_on with
  | @single first hrefers =>
      by_cases hfree : ds.RefersFreely first name
      · exact .inl (.single hfree)
      · exact .inr ⟨first, name, hother, ⟨hrefers, hfree⟩, .refl⟩
  | @head first next hrefers hleads ih =>
      by_cases hfree : ds.RefersFreely first next
      · exact (ih (hother.tail hrefers)).imp_left (.head hfree)
      · exact .inr ⟨first, next, hother, ⟨hrefers, hfree⟩, hleads.to_reflTransGen⟩

end Definitions

namespace Reduction

open Definitions

/-- A name is circular exactly where it leads back to itself along free references, or where it does
so over a definition that refers to the next name only as a bound variable. Where neither is the
case, a symbol with a value is reduced as its value is. -/
theorem isCircular_iff_free_or_bound (ds : Definitions) (name : String) :
    (ds.isCircular name = true ↔ TransGen ds.RefersFreely name name ∨
      ∃ first next, ReflTransGen ds.Refers name first ∧ ds.RefersBound first next ∧
        ReflTransGen ds.Refers next name) ∧
    (¬ TransGen ds.RefersFreely name name →
      (∀ first next, ReflTransGen ds.Refers name first → ds.RefersBound first next →
        ¬ ReflTransGen ds.Refers next name) →
      ∀ ctx node tree value, ctx.definitions = ds → ds.value? name = some value → name ∉ ctx.bound →
        replacesSymbols ctx.settings.symbolic = true →
        reduceNode ctx node tree (.symbol name) = tree value) := by
  have hiff : ds.isCircular name = true ↔ TransGen ds.RefersFreely name name ∨
      ∃ first next, ReflTransGen ds.Refers name first ∧ ds.RefersBound first next ∧
        ReflTransGen ds.Refers next name := by
    rw [isCircular_iff]
    constructor
    · exact fun h => free_or_bound_of_leads h .refl
    · rintro (hfree | ⟨first, next, hto, hbound, hback⟩)
      · exact TransGen.mono (fun _ _ => RefersFreely.refers) _ _ hfree
      · exact (TransGen.tail' hto hbound.1).trans_left hback
  refine ⟨hiff, ?_⟩
  rintro hfree hbound ctx node tree value rfl hvalue hname hreplaces
  have hcircular : ¬ ctx.definitions.isCircular name = true := by
    rw [hiff]
    rintro (h | ⟨first, next, hto, hrefers, hback⟩)
    · exact hfree h
    · exact hbound first next hto hrefers hback
  rw [reduceNode, symbol, if_neg (by simp [hname, hreplaces]), hvalue]
  exact if_neg hcircular

/-- A sum over a variable, and a value that leads back to itself. -/
def sumAndLoop : Definitions :=
  let k := Expr.symbol "k"
  ⟨[("s", .value (.apply .sum [k, k, .integer 1, .symbol "n"])),
    ("y", .value (.apply .addition [.symbol "y", .symbol "s"]))]⟩

/-- The value that leads back to itself is circular. The sum is reduced like its definition. -/
theorem isCircular_iff_free_or_bound_sumAndLoop :
    sumAndLoop.isCircular "y" = true ∧
    reduceNode ⟨{}, sumAndLoop, 4096, []⟩ pure pure (.symbol "s") = (pure (.apply .sum
      [.symbol "k", .symbol "k", .integer 1, .symbol "n"]) : ReduceM Expr) := by
  have hself : sumAndLoop.RefersFreely "y" "y" :=
    ⟨_, rfl, .operand rfl List.mem_cons_self (.symbol List.not_mem_nil)⟩
  have hcircular : ¬ sumAndLoop.isCircular "s" = true := by decide
  rw [(isCircular_iff_free_or_bound sumAndLoop "s").1, not_or] at hcircular
  refine ⟨(isCircular_iff_free_or_bound sumAndLoop "y").1.mpr (.inl (.single hself)), ?_⟩
  refine (isCircular_iff_free_or_bound sumAndLoop "s").2 hcircular.1 ?_ _ _ _ _ rfl rfl
    List.not_mem_nil rfl
  exact fun first next hto hbound hback => hcircular.2 ⟨first, next, hto, hbound, hback⟩

/-- The value of a symbol that is a sum over a variable of the same name. -/
def sumOverItself : Definitions :=
  let k := Expr.symbol "k"
  ⟨[("k", .value (.apply .sum [k, k, .integer 1, .integer 3]))]⟩

/-- A symbol whose definition mentions it as a bound variable alone does not lead back to itself,
and is evaluated to a number. But it is found to be circular, and reduced to the undefined value. -/
theorem isCircular_sumOverItself :
    ¬ TransGen sumOverItself.RefersFreely "k" "k" ∧ sumOverItself.isCircular "k" = true ∧
    ((Expr.symbol "k").reduce ⟨{}, sumOverItself, 4096, []⟩ {}).toOption.map Expr.kind =
      some .undefined ∧
    Approximation.evaluate ⟨{}, sumOverItself⟩ 1 (.symbol "k") {} {} =
      some (.real (ExactNumber.finite 6), {}) := by
  refine ⟨?_, by decide, by decide +kernel, by with_unfolding_all rfl⟩
  intro h
  rcases TransGen.head'_iff.mp h with ⟨next, ⟨d, ⟨⟩, hfree⟩, _⟩
  cases hfree with
  | operand hsum => cases hsum
  | body _ hx hbody =>
      cases hx
      cases hbody with
      | symbol hname => exact hname List.mem_cons_self
  | bound _ hx hlimit =>
      simp only [List.drop_succ_cons, List.drop_zero, List.mem_cons, List.not_mem_nil, or_false]
        at hx
      rcases hx with rfl | rfl <;> cases hlimit


end Reduction

end PocketAlgebra

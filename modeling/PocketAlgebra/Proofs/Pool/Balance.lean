import Mathlib.Algebra.BigOperators.Group.List.Basic
import Mathlib.Algebra.GroupWithZero.Nat
import Mathlib.Data.List.Count
import Mathlib.Data.List.Nodup
import PocketAlgebra.Pool.Work

/-!
# Balance of references

Whether the references that the nodes of a pool count are those that there are. While an operation
is under way there are, beside handles and operands of nodes, *loose* operands: operands that are
attached already to a node that is not there yet, or not detached yet from one that is gone.
-/

namespace PocketAlgebra
namespace Pool

/-! ## Keys of a pool -/

/-- The keys of the nodes. -/
def keys (p : Pool) : List Nat :=
  p.nodes.map Node.key

/-- The keys of the operands of the nodes, each one as often as it is an operand. -/
def operandKeys (p : Pool) : List Nat :=
  p.nodes.flatMap Node.children

theorem mem_keys {p : Pool} {key : Nat} :
    key ∈ p.keys ↔ ∃ node ∈ p.nodes, node.key = key := by
  simp [keys]

theorem mem_operandKeys {p : Pool} {key : Nat} :
    key ∈ p.operandKeys ↔ ∃ node ∈ p.nodes, key ∈ node.children := by
  simp [operandKeys]

theorem node?_eq_some {p : Pool} {key : Nat} {node : Node}
    (h : p.node? key = some node) : node ∈ p.nodes ∧ node.key = key := by
  constructor
  · exact List.mem_of_find?_eq_some h
  · simpa using List.find?_some h

theorem node?_eq_none {p : Pool} {key : Nat} :
    p.node? key = none ↔ key ∉ p.keys := by
  simp [node?, mem_keys]

theorem contains_iff {p : Pool} {key : Nat} :
    p.contains key = true ↔ key ∈ p.keys := by
  rw [contains, Option.isSome_iff_ne_none, ne_eq, node?_eq_none, not_not]

/-- A pool with one more node over operands. -/
def push (p : Pool) (head : Expr) (children : List Nat) : Pool :=
  { p with
    nodes := ⟨p.nextKey, head, children, 1, false⟩ :: p.nodes
    used := p.used + Node.chargeOf head children.length
    nextKey := p.nextKey + 1 }

theorem mem_nodes_push {p : Pool} {head : Expr} {children : List Nat} {node : Node} :
    node ∈ (p.push head children).nodes ↔
      node = ⟨p.nextKey, head, children, 1, false⟩ ∨ node ∈ p.nodes :=
  List.mem_cons

theorem keys_push (p : Pool) (head : Expr) (children : List Nat) :
    (p.push head children).keys = p.nextKey :: p.keys :=
  rfl

section Update

variable {p : Pool} {key : Nat} {f : Node → Node}

theorem keys_update (hkey : ∀ node, (f node).key = node.key) :
    (p.update key f).keys = p.keys := by
  simp only [keys, Pool.update, List.map_map]
  apply List.map_congr_left
  intro node _
  simp only [Function.comp_apply]
  split
  · exact hkey node
  · rfl

theorem operandKeys_update (hchildren : ∀ node, (f node).children = node.children) :
    (p.update key f).operandKeys = p.operandKeys := by
  simp only [operandKeys, Pool.update, List.flatMap_map]
  congr 1
  funext node
  split
  · exact hchildren node
  · rfl

@[simp] theorem keys_attach : (p.attach key).keys = p.keys :=
  keys_update (fun _ => rfl)

@[simp] theorem operandKeys_attach : (p.attach key).operandKeys = p.operandKeys :=
  operandKeys_update (fun _ => rfl)

end Update

/-- The references to nodes are those of handles and of operands, loose ones among them. -/
structure Balanced (p : Pool) (loose handles : List Nat) : Prop where
  latestFirst : p.nodes.Pairwise fun a b => b.key < a.key
  issued : ∀ key ∈ p.keys ++ loose ++ handles, key < p.nextKey
  lesser : ∀ node ∈ p.nodes, ∀ child ∈ node.children, child < node.key
  counted : ∀ node ∈ p.nodes,
    node.references =
      handles.count node.key + (loose ++ p.operandKeys).count node.key
  placed : ∀ node ∈ p.nodes,
    (loose ++ p.operandKeys).count node.key = node.hasParent.toNat
  held : ∀ node ∈ p.nodes, 0 < node.references
  charged : p.used = (p.nodes.map Node.charge).sum

namespace Balanced

variable {p : Pool} {key : Nat} {node : Node} {loose handles keys : List Nat}

theorem empty (capacity identity : Nat) :
    Balanced (Pool.empty capacity identity) [] [] := by
  constructor <;> simp [Pool.empty, Pool.keys]

theorem perm {loose' handles' : List Nat} (h : Balanced p loose handles)
    (hloose : loose.Perm loose') (hhandles : handles.Perm handles') :
    Balanced p loose' handles' := by
  have hcount : ∀ k, (loose' ++ p.operandKeys).count k =
      (loose ++ p.operandKeys).count k := by
    intro k
    rw [List.count_append, List.count_append, hloose.count_eq]
  constructor
  · exact h.latestFirst
  · intro k hk
    apply h.issued k
    simpa [hloose.mem_iff, hhandles.mem_iff] using hk
  · exact h.lesser
  · intro node hnode
    rw [hcount, ← hhandles.count_eq]
    exact h.counted node hnode
  · intro node hnode
    rw [hcount]
    exact h.placed node hnode
  · exact h.held
  · exact h.charged

theorem perm_handles {handles' : List Nat} (h : Balanced p loose handles)
    (hhandles : handles.Perm handles') : Balanced p loose handles' :=
  h.perm (List.Perm.refl loose) hhandles

/-! ## What balance tells about a node -/

theorem unique {other : Node} (h : Balanced p loose handles)
    (hnode : node ∈ p.nodes) (hother : other ∈ p.nodes) (hkey : other.key = node.key) :
    other = node := by
  have hnodup : (p.nodes.map Node.key).Nodup := by
    unfold List.Nodup
    rw [List.pairwise_map]
    exact h.latestFirst.imp (fun hlt => Nat.ne_of_gt hlt)
  exact List.inj_on_of_nodup_map hnodup hother hnode hkey

theorem node?_eq (h : Balanced p loose handles) (hnode : node ∈ p.nodes) :
    p.node? node.key = some node := by
  cases hfound : p.node? node.key with
  | none =>
      rw [node?_eq_none] at hfound
      exact absurd (mem_keys.mpr ⟨node, hnode, rfl⟩) hfound
  | some other =>
      rcases node?_eq_some hfound with ⟨hother, hkey⟩
      rw [h.unique hnode hother hkey]

theorem node_lt_nextKey (h : Balanced p loose handles) (hnode : node ∈ p.nodes) :
    node.key < p.nextKey :=
  h.issued node.key (by simp [mem_keys.mpr ⟨node, hnode, rfl⟩])

theorem handle_lt_nextKey (h : Balanced p loose handles) (hkey : key ∈ handles) :
    key < p.nextKey :=
  h.issued key (by simp [hkey])

theorem operand_lt_nextKey (h : Balanced p loose handles) (hkey : key ∈ p.operandKeys) :
    key < p.nextKey := by
  rcases mem_operandKeys.mp hkey with ⟨node, hnode, hchild⟩
  have hlesser := h.lesser node hnode key hchild
  have hissued := h.node_lt_nextKey hnode
  omega

theorem hasParent_iff (h : Balanced p loose handles) (hnode : node ∈ p.nodes) :
    node.hasParent = true ↔ node.key ∈ loose ++ p.operandKeys := by
  have hplaced := h.placed node hnode
  rw [← List.count_pos_iff, hplaced]
  cases node.hasParent <;> simp

theorem poolHasParent_iff (h : Balanced p loose handles) :
    p.hasParent key = true ↔ key ∈ p.keys ∧ key ∈ loose ++ p.operandKeys := by
  unfold Pool.hasParent
  cases hfound : p.node? key with
  | none =>
      have hstale := node?_eq_none.mp hfound
      simp [hstale]
  | some node =>
      rcases node?_eq_some hfound with ⟨hnode, rfl⟩
      have hlive : node.key ∈ p.keys := mem_keys.mpr ⟨node, hnode, rfl⟩
      simpa [hlive] using h.hasParent_iff hnode

/-! ## Changing a node -/

theorem update {f : Node → Node} {loose' handles' : List Nat}
    (h : Balanced p loose handles)
    (hsame : ∀ node, (f node).key = node.key ∧ (f node).head = node.head ∧
      (f node).children = node.children)
    (hissued : ∀ k ∈ loose' ++ handles', k < p.nextKey)
    (hothers : ∀ k, k ≠ key → loose'.count k = loose.count k ∧
      handles'.count k = handles.count k)
    (hnode : ∀ node ∈ p.nodes, node.key = key →
      (f node).references =
          handles'.count key + (loose' ++ p.operandKeys).count key ∧
        (loose' ++ p.operandKeys).count key = (f node).hasParent.toNat ∧
        0 < (f node).references) :
    Balanced (p.update key f) loose' handles' := by
  let g : Node → Node := fun node => if node.key == key then f node else node
  have hnodes : (p.update key f).nodes = p.nodes.map g := rfl
  have hgkey : ∀ node, (g node).key = node.key := by
    intro node
    simp only [g]
    split
    · exact (hsame node).1
    · rfl
  have hgchildren : ∀ node, (g node).children = node.children := by
    intro node
    simp only [g]
    split
    · exact (hsame node).2.2
    · rfl
  have hgcharge : ∀ node, (g node).charge = node.charge := by
    intro node
    simp only [g]
    split
    · simp only [Node.charge, hsame]
    · rfl
  have hoperands : (p.update key f).operandKeys = p.operandKeys :=
    operandKeys_update (fun node => (hsame node).2.2)
  constructor
  · rw [hnodes, List.pairwise_map]
    simpa only [hgkey] using h.latestFirst
  · intro k hk
    rw [keys_update (fun node => (hsame node).1), List.append_assoc, List.mem_append] at hk
    cases hk with
    | inl hlive => exact h.issued k (by simp [hlive])
    | inr hrest => exact hissued k hrest
  · intro node hmem child hchild
    rcases List.mem_map.mp (hnodes ▸ hmem) with ⟨old, hold, rfl⟩
    rw [hgchildren] at hchild
    rw [hgkey]
    exact h.lesser old hold child hchild
  · intro node hmem
    rcases List.mem_map.mp (hnodes ▸ hmem) with ⟨old, hold, rfl⟩
    rw [hgkey, hoperands]
    by_cases heq : old.key = key
    · have hthis := (hnode old hold heq).1
      simpa only [g, heq, beq_self_eq_true, if_true] using hthis
    · rcases hothers old.key heq with ⟨hloose, hhandles⟩
      have hold' := h.counted old hold
      simpa [g, heq, List.count_append, hloose, hhandles] using hold'
  · intro node hmem
    rcases List.mem_map.mp (hnodes ▸ hmem) with ⟨old, hold, rfl⟩
    rw [hgkey, hoperands]
    by_cases heq : old.key = key
    · have hthis := (hnode old hold heq).2.1
      simpa only [g, heq, beq_self_eq_true, if_true] using hthis
    · have hold' := h.placed old hold
      simpa [g, heq, List.count_append, (hothers old.key heq).1] using hold'
  · intro node hmem
    rcases List.mem_map.mp (hnodes ▸ hmem) with ⟨old, hold, rfl⟩
    by_cases heq : old.key = key
    · have hthis := (hnode old hold heq).2.2
      simpa only [g, heq, beq_self_eq_true, if_true] using hthis
    · simpa [g, heq] using h.held old hold
  · have hcharge : (p.nodes.map g).map Node.charge = p.nodes.map Node.charge := by
      rw [List.map_map]
      exact List.map_congr_left (fun node _ => hgcharge node)
    rw [hnodes, hcharge]
    exact h.charged

theorem retain (h : Balanced p loose handles) (hissued : key < p.nextKey) :
    Balanced (p.retain key) loose (key :: handles) := by
  apply h.update
  · intro node
    exact ⟨rfl, rfl, rfl⟩
  · intro k hk
    simp only [List.mem_append, List.mem_cons] at hk
    rcases hk with hk | rfl | hk
    · exact h.issued k (by simp [hk])
    · exact hissued
    · exact h.handle_lt_nextKey hk
  · intro k hne
    simp [List.count_cons_of_ne hne.symm]
  · intro node hmem heq
    subst heq
    have hcounted := h.counted node hmem
    have hplaced := h.placed node hmem
    refine ⟨?_, hplaced, by simp⟩
    simp only [List.count_cons_self]
    omega

theorem decrement (h : Balanced p loose (key :: handles))
    (hmany : ∀ node ∈ p.nodes, node.key = key → 1 < node.references) :
    Balanced (p.decrement key) loose handles := by
  apply h.update
  · intro node
    exact ⟨rfl, rfl, rfl⟩
  · intro k hk
    apply h.issued k
    simp only [List.mem_append, List.mem_cons] at hk ⊢
    tauto
  · intro k hne
    simp [List.count_cons_of_ne hne.symm]
  · intro node hmem heq
    subst heq
    have hcounted := h.counted node hmem
    have hplaced := h.placed node hmem
    have htwo := hmany node hmem rfl
    rw [List.count_cons_self] at hcounted
    refine ⟨?_, hplaced, ?_⟩
    · show node.references - 1 = _
      omega
    · show 0 < node.references - 1
      omega

theorem attach (h : Balanced p loose handles) (hissued : key < p.nextKey)
    (hfree : p.hasParent key = false) :
    Balanced (p.attach key) (key :: loose) handles := by
  apply h.update
  · intro node
    exact ⟨rfl, rfl, rfl⟩
  · intro k hk
    simp only [List.mem_append, List.mem_cons] at hk
    rcases hk with (rfl | hk) | hk
    · exact hissued
    · exact h.issued k (by simp [hk])
    · exact h.handle_lt_nextKey hk
  · intro k hne
    simp [List.count_cons_of_ne hne.symm]
  · intro node hmem heq
    subst heq
    have hparent : node.hasParent = false := by
      simpa [Pool.hasParent, h.node?_eq hmem] using hfree
    have hcounted := h.counted node hmem
    have hplaced := h.placed node hmem
    rw [hparent] at hplaced
    rw [List.cons_append, List.count_cons_self]
    refine ⟨?_, ?_, by simp⟩
    · show node.references + 1 = _
      omega
    · rw [hplaced]
      rfl

theorem detach (h : Balanced p (key :: loose) handles) :
    Balanced (p.detach key) loose (key :: handles) := by
  apply h.update
  · intro node
    exact ⟨rfl, rfl, rfl⟩
  · intro k hk
    apply h.issued k
    simp only [List.mem_append, List.mem_cons] at hk ⊢
    tauto
  · intro k hne
    simp [List.count_cons_of_ne hne.symm]
  · intro node hmem heq
    subst heq
    have hcounted := h.counted node hmem
    have hplaced := h.placed node hmem
    have hheld := h.held node hmem
    rw [List.cons_append, List.count_cons_self] at hcounted hplaced
    have hone := Bool.toNat_le node.hasParent
    refine ⟨?_, ?_, hheld⟩
    · show node.references = _
      rw [List.count_cons_self]
      omega
    · show _ = Bool.toNat false
      rw [Bool.toNat_false]
      omega

theorem forget (h : Balanced p loose (key :: handles)) (hstale : key ∉ p.keys) :
    Balanced p loose handles := by
  constructor
  · exact h.latestFirst
  · intro k hk
    apply h.issued k
    simp only [List.mem_append, List.mem_cons] at hk ⊢
    tauto
  · exact h.lesser
  · intro node hmem
    have hne : key ≠ node.key := by
      intro heq
      exact hstale (mem_keys.mpr ⟨node, hmem, heq.symm⟩)
    have hcounted := h.counted node hmem
    rwa [List.count_cons_of_ne hne] at hcounted
  · exact h.placed
  · exact h.held
  · exact h.charged

theorem forget_loose (h : Balanced p (key :: loose) handles) (hstale : key ∉ p.keys) :
    Balanced p loose handles := by
  have hcount : ∀ node ∈ p.nodes, (key :: loose ++ p.operandKeys).count node.key =
      (loose ++ p.operandKeys).count node.key := by
    intro node hmem
    have hne : key ≠ node.key := by
      intro heq
      exact hstale (mem_keys.mpr ⟨node, hmem, heq.symm⟩)
    rw [List.cons_append, List.count_cons_of_ne hne]
  constructor
  · exact h.latestFirst
  · intro k hk
    apply h.issued k
    simp only [List.mem_append, List.mem_cons] at hk ⊢
    tauto
  · exact h.lesser
  · intro node hmem
    rw [← hcount node hmem]
    exact h.counted node hmem
  · intro node hmem
    rw [← hcount node hmem]
    exact h.placed node hmem
  · exact h.held
  · exact h.charged

theorem detachAll {children : List Nat} (h : Balanced p (children ++ loose) handles) :
    Balanced (children.foldl Pool.detach p) loose (children.reverse ++ handles) := by
  induction children generalizing p handles with
  | nil => exact h
  | cons child children ih =>
      have hfirst := ih (Balanced.detach h)
      simpa using hfirst

theorem attachAll {children : List Nat} (h : Balanced p loose handles)
    (hissued : ∀ child ∈ children, child < p.nextKey)
    (hnodup : children.Nodup)
    (hfree : ∀ child ∈ children, p.hasParent child = false) :
    Balanced (children.foldl Pool.attach p) (children.reverse ++ loose) handles := by
  induction children generalizing p loose with
  | nil => exact h
  | cons child children ih =>
      rw [List.nodup_cons] at hnodup
      have hfirst := h.attach (hissued child (by simp)) (hfree child (by simp))
      have hrest := ih hfirst (fun other hother => hissued other (by simp [hother])) hnodup.2
        (by
          intro other hother
          have hne : other ≠ child := by
            intro heq
            exact hnodup.1 (heq ▸ hother)
          have hother' := hfree other (by simp [hother])
          rw [Bool.eq_false_iff, ne_eq, h.poolHasParent_iff] at hother'
          rw [Bool.eq_false_iff, ne_eq, hfirst.poolHasParent_iff]
          simpa [hne] using hother')
      simpa using hrest

/-! ## Taking a node away and putting one in -/

theorem nodes_remove (h : Balanced p loose handles) (hnode : node ∈ p.nodes) :
    ∃ later earlier, p.nodes = later ++ node :: earlier ∧
      (p.remove node).nodes = later ++ earlier := by
  rcases List.exists_of_eraseP (p := fun other : Node => other.key == node.key) hnode
    (by simp) with ⟨found, later, earlier, -, hkey, hnodes, herased⟩
  have hfound : found ∈ p.nodes := by simp [hnodes]
  have hsame : found = node := h.unique hnode hfound (by simpa using hkey)
  subst hsame
  exact ⟨later, earlier, hnodes, herased⟩

theorem unreferenced (h : Balanced p loose (key :: handles))
    (hfound : p.node? key = some node) (hlast : ¬ 1 < node.references) :
    key ∉ handles ∧ key ∉ loose ++ p.operandKeys := by
  rcases node?_eq_some hfound with ⟨hnode, rfl⟩
  have hcounted := h.counted node hnode
  rw [List.count_cons_self] at hcounted
  constructor
  · apply List.count_eq_zero.mp
    omega
  · apply List.count_eq_zero.mp
    omega

theorem remove (h : Balanced p loose (key :: handles))
    (hfound : p.node? key = some node) :
    Balanced (p.remove node) (node.children ++ loose) handles := by
  rcases node?_eq_some hfound with ⟨hnode, rfl⟩
  rcases h.nodes_remove hnode with ⟨later, earlier, hnodes, hremoved⟩
  have hsub : ∀ other ∈ (p.remove node).nodes, other ∈ p.nodes ∧ other.key ≠ node.key := by
    intro other hother
    rw [hremoved, List.mem_append] at hother
    have hpair := h.latestFirst
    rw [hnodes, List.pairwise_append] at hpair
    rcases hpair with ⟨-, htail, hcross⟩
    rw [List.pairwise_cons] at htail
    cases hother with
    | inl hlater =>
        have hlt := hcross other hlater node (by simp)
        exact ⟨by simp [hnodes, hlater], by omega⟩
    | inr hearlier =>
        have hlt := htail.1 other hearlier
        exact ⟨by simp [hnodes, hearlier], by omega⟩
  have hcount : ∀ k, (node.children ++ loose ++ (p.remove node).operandKeys).count k =
      (loose ++ p.operandKeys).count k := by
    intro k
    simp only [operandKeys, hnodes, hremoved, List.flatMap_append, List.flatMap_cons,
      List.count_append]
    omega
  constructor
  · have hpair := h.latestFirst
    rw [hnodes] at hpair
    rw [hremoved]
    exact hpair.sublist (List.Sublist.append_left (List.sublist_cons_self _ _) later)
  · intro k hk
    simp only [List.mem_append, mem_keys] at hk
    rcases hk with (⟨other, hother, rfl⟩ | hchild | hloose) | hhandle
    · exact h.node_lt_nextKey (hsub other hother).1
    · exact h.operand_lt_nextKey (mem_operandKeys.mpr ⟨node, hnode, hchild⟩)
    · exact h.issued k (by simp [hloose])
    · exact h.handle_lt_nextKey (by simp [hhandle])
  · intro other hother
    exact h.lesser other (hsub other hother).1
  · intro other hother
    rcases hsub other hother with ⟨hmem, hne⟩
    have hcounted := h.counted other hmem
    rw [List.count_cons_of_ne hne.symm] at hcounted
    rw [hcount]
    exact hcounted
  · intro other hother
    rw [hcount]
    exact h.placed other (hsub other hother).1
  · intro other hother
    exact h.held other (hsub other hother).1
  · have hcharged := h.charged
    rw [hnodes] at hcharged
    rw [hremoved]
    simp only [List.map_append, List.map_cons, List.sum_append, List.sum_cons] at hcharged ⊢
    show p.used - node.charge = _
    omega

theorem push {children : List Nat} {head : Expr}
    (h : Balanced p (children ++ loose) handles) :
    Balanced (p.push head children) loose (p.nextKey :: handles) := by
  have hcount : ∀ k, (loose ++ (children ++ p.operandKeys)).count k =
      (children ++ loose ++ p.operandKeys).count k := by
    intro k
    simp only [List.count_append]
    omega
  have hfresh : p.nextKey ∉ handles := by
    intro hmem
    exact Nat.lt_irrefl _ (h.handle_lt_nextKey hmem)
  have hunnamed : (children ++ loose ++ p.operandKeys).count p.nextKey = 0 := by
    apply List.count_eq_zero.mpr
    intro hmem
    rw [List.mem_append] at hmem
    rcases hmem with hloose | hoperand
    · exact Nat.lt_irrefl _ (h.issued _ (by simp at hloose ⊢; tauto))
    · exact Nat.lt_irrefl _ (h.operand_lt_nextKey hoperand)
  constructor
  · show (_ :: p.nodes).Pairwise _
    rw [List.pairwise_cons]
    constructor
    · intro other hother
      exact h.node_lt_nextKey hother
    · exact h.latestFirst
  · intro k hk
    simp only [keys_push, List.mem_append, List.mem_cons] at hk
    show k < p.nextKey + 1
    rcases hk with ((rfl | hlive) | hloose) | rfl | hhandle
    · exact Nat.lt_succ_self _
    · have hlt := h.issued k (List.mem_append_left _ (List.mem_append_left _ hlive))
      exact Nat.lt_succ_of_lt hlt
    · exact Nat.lt_succ_of_lt (h.issued k (by simp [hloose]))
    · exact Nat.lt_succ_self _
    · exact Nat.lt_succ_of_lt (h.handle_lt_nextKey hhandle)
  · intro other hother child hchild
    rw [mem_nodes_push] at hother
    rcases hother with rfl | hother
    · exact h.issued child (by simp [show child ∈ children from hchild])
    · exact h.lesser other hother child hchild
  · intro other hother
    rw [mem_nodes_push] at hother
    show _ = _ + (loose ++ (children ++ p.operandKeys)).count other.key
    rw [hcount]
    rcases hother with rfl | hother
    · rw [hunnamed, List.count_cons_self, List.count_eq_zero.mpr hfresh]
    · have hlt := h.node_lt_nextKey hother
      rw [List.count_cons_of_ne (by omega)]
      exact h.counted other hother
  · intro other hother
    rw [mem_nodes_push] at hother
    show (loose ++ (children ++ p.operandKeys)).count other.key = _
    rw [hcount]
    rcases hother with rfl | hother
    · exact hunnamed
    · exact h.placed other hother
  · intro other hother
    rw [mem_nodes_push] at hother
    rcases hother with rfl | hother
    · exact Nat.one_pos
    · exact h.held other hother
  · show p.used + _ = _ + (p.nodes.map Node.charge).sum
    rw [h.charged, Nat.add_comm]
    rfl

end Balanced

end Pool
end PocketAlgebra

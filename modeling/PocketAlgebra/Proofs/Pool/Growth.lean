import Mathlib.Algebra.Order.BigOperators.Group.List
import Mathlib.Algebra.Order.Group.Nat
import Mathlib.Data.List.TakeWhile
import PocketAlgebra.Proofs.Pool.Insertion
import PocketAlgebra.Proofs.Pool.Ownership

/-!
# Growth of a pool

Where all former handles are still held and new nodes have taken new operands only, the former nodes
are what they have been, counters and flags included, and the new ones stand before them.
-/

namespace PocketAlgebra

/-- A node with the references that there are, from handles and from operands. -/
def Node.recount (handles operands : List Nat) (node : Node) : Node :=
  { node with
    references := handles.count node.key + operands.count node.key
    hasParent := 0 < operands.count node.key }

/-- A node without what changes in the course of time. -/
def Node.bare (node : Node) : Node :=
  { node with references := 0, hasParent := false }

namespace Pool

variable {p q : Pool} {key : Nat} {handles loose made : List Nat}

/-! ## Nodes in order of their keys -/

theorem lt_of_mem_dropWhile {nodes : List Node} (bound : Nat)
    (hsorted : nodes.Pairwise fun a b => b.key < a.key) :
    ∀ node ∈ nodes.dropWhile (bound ≤ ·.key), node.key < bound := by
  induction nodes with
  | nil => simp
  | cons first nodes ih =>
      rw [List.pairwise_cons] at hsorted
      rw [List.dropWhile_cons]
      split
      · exact ih hsorted.2
      · rename_i hfirst
        have hlt : first.key < bound := by simpa using hfirst
        intro node hnode
        rcases List.mem_cons.mp hnode with rfl | hlater
        · exact hlt
        · exact Nat.lt_trans (hsorted.1 node hlater) hlt

/-- The nodes of a pool from a key on, and those before it. -/
theorem Balanced.split (h : Balanced p loose handles) (bound : Nat) :
    ∃ newer older, p.nodes = newer ++ older ∧ (∀ node ∈ newer, bound ≤ node.key) ∧
      ∀ node ∈ older, node.key < bound := by
  refine ⟨p.nodes.takeWhile (bound ≤ ·.key), p.nodes.dropWhile (bound ≤ ·.key), ?_, ?_, ?_⟩
  · exact List.takeWhile_append_dropWhile.symm
  · intro node hnode
    simpa using List.mem_takeWhile_imp hnode
  · exact lt_of_mem_dropWhile bound h.latestFirst

/-- Lists of nodes in order of their keys are the same if they have the same members. -/
theorem eq_of_sorted {nodes nodes' : List Node}
    (h : nodes.Pairwise fun a b => b.key < a.key)
    (h' : nodes'.Pairwise fun a b => b.key < a.key)
    (hmem : ∀ node, node ∈ nodes ↔ node ∈ nodes') : nodes = nodes' := by
  have hnodup : ∀ {nodes : List Node}, nodes.Pairwise (fun a b => b.key < a.key) →
      nodes.Nodup := by
    intro nodes hsorted
    apply hsorted.imp
    rintro a b hlt rfl
    exact Nat.lt_irrefl _ hlt
  have hperm := (List.perm_ext_iff_of_nodup (hnodup h) (hnodup h')).mpr hmem
  apply hperm.eq_of_pairwise _ h h'
  intro a b _ _ hlt hlt'
  exact absurd hlt (Nat.lt_asymm hlt')

theorem Balanced.recount_eq (h : Balanced p [] handles) {node : Node} (hnode : node ∈ p.nodes) :
    node.recount handles p.operandKeys = node := by
  have hcounted := h.counted node hnode
  have hplaced := h.placed node hnode
  rw [List.nil_append] at hcounted hplaced
  have hparent : decide (0 < p.operandKeys.count node.key) = node.hasParent := by
    rw [hplaced]
    cases node.hasParent <;> rfl
  unfold Node.recount
  rw [← hcounted, hparent]

/-! ## What is left of former nodes -/

/-- A node is not freed as long as the handles from which it can be reached are held. -/
theorem Balanced.alive (hp : Balanced p [] handles) (h : Evolves p q handles)
    (hkey : key ∈ p.keys) : key ∈ q.keys := by
  rcases mem_keys.mp hkey with ⟨node, hnode, rfl⟩
  rcases hp.reached hnode with ⟨handle, hhandle, hlive, hreach⟩
  generalize node.key = last at hreach
  clear hkey hnode
  induction hreach with
  | here _ => exact h.kept handle hhandle (contains_iff.mp hlive)
  | @operand child parent _ hparent hchild hlive ih =>
      rcases mem_keys.mp ih with ⟨later, hlater, hsame⟩
      have hformer : later.key < p.nextKey := hsame ▸ hp.node_lt_nextKey hparent
      rcases h.former later hlater hformer with ⟨old, hold, hkey, -, hchildren⟩
      have heq := hp.unique hparent hold (hkey.trans hsame)
      subst heq
      exact h.operands later hlater hformer child (hchildren ▸ hchild) (contains_iff.mp hlive)

/-- A pool `q` has come from a pool `p` by growth: its nodes are those of `p` behind new ones. -/
structure Grown (p q : Pool) (newer : List Node) : Prop where
  nodes : q.nodes = newer ++ p.nodes
  used : q.used = (newer.map Node.charge).sum + p.used
  fresh : ∀ node ∈ newer, p.nextKey ≤ node.key

theorem Balanced.grown (hp : Balanced p [] handles) (hq : Balanced q [] (made ++ handles))
    (h : Evolves p q handles) (hcontained : SelfContained p q)
    (hmade : ∀ key ∈ made, p.nextKey ≤ key) : ∃ newer, Grown p q newer := by
  rcases hq.split p.nextKey with ⟨newer, older, hnodes, hnewer, holder⟩
  have hmem : ∀ {node}, node ∈ older → node ∈ q.nodes := fun hnode => by simp [hnodes, hnode]
  have hbare : older.map Node.bare = p.nodes.map Node.bare := by
    have hsorted := hq.latestFirst
    rw [hnodes, List.pairwise_append] at hsorted
    apply eq_of_sorted
    · rw [List.pairwise_map]
      exact hsorted.2.1
    · rw [List.pairwise_map]
      exact hp.latestFirst
    intro bare
    rw [List.mem_map, List.mem_map]
    constructor
    · rintro ⟨node, hnode, rfl⟩
      rcases h.former node (hmem hnode) (holder node hnode) with ⟨old, hold, hkey, hhead, hchildren⟩
      refine ⟨old, hold, ?_⟩
      rw [Node.bare, Node.bare, hkey, hhead, hchildren]
    · rintro ⟨old, hold, rfl⟩
      rcases mem_keys.mp (hp.alive h (mem_keys.mpr ⟨old, hold, rfl⟩)) with ⟨node, hnode, hkey⟩
      have hformer : node.key < p.nextKey := hkey ▸ hp.node_lt_nextKey hold
      have hplace : node ∈ older := by
        rw [hnodes, List.mem_append] at hnode
        rcases hnode with hnode | hnode
        · have hge := hnewer node hnode
          omega
        · exact hnode
      rcases h.former node (hmem hplace) hformer with ⟨old', hold', hkey', hhead, hchildren⟩
      have heq := hp.unique hold hold' (hkey'.trans hkey)
      subst heq
      refine ⟨node, hplace, ?_⟩
      rw [Node.bare, Node.bare, hkey, hhead, hchildren]
  have hnames : ∀ key < p.nextKey,
      (made ++ handles).count key = handles.count key ∧
        q.operandKeys.count key = p.operandKeys.count key := by
    intro key hkey
    constructor
    · rw [List.count_append, List.count_eq_zero.mpr, Nat.zero_add]
      intro hmem
      have hge := hmade key hmem
      omega
    · have hsame : older.flatMap Node.children = p.nodes.flatMap Node.children := by
        have hfaces := congrArg (List.flatMap Node.children) hbare
        simpa only [List.flatMap_map, Node.bare] using hfaces
      rw [operandKeys, operandKeys, hnodes, List.flatMap_append, List.count_append, hsame,
        List.count_eq_zero.mpr, Nat.zero_add]
      intro hmem
      rcases List.mem_flatMap.mp hmem with ⟨node, hnode, hchild⟩
      have hge := (hcontained node (by simp [hnodes, hnode]) (hnewer node hnode) key hchild).1
      omega
  have holderEq : older = p.nodes := by
    have hcount : ∀ node ∈ older, node.bare.recount handles p.operandKeys = node := by
      intro node hnode
      rcases hnames node.key (holder node hnode) with ⟨hhandles, hoperands⟩
      have heq := hq.recount_eq (hmem hnode)
      unfold Node.recount at heq ⊢
      simp only [Node.bare]
      rw [hhandles, hoperands] at heq
      exact heq
    have hcount' : ∀ node ∈ p.nodes, node.bare.recount handles p.operandKeys = node :=
      fun node hnode => hp.recount_eq hnode
    calc
      older = (older.map Node.bare).map (Node.recount handles p.operandKeys) := by
        rw [List.map_map]
        exact ((List.map_congr_left hcount).trans (List.map_id older)).symm
      _ = (p.nodes.map Node.bare).map (Node.recount handles p.operandKeys) := by rw [hbare]
      _ = p.nodes := by
        rw [List.map_map]
        exact (List.map_congr_left hcount').trans (List.map_id p.nodes)
  subst holderEq
  refine ⟨newer, hnodes, ?_, hnewer⟩
  rw [hq.charged, hp.charged, hnodes, List.map_append, List.sum_append]

/-! ## Where new nodes belong -/

/-- Operands have lesser keys than the nodes over them. -/
theorem Reaches.le {first last : Nat} (h : Reaches p first last)
    (hp : Balanced p loose handles) : last ≤ first := by
  induction h with
  | here _ => exact Nat.le_refl _
  | operand _ hparent hchild _ ih =>
      exact Nat.le_trans (Nat.le_of_lt (hp.lesser _ hparent _ hchild)) ih

/-- New nodes are those of the expressions that have been made. -/
theorem Grown.reached {newer : List Node} (h : Grown p q newer) (hp : Balanced p [] handles)
    (hq : Balanced q [] (made ++ handles)) :
    ∀ node ∈ newer, ∃ key ∈ made, Reaches q key node.key := by
  intro node hnode
  have hmem : node ∈ q.nodes := by simp [h.nodes, hnode]
  rcases hq.reached hmem with ⟨handle, hhandle, -, hreach⟩
  rcases List.mem_append.mp hhandle with hmade | hheld
  · exact ⟨handle, hmade, hreach⟩
  · have hle := hreach.le hq
    have hlt := hp.handle_lt_nextKey hheld
    have hge := h.fresh node hnode
    omega

/-- What has made nothing in the end has left all nodes as they were. -/
theorem Copied.unchanged (h : Copied p q handles []) (hp : Balanced p [] handles) :
    q.nodes = p.nodes ∧ q.used = p.used := by
  rcases hp.grown h.balanced h.evolves h.contained (by simp) with ⟨newer, hgrown⟩
  have hnone : newer = [] := by
    apply List.eq_nil_iff_forall_not_mem.mpr
    intro node hnode
    rcases hgrown.reached hp h.balanced node hnode with ⟨key, hkey, -⟩
    cases hkey
  subst hnone
  exact ⟨hgrown.nodes, hgrown.used.trans (Nat.zero_add _)⟩

end Pool

/-!
## Counting new nodes

The nodes that have come up are those of the expressions that are held: each of them is held by one
handle, or is an operand of one other. So what is charged for them, and their number, can be told
from the expressions.
-/

/-- A node has operands only where its head is an operator, so that all of them are read. -/
def Node.Fits (node : Node) : Prop :=
  node.children = [] ∨ ∃ f xs, node.head = .apply f xs

namespace Pool

variable {p q : Pool} {key : Nat} {handles loose made : List Nat} {newer : List Node}

/-! ### Reading a node by its operands -/

theorem Balanced.readWithin_eq (h : Balanced p loose handles) {levels : Nat}
    (hlevels : key < levels) : p.readWithin levels key = p.read key := by
  induction key using Nat.strongRecOn generalizing levels with
  | ind key ih =>
      rcases levels with - | levels
      · omega
      by_cases hlive : key ∈ p.keys
      · rcases mem_keys.mp hlive with ⟨node, hnode, rfl⟩
        rw [read, readWithin, readWithin, h.node?_eq hnode]
        simp only
        congr 1
        apply List.map_congr_left
        intro child hchild
        have hlesser := h.lesser node hnode child hchild
        rw [ih child hlesser (by omega), ih child hlesser hlesser]
      · rw [read, readWithin_stale hlive, readWithin_stale hlive]

/-- The expression of a node is put together from those of its operands. -/
theorem Balanced.read_node (h : Balanced p loose handles) {node : Node} (hnode : node ∈ p.nodes) :
    p.read node.key = node.head.withOperands (node.children.map p.read) := by
  rw [read, readWithin, h.node?_eq hnode]
  simp only
  congr 1
  apply List.map_congr_left
  intro child hchild
  exact h.readWithin_eq (h.lesser node hnode child hchild)

/-! ### Each new node is met once -/

/-- The keys of the new nodes are those that are held and those of the operands of new nodes. -/
theorem Copied.keys_perm (h : Copied p q handles made) (hp : Balanced p [] handles)
    (hgrown : Grown p q newer) :
    (newer.map Node.key).Perm (made ++ newer.flatMap Node.children) := by
  have hmem : ∀ {node}, node ∈ newer → node ∈ q.nodes := fun hnode => by simp [hgrown.nodes, hnode]
  have hlater : ∀ k, p.nextKey ≤ k → k ∈ q.keys → k ∈ newer.map Node.key := by
    intro k hge hlive
    rcases mem_keys.mp hlive with ⟨node, hnode, rfl⟩
    rw [hgrown.nodes, List.mem_append] at hnode
    rcases hnode with hnew | hold
    · exact List.mem_map_of_mem hnew
    · have hlt := hp.node_lt_nextKey hold
      omega
  have hnodup : (newer.map Node.key).Nodup := by
    have hsorted := h.balanced.latestFirst
    rw [hgrown.nodes, List.pairwise_append] at hsorted
    rw [List.Nodup, List.pairwise_map]
    exact hsorted.1.imp fun hlt => Nat.ne_of_gt hlt
  rw [List.perm_iff_count]
  intro k
  by_cases hk : k ∈ newer.map Node.key
  · rw [List.count_eq_one_of_mem hnodup hk, List.count_append]
    rcases List.mem_map.mp hk with ⟨node, hnode, rfl⟩
    have hge := hgrown.fresh node hnode
    have hheld := h.balanced.held node (hmem hnode)
    have hcounted := h.balanced.counted node (hmem hnode)
    have hplaced := h.balanced.placed node (hmem hnode)
    have hforeign : handles.count node.key = 0 := by
      rw [List.count_eq_zero]
      intro hhandle
      have hlt := hp.handle_lt_nextKey hhandle
      omega
    have holder : q.operandKeys.count node.key =
        (newer.flatMap Node.children).count node.key := by
      have hformer : p.operandKeys.count node.key = 0 := by
        rw [List.count_eq_zero]
        intro hoperand
        have hlt := hp.operand_lt_nextKey hoperand
        omega
      rw [operandKeys, hgrown.nodes, List.flatMap_append, List.count_append]
      exact (congrArg _ hformer).trans (Nat.add_zero _)
    rw [List.nil_append, holder] at hplaced
    rw [List.count_append, List.nil_append, hforeign, holder] at hcounted
    by_cases hmade : node.key ∈ made
    · rw [List.count_eq_one_of_mem h.nodup hmade]
      have hfree := (h.fresh node.key hmade).2.2
      rw [Bool.eq_false_iff, ne_eq, h.balanced.poolHasParent_iff] at hfree
      have hnone : (newer.flatMap Node.children).count node.key = 0 := by
        rw [← holder, List.count_eq_zero]
        exact fun hoperand => hfree ⟨mem_keys.mpr ⟨node, hmem hnode, rfl⟩, hoperand⟩
      omega
    · rw [List.count_eq_zero.mpr hmade] at hcounted ⊢
      have hle := Bool.toNat_le node.hasParent
      omega
  · rw [List.count_eq_zero.mpr hk, eq_comm, List.count_eq_zero, List.mem_append]
    rintro (hmade | hoperand)
    · exact hk (hlater k (h.fresh k hmade).1 (h.fresh k hmade).2.1)
    · rcases List.mem_flatMap.mp hoperand with ⟨node, hnode, hchild⟩
      rcases h.contained node (hmem hnode) (hgrown.fresh node hnode) k hchild with ⟨hge, hlive⟩
      exact hk (hlater k hge hlive)

theorem sum_map_operands (weight : Node → Nat) (μ : Nat → Nat) (nodes : List Node) :
    (nodes.map fun node => weight node + (node.children.map μ).sum).sum =
      (nodes.map weight).sum + ((nodes.flatMap Node.children).map μ).sum := by
  induction nodes with
  | nil => rfl
  | cons node nodes ih =>
      simp only [List.map_cons, List.sum_cons, List.flatMap_cons, List.map_append, List.sum_append,
        ih]
      omega

section Tally

variable (μ : Expr → Nat) (weight : Node → Nat)

/-- A measure of trees, summed up over all new nodes. -/
theorem Copied.sum_newer (h : Copied p q handles made) (hp : Balanced p [] handles)
    (hgrown : Grown p q newer) :
    (newer.map fun node => μ (q.read node.key)).sum =
      (made.map (μ ∘ q.read)).sum + ((newer.flatMap Node.children).map (μ ∘ q.read)).sum := by
  have hall := ((h.keys_perm hp hgrown).map (μ ∘ q.read)).sum_eq
  rw [List.map_append, List.sum_append, List.map_map] at hall
  exact hall

/-- Where a measure of trees adds up over their nodes, the expressions that are held measure what
the new nodes do. -/
theorem Copied.tally (h : Copied p q handles made) (hp : Balanced p [] handles)
    (hgrown : Grown p q newer)
    (hweight : ∀ node ∈ newer, μ (q.read node.key) =
      weight node + (node.children.map (μ ∘ q.read)).sum) :
    (made.map (μ ∘ q.read)).sum = (newer.map weight).sum := by
  have hall := h.sum_newer μ hp hgrown
  rw [List.map_congr_left hweight, sum_map_operands weight (μ ∘ q.read) newer] at hall
  omega

theorem Copied.tally_le (h : Copied p q handles made) (hp : Balanced p [] handles)
    (hgrown : Grown p q newer)
    (hweight : ∀ node ∈ newer, μ (q.read node.key) ≤
      weight node + (node.children.map (μ ∘ q.read)).sum) :
    (made.map (μ ∘ q.read)).sum ≤ (newer.map weight).sum := by
  have hall := h.sum_newer μ hp hgrown
  have hle := List.sum_le_sum hweight
  rw [sum_map_operands weight (μ ∘ q.read) newer] at hle
  omega

end Tally

/-! ### Bytes and numbers of nodes -/

theorem chargeAll_map {keys : List Nat} :
    Expr.chargeAll (keys.map p.read) = (keys.map (Expr.charge ∘ p.read)).sum := by
  induction keys with
  | nil => rfl
  | cons key keys ih => simp only [List.map_cons, Expr.chargeAll, List.sum_cons, ih, Function.comp]

theorem sizeAll_map {keys : List Nat} :
    Expr.sizeAll (keys.map p.read) = (keys.map (Expr.size ∘ p.read)).sum := by
  induction keys with
  | nil => rfl
  | cons key keys ih => simp only [List.map_cons, Expr.sizeAll, List.sum_cons, ih, Function.comp]

theorem charge_withOperands_le (head : Expr) (xs : List Expr) :
    (head.withOperands xs).charge ≤ Node.chargeOf head xs.length + Expr.chargeAll xs := by
  cases head with
  | apply f ys => exact Nat.le_refl _
  | _ =>
    simp only [Expr.withOperands, Expr.charge, Node.chargeOf]
    omega

theorem charge_withOperands {head : Expr} {xs : List Expr}
    (h : xs = [] ∨ ∃ f ys, head = .apply f ys) :
    (head.withOperands xs).charge = Node.chargeOf head xs.length + Expr.chargeAll xs := by
  rcases h with rfl | ⟨f, ys, rfl⟩
  · cases head <;> rfl
  · rfl

theorem charge_of_fits {node : Node} (h : node.Fits) :
    (node.head.withOperands (node.children.map p.read)).charge =
      node.charge + Expr.chargeAll (node.children.map p.read) := by
  rw [charge_withOperands (h.imp_left List.map_eq_nil_iff.mpr), List.length_map]
  rfl

theorem size_of_fits {node : Node} (h : node.Fits) :
    (node.head.withOperands (node.children.map p.read)).size =
      1 + Expr.sizeAll (node.children.map p.read) := by
  rcases h with hnone | ⟨f, xs, hhead⟩
  · rw [hnone]
    cases node.head <;> rfl
  · rw [hhead, Expr.withOperands, Expr.size, Nat.add_comm]

/-- The nodes from a key on fit. -/
def Fitting (bound : Nat) (q : Pool) : Prop :=
  ∀ node ∈ q.nodes, bound ≤ node.key → node.Fits

theorem Copied.charged_le (h : Copied p q handles made) (hp : Balanced p [] handles) :
    p.used + Expr.chargeAll (made.map q.read) ≤ q.used := by
  rcases hp.grown h.balanced h.evolves h.contained (fun key hkey => (h.fresh key hkey).1) with
    ⟨newer, hgrown⟩
  have htally := h.tally_le Expr.charge Node.charge hp hgrown (by
    intro node hnode
    have hmem : node ∈ q.nodes := by simp [hgrown.nodes, hnode]
    have hle := charge_withOperands_le node.head (node.children.map q.read)
    rw [h.balanced.read_node hmem, ← chargeAll_map]
    rwa [List.length_map] at hle)
  rw [chargeAll_map, hgrown.used]
  omega

/-- What is charged for the expressions that are held is what has been used up. -/
theorem Copied.charged (h : Copied p q handles made) (hp : Balanced p [] handles)
    (hfits : Fitting p.nextKey q) : q.used = p.used + Expr.chargeAll (made.map q.read) := by
  rcases hp.grown h.balanced h.evolves h.contained (fun key hkey => (h.fresh key hkey).1) with
    ⟨newer, hgrown⟩
  have htally := h.tally Expr.charge Node.charge hp hgrown (by
    intro node hnode
    have hmem : node ∈ q.nodes := by simp [hgrown.nodes, hnode]
    rw [h.balanced.read_node hmem, ← chargeAll_map]
    exact charge_of_fits (hfits node hmem (hgrown.fresh node hnode)))
  rw [chargeAll_map, hgrown.used, htally, Nat.add_comm]

/-- There are as many new nodes as the expressions that are held have. -/
theorem Copied.counted (h : Copied p q handles made) (hp : Balanced p [] handles)
    (hfits : Fitting p.nextKey q) (hgrown : Grown p q newer) :
    newer.length = Expr.sizeAll (made.map q.read) := by
  have htally := h.tally Expr.size (fun _ => 1) hp hgrown (by
    intro node hnode
    have hmem : node ∈ q.nodes := by simp [hgrown.nodes, hnode]
    rw [h.balanced.read_node hmem, ← sizeAll_map]
    exact size_of_fits (hfits node hmem (hgrown.fresh node hnode)))
  rw [sizeAll_map, htally]
  simp

end Pool

end PocketAlgebra

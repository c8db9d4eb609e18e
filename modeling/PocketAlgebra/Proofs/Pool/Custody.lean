import PocketAlgebra.Proofs.Pool.Growth
import PocketAlgebra.Proofs.Pool.Undo

/-!
# Working on what has been made

Handles to trees that have been made since some time are dropped, taken apart, and taken over by
further nodes. What had been there at that time is left alone by this, and so are the other trees
that have been made.
-/

namespace PocketAlgebra
namespace Pool

variable {p q r : Pool} {key : Nat} {head : Expr} {handles keys kept made : List Nat}

/-! ## Nodes that fit -/

section Fitting

variable {bound : Nat}

/-- Nodes that have been there before fit if they did. -/
theorem Fitting.evolves (h : Fitting bound q) (hqr : Evolves q r kept)
    (hnew : ∀ node ∈ r.nodes, q.nextKey ≤ node.key → node.Fits) : Fitting bound r := by
  intro node hnode hge
  by_cases hformer : node.key < q.nextKey
  · rcases hqr.former node hnode hformer with ⟨old, hold, hkey, hhead, hchildren⟩
    have hfits := h old hold (by omega)
    unfold Node.Fits at hfits ⊢
    rwa [hhead, hchildren] at hfits
  · exact hnew node hnode (by omega)

/-- Without new nodes, all fit that did. -/
theorem Fitting.remains (h : Fitting bound q) (hr : Balanced r [] handles) (hqr : Evolves q r kept)
    (hnext : r.nextKey = q.nextKey) : Fitting bound r := by
  apply h.evolves hqr
  intro node hnode hge
  have hlt := hr.node_lt_nextKey hnode
  omega

theorem Allocated.fits (h : Allocated q r head handles keys made) (hfits : Fitting bound q)
    (hhead : keys = [] ∨ ∃ f xs, head = .apply f xs) : Fitting bound r := by
  apply hfits.evolves h.evolves
  intro node hnode hge
  rcases h.operands node hnode hge with ⟨hsame, hchildren, -⟩
  unfold Node.Fits
  rw [hsame, hchildren]
  exact hhead

end Fitting

namespace Copied

theorem perm {made' : List Nat} (h : Copied p q handles made) (hperm : made.Perm made') :
    Copied p q handles made' := by
  constructor
  · exact h.balanced.perm_handles (hperm.append_right handles)
  · exact h.evolves
  · exact h.contained
  · exact hperm.nodup_iff.mp h.nodup
  · intro key hkey
    exact h.fresh key (hperm.mem_iff.mpr hkey)

/-- What evolves from there on, without new nodes, leaves what is kept as it was made. -/
theorem keep (h : Copied p q handles (keys ++ kept)) (hbalanced : Balanced r [] (kept ++ handles))
    (hevolves : Evolves q r (kept ++ handles)) (hnext : r.nextKey = q.nextKey) :
    Copied p r handles kept := by
  have hafter := hevolves.mono fun k hk => List.mem_append_right kept hk
  constructor
  · exact hbalanced
  · exact h.evolves.trans hafter
  · exact h.contained.trans (SelfContained.of_nextKey_eq hbalanced hnext) h.evolves hafter
  · exact h.nodup.of_append_right
  · intro k hk
    rcases h.fresh k (List.mem_append_right keys hk) with ⟨hge, hlive, hfree⟩
    refine ⟨hge, hevolves.kept k (List.mem_append_left handles hk) hlive, ?_⟩
    apply h.balanced.stays_free hbalanced hevolves hlive hfree
    intro node hnode hnew
    have hlt := hbalanced.node_lt_nextKey hnode
    omega

/-! ## Dropping -/

theorem drop (h : Copied p q handles (keys ++ kept)) :
    Copied p (q.releaseAll keys) handles kept := by
  rcases h.balanced_kept.releaseAll with ⟨hbalanced, hevolves⟩
  exact h.keep hbalanced hevolves (nextKey_releaseAll q keys)

end Copied

/-- Handles to different nodes without parents are ready as they are. -/
theorem preparing_plain {ready : List Nat} (hnodup : (ready ++ keys).Nodup)
    (hfree : ∀ key ∈ keys, q.hasParent key = false) :
    q.preparing ready keys = (.ok (ready ++ keys), q) := by
  induction keys generalizing ready with
  | nil => rw [preparing, List.append_nil]
  | cons key keys ih =>
      have hunmet : ready.contains key = false := by
        rw [List.nodup_append] at hnodup
        rw [← Bool.not_eq_true, List.contains_iff_mem]
        exact fun hmem => hnodup.2.2 key hmem key List.mem_cons_self rfl
      rw [preparing, hfree key List.mem_cons_self, hunmet]
      simp only [Bool.or_self, Bool.false_eq_true, if_false]
      have hshift : ready ++ key :: keys = ready ++ [key] ++ keys := List.append_cons ready key keys
      rw [hshift] at hnodup ⊢
      exact ih hnodup fun other hother => hfree other (List.mem_cons_of_mem key hother)

theorem read_of_live {loose loose' handles' : List Nat} (hp : Balanced p loose handles)
    (hq : Balanced q loose' handles') (h : Evolves p q kept) (hlive : key ∈ q.keys)
    (hformer : key < p.nextKey) : q.read key = p.read key :=
  readWithin_evolves hp hq h (key + 1) hlive hformer

namespace Copied

theorem read_kept {handles' : List Nat} (h : Copied p q handles (keys ++ kept))
    (hr : Balanced r [] handles') (hevolves : Evolves q r (kept ++ handles)) (hkey : key ∈ kept) :
    r.read key = q.read key := by
  have hlive := (h.fresh key (List.mem_append_right keys hkey)).2.1
  exact read_of_live h.balanced hr hevolves
    (hevolves.kept key (List.mem_append_left handles hkey) hlive)
    (h.balanced.handle_lt_nextKey (List.mem_append_left _ (List.mem_append_right keys hkey)))

section Building

variable {outcome : Except Shortage Nat}

theorem building_plain (h : Copied p q handles (keys ++ kept)) :
    q.building head keys = q.allocateOver head keys := by
  have hfree : ∀ key ∈ keys, q.hasParent key = false :=
    fun key hkey => (h.fresh key (List.mem_append_left kept hkey)).2.2
  have hready : q.preparing [] keys = (.ok keys, q) :=
    preparing_plain h.nodup.of_append_left hfree
  rw [Pool.building, hready]

theorem building (h : Copied p q handles (keys ++ kept))
    (heq : q.building head keys = (outcome, r)) : Copied p r handles (granted outcome ++ kept) :=
  h.allocate (h.building_plain.symm.trans heq)

theorem allocated (h : Copied p q handles (keys ++ kept))
    (heq : q.building head keys = (outcome, r)) :
    Allocated q r head (kept ++ handles) keys (granted outcome) :=
  h.balanced_kept.allocateOver h.nodup.of_append_left
    (fun key hkey => (h.fresh key (List.mem_append_left kept hkey)).2.2)
    (h.building_plain.symm.trans heq)

/-- Whether a node is made is a matter of room alone. -/
theorem building_outcome (h : Copied p q handles (keys ++ kept))
    (heq : q.building head keys = (outcome, r)) :
    outcome = if q.free < Node.chargeOf head keys.length then
      .error ⟨Node.chargeOf head keys.length, q.free⟩ else .ok q.nextKey := by
  rw [h.building_plain, Pool.allocateOver, allocate_eq] at heq
  split_ifs at heq ⊢
  · exact (congrArg Prod.fst heq).symm
  · exact (congrArg Prod.fst heq).symm

/-- The node that has been made stands for what its operands stood for, put together. -/
theorem read_building (h : Copied p q handles (keys ++ kept))
    (heq : q.building head keys = (.ok key, r)) :
    r.read key = head.withOperands (keys.map q.read) := by
  have halloc := h.allocated heq
  rcases halloc.fresh key (List.mem_singleton_self key) with ⟨hkey, hlive, -⟩
  rcases mem_keys.mp hlive with ⟨node, hnode, rfl⟩
  rcases halloc.operands node hnode (Nat.le_of_eq hkey.symm) with ⟨hhead, hchildren, hkept⟩
  rw [halloc.balanced.read_node hnode, hhead, hchildren]
  congr 1
  apply List.map_congr_left
  intro child hchild
  have hthere := (h.fresh child (List.mem_append_left kept hchild)).2.1
  exact read_of_live h.balanced halloc.balanced halloc.evolves (hkept child hchild hthere)
    (h.balanced_kept.handle_lt_nextKey (List.mem_append_left _ hchild))

end Building

/-! ## Taking apart -/

theorem operandKeys_foldl_detach (keys : List Nat) (p : Pool) :
    (keys.foldl detach p).operandKeys = p.operandKeys := by
  induction keys generalizing p with
  | nil => rfl
  | cons key keys ih => exact (ih _).trans (operandKeys_update fun _ => rfl)

theorem keys_foldl_detach (keys : List Nat) (p : Pool) :
    (keys.foldl detach p).keys = p.keys := by
  induction keys generalizing p with
  | nil => rfl
  | cons key keys ih => exact (ih _).trans (keys_update fun _ => rfl)

/-- A node that has been made, and has no parent, is freed when it is taken apart. -/
theorem intoChildren_plain (h : Copied p q handles (key :: kept)) (hp : Balanced p [] handles) :
    ∃ node ∈ q.nodes, node.key = key ∧ q.dismantle? key = some (q.intoChildren key) ∧
      q.intoChildren key = (node.children, node.children.foldl detach (q.remove node)) := by
  rcases h.fresh key List.mem_cons_self with ⟨hge, hlive, hfree⟩
  rcases mem_keys.mp hlive with ⟨node, hnode, rfl⟩
  have hsole : node.references = 1 := by
    have hcounted := h.balanced.counted node hnode
    have hunmet := (List.nodup_cons.mp h.nodup).1
    have hforeign : node.key ∉ handles := by
      intro hhandle
      have hlt := hp.handle_lt_nextKey hhandle
      omega
    rw [Bool.eq_false_iff, ne_eq, h.balanced.poolHasParent_iff, not_and] at hfree
    rw [List.cons_append, List.count_cons_self, List.count_append, List.count_eq_zero.mpr hunmet,
      List.count_eq_zero.mpr hforeign, List.count_eq_zero.mpr (hfree hlive)] at hcounted
    exact hcounted
  have hdismantle : q.dismantle? node.key =
      some (node.children, node.children.foldl detach (q.remove node)) := by
    rw [dismantle?, h.balanced.node?_eq hnode]
    exact if_pos hsole
  have hinto : q.intoChildren node.key =
      (node.children, node.children.foldl detach (q.remove node)) := by
    rw [Pool.intoChildren, hdismantle]
  exact ⟨node, hnode, rfl, hinto ▸ hdismantle, hinto⟩

theorem intoChildren (h : Copied p q handles (key :: kept)) (hp : Balanced p [] handles)
    (heq : q.intoChildren key = (keys, r)) :
    Copied p r handles (keys ++ kept) ∧ Evolves q r (kept ++ handles) ∧ r.nextKey = q.nextKey ∧
      ∀ f xs, q.read key = .apply f xs → keys.map r.read = xs := by
  rcases h.intoChildren_plain hp with ⟨node, hnode, hkey, hdismantle, hinto⟩
  subst hkey
  rw [heq] at hdismantle hinto
  obtain ⟨rfl, hr⟩ := Prod.mk.inj hinto
  have hheld : Balanced q [] (node.key :: (kept ++ handles)) := h.balanced
  rcases dismantle_spec hheld hdismantle with ⟨hbalanced, hevolves, hnext⟩
  have hlives := (intoChildren_keeps hheld heq).2
  have hnew := h.contained node hnode (h.fresh node.key List.mem_cons_self).1
  have hgone := hheld.remove (h.balanced.node?_eq hnode)
  have hchildLive : ∀ child ∈ node.children, child ∈ r.keys :=
    fun child hchild => hlives child (List.mem_append_left _ hchild) (hnew child hchild).2
  -- The operands have been operands of this node only, which is not there any more.
  have hsingle : ∀ child ∈ node.children,
      node.children.count child = 1 ∧ child ∉ r.operandKeys := by
    intro child hchild
    have hstill := hchildLive child hchild
    rw [hr, keys_foldl_detach] at hstill
    rcases mem_keys.mp hstill with ⟨other, hother, rfl⟩
    have hplaced := hgone.placed other hother
    have hone := List.count_pos_iff.mpr hchild
    have hle := Bool.toNat_le other.hasParent
    rw [List.append_nil, List.count_append] at hplaced
    rw [hr, operandKeys_foldl_detach, ← List.count_eq_zero]
    omega
  refine ⟨?_, hevolves, hnext, ?_⟩
  · have hafter := hevolves.mono fun k hk => List.mem_append_right kept hk
    constructor
    · rw [List.append_assoc]
      exact hbalanced
    · exact h.evolves.trans hafter
    · exact h.contained.trans (SelfContained.of_nextKey_eq hbalanced hnext) h.evolves hafter
    · rw [List.nodup_append]
      refine ⟨?_, (List.nodup_cons.mp h.nodup).2, ?_⟩
      · rw [List.nodup_iff_count_le_one]
        intro child
        by_cases hchild : child ∈ node.children
        · exact Nat.le_of_eq (hsingle child hchild).1
        · rw [List.count_eq_zero.mpr hchild]
          exact Nat.zero_le 1
      · rintro child hchild _ hkept rfl
        have hfree := (h.fresh child (List.mem_cons_of_mem _ hkept)).2.2
        rw [Bool.eq_false_iff, ne_eq, h.balanced.poolHasParent_iff] at hfree
        exact hfree ⟨(hnew child hchild).2, mem_operandKeys.mpr ⟨node, hnode, hchild⟩⟩
    · intro k hk
      rcases List.mem_append.mp hk with hchild | hkept
      · refine ⟨(hnew k hchild).1, hchildLive k hchild, ?_⟩
        rw [Bool.eq_false_iff, ne_eq, hbalanced.poolHasParent_iff]
        exact fun hparent => (hsingle k hchild).2 hparent.2
      · rcases h.fresh k (List.mem_cons_of_mem _ hkept) with ⟨hge, hlive, hfree⟩
        refine ⟨hge, hevolves.kept k (List.mem_append_left handles hkept) hlive, ?_⟩
        apply h.balanced.stays_free hbalanced hevolves hlive hfree
        intro other hother hlater
        have hlt := hbalanced.node_lt_nextKey hother
        omega
  · intro f xs hread
    rw [h.balanced.read_node hnode] at hread
    have hoperands : node.children.map q.read = xs := by
      cases hhead : node.head with
      | apply g ys =>
          rw [hhead] at hread
          exact (Expr.apply.inj hread).2
      | _ =>
          rw [hhead] at hread
          cases hread
    rw [← hoperands]
    apply List.map_congr_left
    intro child hchild
    exact read_of_live h.balanced hbalanced hevolves (hchildLive child hchild)
      (hheld.issued child (by simp [(hnew child hchild).2]))

end Copied

/-! ## What copies stand for -/

/-- A pool `q` has come from a pool `p`, and has not outgrown its capacity since then. -/
structure Within (p q : Pool) : Prop where
  capacity : q.capacity = p.capacity
  used : q.used ≤ max p.used p.capacity

namespace Within

theorem refl (p : Pool) : Within p p :=
  ⟨rfl, Nat.le_max_left _ _⟩

theorem trans (h : Within p q) (h' : Within q r) : Within p r := by
  have hused := h.used
  have hused' := h'.used
  rw [h.capacity] at hused'
  exact ⟨h'.capacity.trans h.capacity, by omega⟩

theorem of_spends (h : Spends p q 0) : Within p q :=
  ⟨h.capacity, Nat.le_trans h.used (Nat.le_max_left _ _)⟩

theorem allocateOver {outcome : Except Shortage Nat}
    (heq : p.allocateOver head keys = (outcome, q)) : Within p q := by
  by_cases hroom : Node.chargeOf head keys.length ≤ p.free
  · rcases allocateOver_succeeds head hroom with ⟨q', hmade, hspends⟩
    obtain ⟨-, rfl⟩ := Prod.mk.inj (heq.symm.trans hmade)
    have hused := hspends.used
    have hsome : 0 < Node.chargeOf head keys.length := by
      unfold Node.chargeOf Charge.header
      omega
    unfold free at hroom
    exact ⟨hspends.capacity, by omega⟩
  · rw [Pool.allocateOver, allocate_eq, if_pos (by omega)] at heq
    cases heq
    exact of_spends (Spends.releaseAll p keys)

theorem copyAll {copyOne : Pool → Nat → Except Shortage Nat × Pool}
    {outcome : Except Shortage (List Nat)}
    (hone : ∀ {p q key outcome}, copyOne p key = (outcome, q) → Within p q)
    (heq : Pool.copyAll copyOne p made keys = (outcome, q)) : Within p q := by
  induction keys generalizing p made with
  | nil =>
      cases heq
      exact refl _
  | cons key keys ih =>
      rw [Pool.copyAll] at heq
      split at heq
      · rename_i hcopy
        exact (hone hcopy).trans (ih heq)
      · rename_i hcopy
        cases heq
        exact (hone hcopy).trans (of_spends (Spends.releaseAll _ made))

theorem copyWithin {outcome : Except Shortage Nat} (levels : Nat)
    (heq : Pool.copyWithin levels p key = (outcome, q)) : Within p q := by
  induction levels generalizing p q key outcome with
  | zero => exact allocateOver heq
  | succ levels ih =>
      rw [Pool.copyWithin] at heq
      split at heq
      · split at heq
        · rename_i hcopies
          exact (copyAll ih hcopies).trans (allocateOver heq)
        · rename_i hcopies
          cases heq
          exact copyAll ih hcopies
      · exact allocateOver heq

end Within

theorem Copied.within_intoChildren (h : Copied p q handles (key :: kept))
    (hp : Balanced p [] handles) (heq : q.intoChildren key = (keys, r)) : Within q r := by
  rcases h.intoChildren_plain hp with ⟨node, -, -, -, hinto⟩
  rw [heq] at hinto
  obtain ⟨-, rfl⟩ := Prod.mk.inj hinto
  have hremove : Spends q (q.remove node) 0 := ⟨rfl, Nat.sub_le _ _⟩
  have hstep : ∀ (p : Pool) key, Spends p (p.detach key) 0 := fun _ _ => ⟨rfl, Nat.le_refl _⟩
  exact Within.of_spends (hremove.trans (Spends.foldl hstep node.children (q.remove node)))

end Pool
end PocketAlgebra

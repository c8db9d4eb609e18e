import PocketAlgebra.Proofs.Pool.Building

/-!
# Ownership

Whatever a program does with a pool, each node counts the handles and the operands that it is, is an
operand of one node at most, and is there exactly as long as it can be reached from a handle.
-/

namespace PocketAlgebra

namespace Pool

variable {p q : Pool} {key : Nat} {handles keys : List Nat}

/-! ## Handles that are taken over -/

/-- Handles that are taken over come from those that are held. -/
theorem perm_append_diff (h : List.Subperm keys handles) :
    handles.Perm (keys ++ handles.diff keys) :=
  (List.subperm_append_diff_self_of_count_le (List.subperm_ext_iff.mp h)).symm

theorem subperm_of_perm_append {kept : List Nat} (h : handles.Perm (keys ++ kept)) :
    List.Subperm keys handles :=
  (List.sublist_append_left keys kept).subperm.trans h.symm.subperm

/-- What is not taken over is left. -/
theorem diff_perm {kept : List Nat} (h : handles.Perm (keys ++ kept)) :
    (handles.diff keys).Perm kept :=
  (List.perm_append_left_iff keys).mp ((perm_append_diff (subperm_of_perm_append h)).symm.trans h)

/-! ## Handles to operands -/

theorem Attaches.of_nextKey_eq {loose : List Nat} (h : Balanced q loose handles)
    (heq : q.nextKey = p.nextKey) : Attaches p q :=
  (SelfContained.of_nextKey_eq h heq).attaches

theorem Balanced.retainAll (h : Balanced p [] handles)
    (hissued : ∀ key ∈ keys, key < p.nextKey) :
    Balanced (keys.foldl Pool.retain p) [] (keys ++ handles) := by
  induction keys generalizing p handles with
  | nil => exact h
  | cons key keys ih =>
      have hfirst := h.retain (hissued key (by simp))
      have hrest := ih hfirst (fun other hother => hissued other (by simp [hother]))
      exact hrest.perm_handles List.perm_middle

theorem mem_childrenOf {child : Nat} (h : child ∈ p.childrenOf key) :
    child ∈ p.operandKeys := by
  unfold childrenOf at h
  cases hfound : p.node? key with
  | none => simp [hfound] at h
  | some node =>
      simp only [hfound, Option.map_some, Option.getD_some] at h
      exact mem_operandKeys.mpr ⟨node, (node?_eq_some hfound).1, h⟩

theorem children_spec (h : Balanced p [] handles) (heq : p.children key = (keys, q)) :
    Balanced q [] (keys ++ handles) ∧ Evolves p q handles ∧ q.nextKey = p.nextKey := by
  cases heq
  refine ⟨?_, ?_, nextKey_foldl nextKey_retain _ p⟩
  · apply h.retainAll
    intro child hchild
    exact h.operand_lt_nextKey (mem_childrenOf hchild)
  · exact Evolves.foldl (fun _ _ => Evolves.retain) _ p

theorem dismantle_spec (h : Balanced p [] (key :: handles))
    (heq : p.dismantle? key = some (keys, q)) :
    Balanced q [] (keys ++ handles) ∧ Evolves p q handles ∧ q.nextKey = p.nextKey := by
  unfold dismantle? at heq
  cases hfound : p.node? key with
  | none => simp [hfound] at heq
  | some node =>
      simp only [hfound] at heq
      split_ifs at heq with hsole
      cases heq
      have hgone : Balanced (p.remove node) (node.children ++ []) handles := by
        rw [List.append_nil]
        simpa using Balanced.remove h hfound
      refine ⟨?_, ?_, nextKey_foldl nextKey_detach _ (p.remove node)⟩
      · exact hgone.detachAll.perm_handles ((List.reverse_perm _).append_right handles)
      · have hremoved := h.evolves_remove hfound (by omega)
        exact hremoved.trans (Evolves.foldl (fun _ _ => Evolves.detach) _ _)

theorem intoChildren_spec (h : Balanced p [] (key :: handles))
    (heq : p.intoChildren key = (keys, q)) :
    Balanced q [] (keys ++ handles) ∧ Evolves p q handles ∧ q.nextKey = p.nextKey := by
  unfold intoChildren at heq
  cases hdismantled : p.dismantle? key with
  | some result =>
      simp only [hdismantled] at heq
      subst heq
      exact dismantle_spec h hdismantled
  | none =>
      simp only [hdismantled] at heq
      rcases hchildren : p.children key with ⟨given, shared⟩
      rw [hchildren] at heq
      cases heq
      rcases children_spec h hchildren with ⟨hbalanced, hevolves, hnext⟩
      have hshared : Balanced shared [] ([key] ++ (given ++ handles)) :=
        hbalanced.perm_handles List.perm_middle
      rcases hshared.releaseAll with ⟨hreleased, hevolves'⟩
      refine ⟨hreleased, ?_, (nextKey_releaseAll shared [key]).trans hnext⟩
      exact (hevolves.mono (fun k hk => List.mem_cons_of_mem key hk)).trans
        (hevolves'.mono (fun k hk => List.mem_append_right given hk))

/-! ## Reachable nodes -/

/-- A node can be reached from another one by going from nodes to their operands. -/
inductive Reaches (p : Pool) : Nat → Nat → Prop where
  | here {key : Nat} (live : p.contains key = true) : Reaches p key key
  | operand {key child : Nat} {node : Node} (parent : Reaches p key node.key)
      (member : node ∈ p.nodes) (named : child ∈ node.children)
      (live : p.contains child = true) : Reaches p key child

theorem Reaches.contains {first last : Nat} (h : Reaches p first last) :
    p.contains last = true := by
  cases h with
  | here live => exact live
  | operand _ _ _ live => exact live

theorem Balanced.reached (h : Balanced p [] handles) {node : Node} (hnode : node ∈ p.nodes) :
    ∃ handle ∈ handles, p.contains handle = true ∧ Reaches p handle node.key := by
  -- Operands come before the nodes over them: the induction goes from the latest nodes down.
  induction hdistance : p.nextKey - node.key using Nat.strongRecOn
    generalizing node with
  | ind distance ih =>
      have hlive : p.contains node.key = true := contains_iff.mpr (mem_keys.mpr ⟨node, hnode, rfl⟩)
      have hheld := h.held node hnode
      rw [h.counted node hnode] at hheld
      by_cases hhandle : node.key ∈ handles
      · exact ⟨node.key, hhandle, hlive, Reaches.here hlive⟩
      · have hoperand : node.key ∈ p.operandKeys := by
          apply List.count_pos_iff.mp
          rw [List.count_eq_zero.mpr hhandle, List.nil_append] at hheld
          omega
        rcases mem_operandKeys.mp hoperand with ⟨parent, hparent, hchild⟩
        have hlesser := h.lesser parent hparent node.key hchild
        have hissued := h.node_lt_nextKey hparent
        rcases ih (p.nextKey - parent.key) (by omega) hparent rfl with
          ⟨handle, hmem, hhandleLive, hreach⟩
        exact ⟨handle, hmem, hhandleLive, Reaches.operand hreach hparent hchild hlive⟩

end Pool

namespace World

open PocketAlgebra.Pool

variable {u w : World}

/-! ## Steps and runs -/

/-- What holds of the world at any time: its handles are all the references from outside. -/
def Owned (w : World) : Prop :=
  Balanced w.pool [] w.handles

theorem start_owned (capacity identity : Nat) : (start capacity identity).Owned :=
  Balanced.empty capacity identity

theorem perform_owned {operation : Operation} (h : w.Owned) (hpermits : w.Permits operation) :
    (w.perform operation).Owned ∧ Evolves w.pool (w.perform operation).pool [] ∧
      Attaches w.pool (w.perform operation).pool := by
  have hnone : ∀ {q : Pool} {kept : List Nat}, Evolves w.pool q kept →
      Evolves w.pool q [] := fun hevolves => hevolves.mono (by simp)
  cases operation with
  | build head keys =>
      have hperm := perm_append_diff hpermits
      rcases hbuild : w.pool.building head keys with ⟨outcome, q⟩
      rcases building_spec (h.perm_handles hperm) hbuild with ⟨hbalanced, hevolves, hattaches⟩
      simp only [perform, hbuild]
      exact ⟨hbalanced, hnone hevolves, hattaches⟩
  | clone key =>
      have hbalanced := h.retain (h.handle_lt_nextKey hpermits)
      exact ⟨hbalanced, Evolves.retain, Attaches.of_nextKey_eq hbalanced rfl⟩
  | drop key =>
      have hbalanced : Balanced w.pool [] ([key] ++ w.handles.erase key) :=
        h.perm_handles (List.perm_cons_erase hpermits)
      rcases hbalanced.releaseAll with ⟨hreleased, hevolves⟩
      exact ⟨hreleased, hnone hevolves,
        Attaches.of_nextKey_eq hreleased (nextKey_releaseAll _ _)⟩
  | child key index =>
      cases hchild : w.pool.child? key index with
      | none =>
          simp only [perform, hchild]
          exact ⟨h, Evolves.refl _ _, Attaches.of_nextKey_eq h rfl⟩
      | some result =>
          simp only [perform, hchild]
          unfold child? at hchild
          rcases Option.map_eq_some_iff.mp hchild with ⟨child, hget, rfl⟩
          have hoperand := mem_childrenOf (List.mem_of_getElem? hget)
          have hbalanced := h.retain (h.operand_lt_nextKey hoperand)
          exact ⟨hbalanced, Evolves.retain, Attaches.of_nextKey_eq hbalanced rfl⟩
  | children key =>
      rcases hchildren : w.pool.children key with ⟨keys, q⟩
      rcases children_spec h hchildren with ⟨hbalanced, hevolves, hnext⟩
      simp only [perform, hchildren]
      exact ⟨hbalanced, hnone hevolves, Attaches.of_nextKey_eq hbalanced hnext⟩
  | intoChildren key =>
      have hhandle : Balanced w.pool [] (key :: w.handles.erase key) :=
        h.perm_handles (List.perm_cons_erase hpermits)
      rcases hchildren : w.pool.intoChildren key with ⟨keys, q⟩
      rcases intoChildren_spec hhandle hchildren with ⟨hbalanced, hevolves, hnext⟩
      simp only [perform, hchildren]
      exact ⟨hbalanced, hnone hevolves, Attaches.of_nextKey_eq hbalanced hnext⟩
  | deepClone key =>
      rcases hcopy : w.pool.copying key with ⟨outcome, q⟩
      have hcopied := copying_spec h hcopy
      simp only [perform, hcopy]
      exact ⟨hcopied.balanced, hnone hcopied.evolves, hcopied.contained.attaches⟩
  | checkpoint => exact ⟨h, Evolves.refl _ _, Attaches.of_nextKey_eq h rfl⟩
  | rollback checkpoint =>
      rcases Balanced.rollback h checkpoint with ⟨hbalanced, hevolves⟩
      exact ⟨hbalanced, hevolves,
        Attaches.of_nextKey_eq hbalanced (nextKey_rollback w.pool checkpoint)⟩

theorem run_owned (h : u.Owned) (hrun : Run u w) :
    w.Owned ∧ Evolves u.pool w.pool [] := by
  induction hrun with
  | refl => exact ⟨h, Evolves.refl u.pool []⟩
  | tail _ hstep ih =>
      rcases hstep with ⟨operation, hpermits, rfl⟩
      rcases perform_owned ih.1 hpermits with ⟨howned, hevolves, -⟩
      exact ⟨howned, ih.2.trans hevolves⟩

theorem run_keeps_ownership {capacity identity : Nat}
    (hrun : Run (start capacity identity) w) :
    (∀ node ∈ w.pool.nodes,
      node.references =
        w.handles.count node.key + w.pool.operandKeys.count node.key) ∧
    (∀ node ∈ w.pool.nodes,
      w.pool.operandKeys.count node.key ≤ 1 ∧
        (node.hasParent = true ↔ w.pool.operandKeys.count node.key = 1)) ∧
    (∀ node ∈ w.pool.nodes, ∀ child ∈ node.children, child < node.key) ∧
    (∀ u operation, Run (start capacity identity) u → u.Permits operation →
      Run (u.perform operation) w →
      ∀ node ∈ w.pool.nodes, u.pool.nextKey ≤ node.key →
        node.key < (u.perform operation).pool.nextKey →
        ∀ child ∈ node.children,
          u.pool.contains child = true ∨ u.pool.nextKey ≤ child →
          w.pool.contains child = true) ∧
    (∀ key, w.pool.contains key = true ↔
      ∃ handle ∈ w.handles, w.pool.contains handle = true ∧ Reaches w.pool handle key) ∧
    ((∀ handle ∈ w.handles, w.pool.contains handle = false) →
      w.pool.nodes = [] ∧ w.pool.used = 0) := by
  have howned : w.Owned := (run_owned (start_owned capacity identity) hrun).1
  have hreached : ∀ key, w.pool.contains key = true ↔
      ∃ handle ∈ w.handles, w.pool.contains handle = true ∧ Reaches w.pool handle key := by
    intro key
    constructor
    · intro hlive
      rcases mem_keys.mp (contains_iff.mp hlive) with ⟨node, hnode, rfl⟩
      exact Balanced.reached howned hnode
    · rintro ⟨handle, -, -, hreach⟩
      exact hreach.contains
  refine ⟨?_, ?_, howned.lesser, ?_, hreached, ?_⟩
  · intro node hnode
    exact howned.counted node hnode
  · intro node hnode
    have hplaced : w.pool.operandKeys.count node.key = node.hasParent.toNat :=
      howned.placed node hnode
    rw [hplaced]
    cases node.hasParent <;> simp
  · intro u operation hbefore hpermits hafter node hnode hge hlt child hchild hlive
    have hu := (run_owned (start_owned capacity identity) hbefore).1
    rcases perform_owned hu hpermits with ⟨hmiddle, -, hattaches⟩
    have hevolves := (run_owned hmiddle hafter).2
    rcases hevolves.former node hnode hlt with ⟨old, hold, hkey, -, hchildren⟩
    rw [contains_iff] at hlive ⊢
    have hthen := hattaches old hold (by omega) child (hchildren ▸ hchild) hlive
    exact hevolves.operands node hnode hlt child hchild hthen
  · intro hstale
    have hnodes : w.pool.nodes = [] := by
      apply List.eq_nil_iff_forall_not_mem.mpr
      intro node hnode
      rcases Balanced.reached howned hnode with ⟨handle, hmem, hlive, -⟩
      rw [hstale handle hmem] at hlive
      cases hlive
    refine ⟨hnodes, ?_⟩
    rw [howned.charged, hnodes]
    rfl

/-- A symbol, a second handle to it, and their sum, which takes both handles: the symbol becomes an
operand, and so does a copy of it. -/
def twice : World :=
  (((start 1000 0).perform (.build (.symbol "x") [])).perform (.clone 0)).perform
    (.build (.apply .addition []) [0, 0])

theorem twice_run : Run (start 1000 0) twice := by
  unfold Run
  apply Relation.ReflTransGen.tail
  · apply Relation.ReflTransGen.tail
    · apply Relation.ReflTransGen.single
      exact ⟨.build (.symbol "x") [], List.nil_subperm, rfl⟩
    · exact ⟨.clone 0, show 0 ∈ [0] by simp, rfl⟩
  · refine ⟨.build (.apply .addition []) [0, 0], ?_, rfl⟩
    rw [Permits, List.subperm_ext_iff]
    decide +kernel

theorem run_keeps_ownership_twice :
    twice.pool.nodes.map Node.children = [[0, 1], [], []] ∧
      (twice.perform (.drop 2)).pool.nodes = [] ∧ (twice.perform (.drop 2)).pool.used = 0 := by
  have hpermits : twice.Permits (.drop 2) := by
    show 2 ∈ twice.handles
    decide +kernel
  have hrun : Run (start 1000 0) (twice.perform (.drop 2)) :=
    twice_run.tail ⟨.drop 2, hpermits, rfl⟩
  refine ⟨by decide +kernel, ?_⟩
  exact (run_keeps_ownership hrun).2.2.2.2.2 (by decide +kernel)

end World

end PocketAlgebra

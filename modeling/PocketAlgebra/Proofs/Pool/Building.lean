import PocketAlgebra.Proofs.Pool.Evolution

/-!
# Copies and new nodes

Allocating a node over operands, copying a tree, and making a node keep the references of a pool
balanced, whether they succeed or not.
-/

namespace PocketAlgebra
namespace Pool

variable {p q r : Pool} {key : Nat} {head : Expr} {handles keys kept ready made : List Nat}

/-! ## Allocating over operands -/

theorem foldl_attach_counters (keys : List Nat) (p : Pool) :
    (keys.foldl attach p).used = p.used ∧ (keys.foldl attach p).nextKey = p.nextKey := by
  induction keys generalizing p with
  | nil => exact ⟨rfl, rfl⟩
  | cons key keys ih => exact ih _

theorem allocate_eq (p : Pool) (head : Expr) (keys : List Nat) :
    p.allocate head keys =
      if p.free < Node.chargeOf head keys.length then
        .error ⟨Node.chargeOf head keys.length, p.free⟩
      else
        .ok (p.nextKey, (keys.foldl attach p).push head keys) := by
  rcases foldl_attach_counters keys p with ⟨hused, hnext⟩
  unfold allocate push
  rw [hused, hnext]

/-- What allocating a node over operands does, whether there was room for it or not. -/
structure Allocated (p q : Pool) (head : Expr) (handles keys made : List Nat) : Prop where
  balanced : Balanced q [] (made ++ handles)
  evolves : Evolves p q handles
  fresh : ∀ key ∈ made, key = p.nextKey ∧ key ∈ q.keys ∧ q.hasParent key = false
  operands : ∀ node ∈ q.nodes, p.nextKey ≤ node.key →
    node.head = head ∧ node.children = keys ∧ ∀ child ∈ keys, child ∈ p.keys → child ∈ q.keys

theorem Evolves.push {children kept : List Nat} :
    Evolves p (p.push head children) kept := by
  constructor
  · exact Nat.le_succ _
  · intro node hnode hlt
    rw [mem_nodes_push] at hnode
    rcases hnode with rfl | hnode
    · exact absurd hlt (Nat.lt_irrefl _)
    · exact ⟨node, hnode, rfl, rfl, rfl⟩
  · intro _ _ _ child _ hlive
    exact List.mem_cons_of_mem _ hlive
  · intro _ _ hlive
    exact List.mem_cons_of_mem _ hlive

theorem Balanced.allocateOver {outcome : Except Shortage Nat}
    (h : Balanced p [] (keys ++ handles)) (hnodup : keys.Nodup)
    (hfree : ∀ key ∈ keys, p.hasParent key = false)
    (heq : p.allocateOver head keys = (outcome, q)) :
    Allocated p q head handles keys (granted outcome) := by
  rw [Pool.allocateOver, allocate_eq] at heq
  split_ifs at heq with hroom
  · cases heq
    rcases h.releaseAll with ⟨hbalanced, hevolves⟩
    refine ⟨hbalanced, hevolves, by simp [granted], ?_⟩
    intro node hnode hge
    have hlt := hbalanced.node_lt_nextKey hnode
    rw [nextKey_releaseAll] at hlt
    omega
  · cases heq
    let attached := keys.foldl Pool.attach p
    have hnext : attached.nextKey = p.nextKey := (foldl_attach_counters keys p).2
    have hissued : ∀ key ∈ keys, key < p.nextKey := by
      intro key hkey
      exact h.handle_lt_nextKey (List.mem_append_left _ hkey)
    have hattached : Balanced attached (keys ++ []) (keys ++ handles) :=
      (h.attachAll hissued hnodup hfree).perm
        ((List.reverse_perm keys).append_right []) (List.Perm.refl _)
    have hpushed : Balanced (attached.push head keys) []
        (keys ++ (attached.nextKey :: handles)) :=
      hattached.push.perm_handles List.perm_middle.symm
    rcases hpushed.releaseAll with ⟨hbalanced, hevolves⟩
    have hgrown : ∀ kept, Evolves p (attached.push head keys) kept := by
      intro kept
      have hfold : Evolves p attached kept := Evolves.foldl (fun _ _ => Evolves.attach) keys p
      exact hfold.trans Evolves.push
    have hmono := hevolves.mono (fun k hk => List.mem_cons_of_mem attached.nextKey hk)
    have hlatest : ∀ node ∈ ((attached.push head keys).releaseAll keys).nodes,
        p.nextKey ≤ node.key → node.key = p.nextKey := by
      intro node hnode hge
      have hlt := hbalanced.node_lt_nextKey hnode
      rw [nextKey_releaseAll] at hlt
      change node.key < attached.nextKey + 1 at hlt
      omega
    have hlive : p.nextKey ∈ ((attached.push head keys).releaseAll keys).keys := by
      apply hevolves.kept
      · rw [← hnext]
        exact List.mem_cons_self
      · rw [keys_push, ← hnext]
        exact List.mem_cons_self
    refine ⟨?_, (hgrown handles).trans hmono, ?_, ?_⟩
    · show Balanced _ [] (p.nextKey :: handles)
      rw [← hnext]
      exact hbalanced
    · intro key hkey
      rw [granted, List.mem_singleton] at hkey
      subst hkey
      refine ⟨rfl, hlive, ?_⟩
      rw [Bool.eq_false_iff, ne_eq, hbalanced.poolHasParent_iff]
      rintro ⟨-, hoperand⟩
      rcases mem_operandKeys.mp hoperand with ⟨node, hnode, hchild⟩
      have hlesser := hbalanced.lesser node hnode _ hchild
      have hkey := hlatest node hnode (by omega)
      omega
    · intro node hnode hge
      have hkey := hlatest node hnode hge
      have hnewer : node.key < (attached.push head keys).nextKey := by
        show node.key < attached.nextKey + 1
        omega
      rcases hevolves.former node hnode hnewer with ⟨old, hold, hkey', hhead, hchildren⟩
      rw [mem_nodes_push] at hold
      rcases hold with rfl | hold
      · refine ⟨hhead.symm, hchildren.symm, ?_⟩
        intro child hchild hchildLive
        apply hevolves.operands node hnode hnewer child
        · rw [← hchildren]
          exact hchild
        · exact (hgrown [child]).kept child (List.mem_singleton_self child) hchildLive
      · have hlt := hattached.node_lt_nextKey hold
        omega

/-! ## Copies -/

/-- The operands of the nodes that have come up since `p` have come up since then as well. -/
def SelfContained (p q : Pool) : Prop :=
  ∀ node ∈ q.nodes, p.nextKey ≤ node.key →
    ∀ child ∈ node.children, p.nextKey ≤ child ∧ child ∈ q.keys

namespace SelfContained

theorem of_nextKey_eq {loose : List Nat} (h : Balanced q loose handles)
    (heq : q.nextKey = p.nextKey) : SelfContained p q := by
  intro node hnode hge
  have hlt := h.node_lt_nextKey hnode
  omega

theorem trans (h : SelfContained p q) (h' : SelfContained q r)
    (hpq : Evolves p q handles) (hqr : Evolves q r handles) : SelfContained p r := by
  intro node hnode hge child hchild
  by_cases hlt : node.key < q.nextKey
  · rcases hqr.former node hnode hlt with ⟨old, hold, hkey, -, hchildren⟩
    rcases h old hold (by omega) child (hchildren ▸ hchild) with ⟨hnew, hlive⟩
    exact ⟨hnew, hqr.operands node hnode hlt child hchild hlive⟩
  · rcases h' node hnode (by omega) child hchild with ⟨hnew, hlive⟩
    exact ⟨Nat.le_trans hpq.next hnew, hlive⟩

/-- Nodes that take only new operands give no former node a parent. -/
theorem hasParent_eq_false {handles' kept : List Nat} (h : SelfContained p q)
    (hp : Balanced p [] handles) (hq : Balanced q [] handles')
    (hpq : Evolves p q kept) (hformer : key < p.nextKey)
    (hfree : p.hasParent key = false) : q.hasParent key = false := by
  rw [Bool.eq_false_iff, ne_eq, hp.poolHasParent_iff] at hfree
  rw [Bool.eq_false_iff, ne_eq, hq.poolHasParent_iff]
  rintro ⟨hlive, hoperand⟩
  apply hfree
  constructor
  · rcases mem_keys.mp hlive with ⟨node, hnode, rfl⟩
    rcases hpq.former node hnode hformer with ⟨old, hold, hkey, -⟩
    exact mem_keys.mpr ⟨old, hold, hkey⟩
  · rcases mem_operandKeys.mp hoperand with ⟨node, hnode, hchild⟩
    have hlt : node.key < p.nextKey := by
      by_contra hge
      have hnew := (h node hnode (by omega) key hchild).1
      omega
    rcases hpq.former node hnode hlt with ⟨old, hold, -, -, hchildren⟩
    exact mem_operandKeys.mpr ⟨old, hold, hchildren ▸ hchild⟩

end SelfContained

/-- A node without a parent does not get one from nodes that take other operands. -/
theorem Balanced.stays_free {handles' bystanders : List Nat} (hq : Balanced q [] handles)
    (hr : Balanced r [] handles') (h : Evolves q r bystanders) (hlive : key ∈ q.keys)
    (hfree : q.hasParent key = false)
    (hothers : ∀ node ∈ r.nodes, q.nextKey ≤ node.key → key ∉ node.children) :
    r.hasParent key = false := by
  rw [Bool.eq_false_iff, ne_eq, hq.poolHasParent_iff] at hfree
  rw [Bool.eq_false_iff, ne_eq, hr.poolHasParent_iff]
  rintro ⟨-, hoperand⟩
  rcases mem_operandKeys.mp hoperand with ⟨node, hnode, hchild⟩
  by_cases hformer : node.key < q.nextKey
  · rcases h.former node hnode hformer with ⟨old, hold, -, -, hchildren⟩
    exact hfree ⟨hlive, mem_operandKeys.mpr ⟨old, hold, hchildren ▸ hchild⟩⟩
  · exact hothers node hnode (by omega) hchild

/-- What copying does, whether there was room for all copies or not. -/
structure Copied (p q : Pool) (handles made : List Nat) : Prop where
  balanced : Balanced q [] (made ++ handles)
  evolves : Evolves p q handles
  contained : SelfContained p q
  nodup : made.Nodup
  fresh : ∀ key ∈ made, p.nextKey ≤ key ∧ key ∈ q.keys ∧ q.hasParent key = false

/-- The handles that are given by an operation that gives several, if it succeeds. -/
def grantedAll : Except Shortage (List Nat) → List Nat
  | .ok keys => keys
  | .error _ => []

namespace Copied

theorem none (h : Balanced p [] handles) : Copied p p handles [] := by
  constructor
  · exact h
  · exact Evolves.refl p handles
  · exact SelfContained.of_nextKey_eq h rfl
  · exact List.nodup_nil
  · simp

theorem append (h : Copied p q handles made) (h' : Copied q r (made ++ handles) keys) :
    Copied p r handles (made ++ keys) := by
  have hevolves := h'.evolves.mono (fun k hk => List.mem_append_right made hk)
  constructor
  · apply h'.balanced.perm_handles
    rw [← List.append_assoc]
    exact List.perm_append_comm.append_right handles
  · exact h.evolves.trans hevolves
  · exact h.contained.trans h'.contained h.evolves hevolves
  · rw [List.nodup_append]
    refine ⟨h.nodup, h'.nodup, ?_⟩
    intro first hfirst second hsecond heq
    have hlt := h.balanced.handle_lt_nextKey (List.mem_append_left handles hfirst)
    have hge := (h'.fresh second hsecond).1
    omega
  · intro key hkey
    rw [List.mem_append] at hkey
    cases hkey with
    | inl hmade =>
        rcases h.fresh key hmade with ⟨hnew, hlive, hfree⟩
        have hlt := h.balanced.handle_lt_nextKey (List.mem_append_left handles hmade)
        refine ⟨hnew, h'.evolves.kept key (List.mem_append_left _ hmade) hlive, ?_⟩
        exact h'.contained.hasParent_eq_false h.balanced h'.balanced h'.evolves hlt hfree
    | inr hlater =>
        rcases h'.fresh key hlater with ⟨hnew, hlive, hfree⟩
        exact ⟨Nat.le_trans h.evolves.next hnew, hlive, hfree⟩

theorem perm_handles {handles' : List Nat} (h : Copied p q handles made)
    (hperm : handles.Perm handles') : Copied p q handles' made := by
  constructor
  · exact h.balanced.perm_handles (hperm.append_left made)
  · exact h.evolves.mono (fun k hk => hperm.mem_iff.mpr hk)
  · exact h.contained
  · exact h.nodup
  · exact h.fresh

theorem releaseAll (h : Copied p q (keys ++ handles) made) :
    Copied p (q.releaseAll keys) handles made := by
  have hperm : (made ++ (keys ++ handles)).Perm (keys ++ (made ++ handles)) := by
    rw [← List.append_assoc, ← List.append_assoc]
    exact List.perm_append_comm.append_right handles
  rcases (h.balanced.perm_handles hperm).releaseAll with ⟨hbalanced, hafter⟩
  have hbefore := h.evolves.mono (fun k hk => List.mem_append_right keys hk)
  have hcontained : SelfContained q (q.releaseAll keys) :=
    SelfContained.of_nextKey_eq hbalanced (nextKey_releaseAll q keys)
  have hafter' := hafter.mono (fun k hk => List.mem_append_right made hk)
  constructor
  · exact hbalanced
  · exact hbefore.trans hafter'
  · exact h.contained.trans hcontained hbefore hafter'
  · exact h.nodup
  · intro key hkey
    rcases h.fresh key hkey with ⟨hnew, hlive, hfree⟩
    have hlt := h.balanced.handle_lt_nextKey (List.mem_append_left _ hkey)
    refine ⟨hnew, hafter.kept key (List.mem_append_left _ hkey) hlive, ?_⟩
    exact hcontained.hasParent_eq_false h.balanced hbalanced hafter hlt hfree

theorem hold (h : Copied p q handles made) : Copied p q (made ++ handles) [] := by
  constructor
  · exact h.balanced
  · constructor
    · exact h.evolves.next
    · exact h.evolves.former
    · exact h.evolves.operands
    · intro key hkey hlive
      rw [List.mem_append] at hkey
      rcases hkey with hmade | hkey
      · exact (h.fresh key hmade).2.1
      · exact h.evolves.kept key hkey hlive
  · exact h.contained
  · exact List.nodup_nil
  · simp

/-- The handles of what is kept, beside those that were there before. -/
theorem balanced_kept (h : Copied p q handles (keys ++ kept)) :
    Balanced q [] (keys ++ (kept ++ handles)) := by
  rw [← List.append_assoc]
  exact h.balanced

/-- A node is made over some of what has been made. -/
theorem allocate (h : Copied p q handles (keys ++ kept)) {outcome : Except Shortage Nat}
    (heq : q.allocateOver head keys = (outcome, r)) :
    Copied p r handles (granted outcome ++ kept) := by
  rcases List.nodup_append.mp h.nodup with ⟨hkeys, hkept, hapart⟩
  have halloc := h.balanced_kept.allocateOver hkeys
    (fun key hkey => (h.fresh key (List.mem_append_left kept hkey)).2.2) heq
  have hafter := halloc.evolves.mono fun k hk => List.mem_append_right kept hk
  constructor
  · rw [List.append_assoc]
    exact halloc.balanced
  · exact h.evolves.trans hafter
  · intro node hnode hge child hchild
    by_cases hformer : node.key < q.nextKey
    · rcases halloc.evolves.former node hnode hformer with ⟨old, hold, hkey, -, hchildren⟩
      rcases h.contained old hold (by omega) child (hchildren ▸ hchild) with ⟨hnew, hlive⟩
      exact ⟨hnew, halloc.evolves.operands node hnode hformer child hchild hlive⟩
    · rcases halloc.operands node hnode (by omega) with ⟨-, hchildren, hlive⟩
      rw [hchildren] at hchild
      rcases h.fresh child (List.mem_append_left kept hchild) with ⟨hnew, hchildLive, -⟩
      exact ⟨hnew, hlive child hchild hchildLive⟩
  · rw [List.nodup_append]
    refine ⟨by cases outcome <;> simp [granted], hkept, ?_⟩
    intro first hfirst second hsecond heq
    have hnew := (halloc.fresh first hfirst).1
    have hlt := h.balanced.handle_lt_nextKey
      (List.mem_append_left handles (List.mem_append_right keys hsecond))
    omega
  · intro k hk
    rcases List.mem_append.mp hk with hmade | hk
    · rcases halloc.fresh k hmade with ⟨rfl, hlive, hfree⟩
      exact ⟨h.evolves.next, hlive, hfree⟩
    · rcases h.fresh k (List.mem_append_right keys hk) with ⟨hge, hlive, hfree⟩
      refine ⟨hge, halloc.evolves.kept k (List.mem_append_left handles hk) hlive, ?_⟩
      apply h.balanced.stays_free halloc.balanced halloc.evolves hlive hfree
      intro node hnode hnew hchild
      rw [(halloc.operands node hnode hnew).2.1] at hchild
      exact hapart k hchild k hk rfl

theorem allocateOver {outcome : Except Shortage Nat} (h : Copied p q handles keys)
    (heq : q.allocateOver head keys = (outcome, r)) :
    Copied p r handles (granted outcome) := by
  rw [← List.append_nil keys] at h
  rw [← List.append_nil (granted outcome)]
  exact h.allocate heq

end Copied

theorem copyAll_spec {copyOne : Pool → Nat → Except Shortage Nat × Pool}
    {outcome : Except Shortage (List Nat)}
    (hone : ∀ {p q handles key outcome}, Balanced p [] handles →
      copyOne p key = (outcome, q) → Copied p q handles (granted outcome))
    (h : Copied p q handles made) (heq : copyAll copyOne q made keys = (outcome, r)) :
    Copied p r handles (grantedAll outcome) := by
  induction keys generalizing q made with
  | nil =>
      cases heq
      exact h
  | cons key keys ih =>
      rw [copyAll] at heq
      split at heq
      · rename_i fresh q' hcopy
        have hcopied := hone h.balanced hcopy
        exact ih (h.append hcopied) heq
      · rename_i shortage q' hcopy
        have hcopied := h.append (hone h.balanced hcopy)
        rw [granted, List.append_nil] at hcopied
        cases heq
        exact hcopied.hold.releaseAll

theorem copyWithin_spec {outcome : Except Shortage Nat} (levels : Nat)
    (h : Balanced p [] handles) (heq : copyWithin levels p key = (outcome, q)) :
    Copied p q handles (granted outcome) := by
  induction levels generalizing p q handles key outcome with
  | zero => exact (Copied.none h).allocateOver heq
  | succ levels ih =>
      rw [copyWithin] at heq
      split at heq
      · rename_i node _
        split at heq
        · rename_i keys q' hcopies
          exact (copyAll_spec ih (Copied.none h) hcopies).allocateOver heq
        · rename_i shortage q' hcopies
          cases heq
          exact copyAll_spec ih (Copied.none h) hcopies
      · exact (Copied.none h).allocateOver heq

theorem copying_spec {outcome : Except Shortage Nat} (h : Balanced p [] handles)
    (heq : p.copying key = (outcome, q)) : Copied p q handles (granted outcome) :=
  copyWithin_spec (key + 1) h heq

/-! ## New nodes -/

/-- What readying the handles `given` does. A handle that is readied is a given one, whose node is
not freed, or one of a copy. -/
structure Prepared (p q : Pool) (handles given made : List Nat) : Prop where
  balanced : Balanced q [] (made ++ handles)
  evolves : Evolves p q handles
  contained : SelfContained p q
  nodup : made.Nodup
  free : ∀ key ∈ made, q.hasParent key = false
  source : ∀ key ∈ made,
    (key ∈ given ∧ (key ∈ p.keys → key ∈ q.keys)) ∨
      (p.nextKey ≤ key ∧ key ∈ q.keys)

theorem preparing_spec {outcome : Except Shortage (List Nat)}
    (h : Balanced p [] (ready ++ keys ++ handles)) (hnodup : ready.Nodup)
    (hfree : ∀ key ∈ ready, p.hasParent key = false)
    (heq : p.preparing ready keys = (outcome, q)) :
    Prepared p q handles (ready ++ keys) (grantedAll outcome) := by
  induction keys generalizing p ready with
  | nil =>
      cases heq
      rw [List.append_nil] at h ⊢
      constructor
      · exact h
      · exact Evolves.refl _ handles
      · exact SelfContained.of_nextKey_eq h rfl
      · exact hnodup
      · exact hfree
      · intro key hkey
        exact Or.inl ⟨hkey, id⟩
  | cons key keys ih =>
      rw [preparing] at heq
      split_ifs at heq with hshared
      · rcases hcopy : p.copying key with ⟨shortage | twin, copied⟩
        · rw [hcopy] at heq
          cases heq
          have hcopied := (copying_spec h hcopy).releaseAll
          constructor
          · exact hcopied.balanced
          · exact hcopied.evolves
          · exact hcopied.contained
          · exact List.nodup_nil
          · simp [grantedAll]
          · simp [grantedAll]
        · rw [hcopy] at heq
          have hperm : (ready ++ key :: keys ++ handles).Perm
              ([key] ++ (ready ++ keys ++ handles)) :=
            List.perm_middle.append_right handles
          have hcopied : Copied p (copied.release key) (ready ++ keys ++ handles) [twin] :=
            ((copying_spec h hcopy).perm_handles hperm).releaseAll
          have hbalanced : Balanced (copied.release key) []
              (ready ++ [twin] ++ keys ++ handles) := by
            apply hcopied.balanced.perm_handles
            simpa using List.perm_middle.symm
          rcases hcopied.fresh twin (by simp) with ⟨hnew, hlive, hfreshFree⟩
          have hissued : ∀ k ∈ ready ++ key :: keys, k < p.nextKey := by
            intro k hk
            exact h.handle_lt_nextKey (List.mem_append_left handles hk)
          have hnodup' : (ready ++ [twin]).Nodup := by
            rw [List.nodup_append]
            refine ⟨hnodup, List.nodup_singleton twin, ?_⟩
            intro first hfirst second hsecond heq
            rw [List.mem_singleton] at hsecond
            have hlt := hissued first (by simp [hfirst])
            omega
          have hfree' : ∀ k ∈ ready ++ [twin], (copied.release key).hasParent k = false := by
            intro k hk
            rw [List.mem_append, List.mem_singleton] at hk
            rcases hk with hk | rfl
            · exact hcopied.contained.hasParent_eq_false h hcopied.balanced
                hcopied.evolves (hissued k (by simp [hk])) (hfree k hk)
            · exact hfreshFree
          have hrest := ih hbalanced hnodup' hfree' heq
          have hevolves := hcopied.evolves.mono
            (fun k hk => List.mem_append_right (ready ++ keys) hk)
          constructor
          · exact hrest.balanced
          · exact hevolves.trans hrest.evolves
          · exact hcopied.contained.trans hrest.contained hevolves hrest.evolves
          · exact hrest.nodup
          · exact hrest.free
          · intro k hk
            rcases hrest.source k hk with ⟨hgiven, hkept⟩ | ⟨hnewer, hliveK⟩
            · simp only [List.mem_append, List.mem_singleton] at hgiven
              by_cases heq' : k = twin
              · subst heq'
                exact Or.inr ⟨hnew, hkept hlive⟩
              · have hheld : k ∈ ready ++ keys ++ handles := by
                  simp only [List.mem_append]
                  tauto
                refine Or.inl ⟨?_, fun hk' => hkept (hcopied.evolves.kept k hheld hk')⟩
                simp only [List.mem_append, List.mem_cons]
                tauto
            · exact Or.inr ⟨Nat.le_trans hcopied.evolves.next hnewer, hliveK⟩
      · rw [Bool.or_eq_true, not_or] at hshared
        rcases hshared with ⟨hnoParent, hunmet⟩
        have hbalanced : Balanced p [] (ready ++ [key] ++ keys ++ handles) := by
          simpa using h
        have hnodup' : (ready ++ [key]).Nodup := by
          rw [List.nodup_append]
          refine ⟨hnodup, List.nodup_singleton key, ?_⟩
          intro first hfirst second hsecond heq
          rw [List.mem_singleton] at hsecond
          subst heq hsecond
          simp [hfirst] at hunmet
        have hfree' : ∀ k ∈ ready ++ [key], p.hasParent k = false := by
          intro k hk
          rw [List.mem_append, List.mem_singleton] at hk
          rcases hk with hk | rfl
          · exact hfree k hk
          · simpa using hnoParent
        have hrest := ih hbalanced hnodup' hfree' heq
        simpa using hrest

/-- The operands of the nodes that have come up since `p` are there if they were in `p`, or have
come up since then. -/
def Attaches (p q : Pool) : Prop :=
  ∀ node ∈ q.nodes, p.nextKey ≤ node.key →
    ∀ child ∈ node.children, child ∈ p.keys ∨ p.nextKey ≤ child → child ∈ q.keys

theorem SelfContained.attaches (h : SelfContained p q) : Attaches p q := by
  intro node hnode hge child hchild _
  exact (h node hnode hge child hchild).2

theorem building_spec {outcome : Except Shortage Nat} (h : Balanced p [] (keys ++ handles))
    (heq : p.building head keys = (outcome, q)) :
    Balanced q [] (granted outcome ++ handles) ∧ Evolves p q handles ∧ Attaches p q := by
  have h' : Balanced p [] ([] ++ keys ++ handles) := h
  rw [building] at heq
  split at heq
  · rename_i ready prepared hready
    have hprepared := preparing_spec h' List.nodup_nil (by simp) hready
    have halloc := hprepared.balanced.allocateOver hprepared.nodup hprepared.free heq
    refine ⟨halloc.balanced, hprepared.evolves.trans halloc.evolves, ?_⟩
    intro node hnode hge child hchild hformer
    by_cases hlt : node.key < prepared.nextKey
    · rcases halloc.evolves.former node hnode hlt with ⟨old, hold, hkey, -, hchildren⟩
      have hlive := (hprepared.contained old hold (by omega) child (hchildren ▸ hchild)).2
      exact halloc.evolves.operands node hnode hlt child hchild hlive
    · rcases halloc.operands node hnode (by omega) with ⟨-, hchildren, hkept⟩
      rw [hchildren] at hchild
      apply hkept child hchild
      rcases hprepared.source child hchild with ⟨hgiven, hlive⟩ | ⟨-, hlive⟩
      · rcases hformer with hlive' | hnew
        · exact hlive hlive'
        · have hlt' := h.handle_lt_nextKey (List.mem_append_left handles hgiven)
          omega
      · exact hlive
  · rename_i shortage prepared hready
    cases heq
    have hprepared := preparing_spec h' List.nodup_nil (by simp) hready
    exact ⟨hprepared.balanced, hprepared.evolves, hprepared.contained.attaches⟩

end Pool
end PocketAlgebra

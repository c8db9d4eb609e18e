import PocketAlgebra.Proofs.Pool.Balance

/-!
# Evolution of a pool

How a pool can differ from what it has been. Nodes are never changed in what they stand for, and a
node that is an operand is not freed before the node that it is an operand of.
-/

namespace PocketAlgebra
namespace Pool

/-- A pool `q` has come from a pool `p`, and no node has been freed whose key is among `kept`. -/
structure Evolves (p q : Pool) (kept : List Nat) : Prop where
  next : p.nextKey ≤ q.nextKey
  former : ∀ node ∈ q.nodes, node.key < p.nextKey →
    ∃ old ∈ p.nodes, old.key = node.key ∧ old.head = node.head ∧
      old.children = node.children
  operands : ∀ node ∈ q.nodes, node.key < p.nextKey →
    ∀ child ∈ node.children, child ∈ p.keys → child ∈ q.keys
  kept : ∀ key ∈ kept, key ∈ p.keys → key ∈ q.keys

namespace Evolves

variable {p q r : Pool} {kept : List Nat}

theorem refl (p : Pool) (kept : List Nat) : Evolves p p kept := by
  constructor
  · exact Nat.le_refl _
  · intro node hnode _
    exact ⟨node, hnode, rfl, rfl, rfl⟩
  · intro _ _ _ _ _ hlive
    exact hlive
  · intro _ _ hlive
    exact hlive

theorem trans (h : Evolves p q kept) (h' : Evolves q r kept) : Evolves p r kept := by
  constructor
  · exact Nat.le_trans h.next h'.next
  · intro node hnode hlt
    rcases h'.former node hnode (Nat.lt_of_lt_of_le hlt h.next) with
      ⟨middle, hmiddle, hkey, hhead, hchildren⟩
    rcases h.former middle hmiddle (by omega) with ⟨old, hold, hkey', hhead', hchildren'⟩
    exact ⟨old, hold, hkey'.trans hkey, hhead'.trans hhead, hchildren'.trans hchildren⟩
  · intro node hnode hlt child hchild hlive
    have hlt' := Nat.lt_of_lt_of_le hlt h.next
    rcases h'.former node hnode hlt' with ⟨middle, hmiddle, hkey, -, hchildren⟩
    have hmiddle' := h.operands middle hmiddle (by omega) child (hchildren ▸ hchild) hlive
    exact h'.operands node hnode hlt' child hchild hmiddle'
  · intro key hkey hlive
    exact h'.kept key hkey (h.kept key hkey hlive)

theorem mono {kept' : List Nat} (h : Evolves p q kept) (hsub : ∀ key ∈ kept', key ∈ kept) :
    Evolves p q kept' := by
  constructor
  · exact h.next
  · exact h.former
  · exact h.operands
  · intro key hkey
    exact h.kept key (hsub key hkey)

theorem update {key : Nat} {f : Node → Node}
    (hsame : ∀ node, (f node).key = node.key ∧ (f node).head = node.head ∧
      (f node).children = node.children) :
    Evolves p (p.update key f) kept := by
  have hkeys : (p.update key f).keys = p.keys := keys_update (fun node => (hsame node).1)
  constructor
  · exact Nat.le_refl _
  · intro node hnode _
    rcases List.mem_map.mp hnode with ⟨old, hold, heq⟩
    subst heq
    refine ⟨old, hold, ?_⟩
    split
    · rcases hsame old with ⟨hkey, hhead, hchildren⟩
      exact ⟨hkey.symm, hhead.symm, hchildren.symm⟩
    · exact ⟨rfl, rfl, rfl⟩
  · intro _ _ _ child _ hlive
    rwa [hkeys]
  · intro _ _ hlive
    rwa [hkeys]

theorem foldl {step : Pool → Nat → Pool} (hstep : ∀ p c, Evolves p (step p c) kept)
    (cs : List Nat) (p : Pool) : Evolves p (cs.foldl step p) kept := by
  induction cs generalizing p with
  | nil => exact refl p kept
  | cons c cs ih => exact (hstep p c).trans (ih _)

theorem retain {key : Nat} : Evolves p (p.retain key) kept := by
  apply update
  intro node
  exact ⟨rfl, rfl, rfl⟩

theorem attach {key : Nat} : Evolves p (p.attach key) kept := by
  apply update
  intro node
  exact ⟨rfl, rfl, rfl⟩

theorem detach {key : Nat} : Evolves p (p.detach key) kept := by
  apply update
  intro node
  exact ⟨rfl, rfl, rfl⟩

theorem decrement {key : Nat} : Evolves p (p.decrement key) kept := by
  apply update
  intro node
  exact ⟨rfl, rfl, rfl⟩

end Evolves

section Steps

variable {p : Pool} {key : Nat} {node : Node} {loose handles keys : List Nat}

/-! ## Releasing -/

theorem Balanced.evolves_remove (h : Balanced p loose (key :: handles))
    (hfound : p.node? key = some node) (hlast : ¬ 1 < node.references) :
    Evolves p (p.remove node) handles := by
  rcases h.unreferenced hfound hlast with ⟨hunheld, hunnamed⟩
  rcases node?_eq_some hfound with ⟨hnode, rfl⟩
  rcases h.nodes_remove hnode with ⟨later, earlier, hnodes, hremoved⟩
  have hsub : ∀ other ∈ (p.remove node).nodes, other ∈ p.nodes := by
    intro other hother
    rw [hremoved, List.mem_append] at hother
    rw [hnodes]
    cases hother with
    | inl hlater => simp [hlater]
    | inr hearlier => simp [hearlier]
  have hstays : ∀ k ∈ p.keys, k ≠ node.key → k ∈ (p.remove node).keys := by
    intro k hk hne
    rcases mem_keys.mp hk with ⟨other, hother, rfl⟩
    rw [hnodes] at hother
    rw [mem_keys, hremoved]
    refine ⟨other, ?_, rfl⟩
    simp only [List.mem_append, List.mem_cons] at hother ⊢
    rcases hother with hlater | rfl | hearlier
    · exact Or.inl hlater
    · exact absurd rfl hne
    · exact Or.inr hearlier
  constructor
  · exact Nat.le_refl _
  · intro other hother _
    exact ⟨other, hsub other hother, rfl, rfl, rfl⟩
  · intro other hother _ child hchild hlive
    apply hstays child hlive
    intro heq
    apply hunnamed
    rw [← heq, List.mem_append, mem_operandKeys]
    exact Or.inr ⟨other, hsub other hother, hchild⟩
  · intro k hk hlive
    apply hstays k hlive
    intro heq
    exact hunheld (heq ▸ hk)

theorem nextKey_retain (p : Pool) (key : Nat) : (p.retain key).nextKey = p.nextKey :=
  rfl

theorem nextKey_detach (p : Pool) (key : Nat) : (p.detach key).nextKey = p.nextKey :=
  rfl

theorem nextKey_foldl {step : Pool → Nat → Pool}
    (hstep : ∀ p key, (step p key).nextKey = p.nextKey) (keys : List Nat) (p : Pool) :
    (keys.foldl step p).nextKey = p.nextKey := by
  induction keys generalizing p with
  | nil => rfl
  | cons key keys ih => exact (ih _).trans (hstep p key)

@[simp] theorem nextKey_releaseAll (p : Pool) (keys : List Nat) :
    (p.releaseAll keys).nextKey = p.nextKey := by
  induction p, keys using releaseAll.induct with
  | case1 p => rw [releaseAll]
  | case2 p key rest hstale ih => rw [releaseAll, hstale]; exact ih
  | case3 p key rest node hfound hmany ih =>
      rw [releaseAll, hfound]
      simp only [hmany, if_true]
      exact ih
  | case4 p key rest node hfound hlast ih =>
      rw [releaseAll, hfound]
      simp only [hlast, if_false]
      rw [ih]
      exact nextKey_foldl nextKey_detach node.children _

theorem Balanced.releaseAll (h : Balanced p loose (keys ++ handles)) :
    Balanced (p.releaseAll keys) loose handles ∧
      Evolves p (p.releaseAll keys) handles := by
  induction p, keys using releaseAll.induct with
  | case1 p =>
      rw [Pool.releaseAll]
      exact ⟨h, Evolves.refl p handles⟩
  | case2 p key rest hstale ih =>
      rw [Pool.releaseAll, hstale]
      exact ih (Balanced.forget h (node?_eq_none.mp hstale))
  | case3 p key rest node hfound hmany ih =>
      rw [Pool.releaseAll, hfound]
      simp only [hmany, if_true]
      have hless : Balanced (p.decrement key) loose (rest ++ handles) := by
        apply Balanced.decrement h
        intro other hother heq
        rcases node?_eq_some hfound with ⟨hnode, hkey⟩
        rw [h.unique hnode hother (heq.trans hkey.symm)]
        exact hmany
      rcases ih hless with ⟨hbalanced, hevolves⟩
      exact ⟨hbalanced, Evolves.decrement.trans hevolves⟩
  | case4 p key rest node hfound hlast ih =>
      rw [Pool.releaseAll, hfound]
      simp only [hlast, if_false]
      have hgone : Balanced (p.remove node) (node.children ++ loose) (rest ++ handles) :=
        Balanced.remove h hfound
      have hhanded := hgone.detachAll
      rw [← List.append_assoc] at hhanded
      rcases ih hhanded with ⟨hbalanced, hevolves⟩
      have hremoved : Evolves p (p.remove node) handles :=
        (h.evolves_remove hfound hlast).mono (fun k hk => List.mem_append_right rest hk)
      have hdetached : Evolves (p.remove node)
          (node.children.foldl Pool.detach (p.remove node)) handles :=
        Evolves.foldl (fun _ _ => Evolves.detach) node.children _
      exact ⟨hbalanced, (hremoved.trans hdetached).trans hevolves⟩

/-! ## Going back -/

theorem Balanced.orphan (h : Balanced p (key :: loose) handles) :
    Balanced (p.orphan key) loose handles ∧ Evolves p (p.orphan key) handles := by
  unfold Pool.orphan
  split
  · have hhandle : Balanced (p.detach key) loose ([key] ++ handles) := h.detach
    rcases hhandle.releaseAll with ⟨hbalanced, hevolves⟩
    exact ⟨hbalanced, Evolves.detach.trans hevolves⟩
  · rename_i hstale
    rw [contains_iff] at hstale
    exact ⟨h.forget_loose hstale, Evolves.refl p handles⟩

theorem Balanced.orphanAll (h : Balanced p (keys ++ loose) handles) :
    Balanced (keys.foldl Pool.orphan p) loose handles ∧
      Evolves p (keys.foldl Pool.orphan p) handles := by
  induction keys generalizing p with
  | nil => exact ⟨h, Evolves.refl p handles⟩
  | cons key keys ih =>
      rcases Balanced.orphan h with ⟨hfirst, hevolves⟩
      rcases ih hfirst with ⟨hbalanced, hevolves'⟩
      exact ⟨hbalanced, hevolves.trans hevolves'⟩

@[simp] theorem nextKey_orphan (p : Pool) (key : Nat) :
    (p.orphan key).nextKey = p.nextKey := by
  unfold Pool.orphan
  split
  · rw [release, nextKey_releaseAll]
    rfl
  · rfl

/-- A pool without its latest nodes. -/
def dropLater (p : Pool) (later earlier : List Node) : Pool :=
  { p with
    nodes := earlier
    used := p.used - later.foldr (fun node total => node.charge + total) 0 }

theorem rollback_eq (p : Pool) (checkpoint : Checkpoint) :
    ∃ later earlier, p.nodes = later ++ earlier ∧
      p.rollback checkpoint =
        (later.reverse.flatMap Node.children).foldl Pool.orphan
          (p.dropLater later earlier) := by
  refine ⟨p.nodes.takeWhile (checkpoint.nextKey ≤ ·.key),
    p.nodes.dropWhile (checkpoint.nextKey ≤ ·.key), ?_, ?_⟩
  · rw [List.takeWhile_append_dropWhile]
  · rw [rollback, List.span_eq_takeWhile_dropWhile]
    rfl

theorem Balanced.dropLater {later earlier : List Node} (h : Balanced p loose handles)
    (hnodes : p.nodes = later ++ earlier) :
    Balanced (p.dropLater later earlier) (later.flatMap Node.children ++ loose) handles := by
  have hsub : ∀ node ∈ earlier, node ∈ p.nodes := by
    intro node hnode
    simp [hnodes, hnode]
  have hcount : ∀ k, (later.flatMap Node.children ++ loose ++
      earlier.flatMap Node.children).count k = (loose ++ p.operandKeys).count k := by
    intro k
    simp only [operandKeys, hnodes, List.flatMap_append, List.count_append]
    omega
  constructor
  · have hpair := h.latestFirst
    rw [hnodes, List.pairwise_append] at hpair
    exact hpair.2.1
  · intro k hk
    simp only [List.mem_append, mem_keys, List.mem_flatMap] at hk
    rcases hk with (⟨node, hnode, rfl⟩ | ⟨node, hnode, hchild⟩ | hloose) | hhandle
    · exact h.node_lt_nextKey (hsub node hnode)
    · apply h.operand_lt_nextKey
      exact mem_operandKeys.mpr ⟨node, by simp [hnodes, hnode], hchild⟩
    · exact h.issued k (by simp [hloose])
    · exact h.handle_lt_nextKey hhandle
  · intro node hnode
    exact h.lesser node (hsub node hnode)
  · intro node hnode
    show _ = _ + (later.flatMap Node.children ++ loose ++
      earlier.flatMap Node.children).count node.key
    rw [hcount]
    exact h.counted node (hsub node hnode)
  · intro node hnode
    show (later.flatMap Node.children ++ loose ++
      earlier.flatMap Node.children).count node.key = _
    rw [hcount]
    exact h.placed node (hsub node hnode)
  · intro node hnode
    exact h.held node (hsub node hnode)
  · have hsum : ∀ nodes : List Node,
        nodes.foldr (fun node total => node.charge + total) 0 =
          (nodes.map Node.charge).sum := by
      intro nodes
      rw [List.sum_eq_foldr, List.foldr_map]
    have hcharged := h.charged
    rw [hnodes, List.map_append, List.sum_append] at hcharged
    show p.used - _ = (earlier.map Node.charge).sum
    rw [hsum]
    omega

theorem Balanced.evolves_dropLater {later earlier : List Node}
    (h : Balanced p loose handles) (hnodes : p.nodes = later ++ earlier) :
    Evolves p (p.dropLater later earlier) [] := by
  have hsub : ∀ node ∈ earlier, node ∈ p.nodes := by
    intro node hnode
    simp [hnodes, hnode]
  have hpair := h.latestFirst
  rw [hnodes, List.pairwise_append] at hpair
  constructor
  · exact Nat.le_refl _
  · intro node hnode _
    exact ⟨node, hsub node hnode, rfl, rfl, rfl⟩
  · intro node hnode _ child hchild hlive
    have hlt := h.lesser node (hsub node hnode) child hchild
    rcases mem_keys.mp hlive with ⟨other, hother, rfl⟩
    rw [hnodes, List.mem_append] at hother
    cases hother with
    | inl hlater =>
        have hgt := hpair.2.2 other hlater node hnode
        omega
    | inr hearlier => exact mem_keys.mpr ⟨other, hearlier, rfl⟩
  · simp

theorem Balanced.rollback (h : Balanced p [] handles) (checkpoint : Checkpoint) :
    Balanced (p.rollback checkpoint) [] handles ∧
      Evolves p (p.rollback checkpoint) [] := by
  rcases rollback_eq p checkpoint with ⟨later, earlier, hnodes, heq⟩
  have hdropped := h.dropLater hnodes
  have hperm : (later.flatMap Node.children ++ []).Perm
      (later.reverse.flatMap Node.children ++ []) :=
    (List.Perm.flatMap_right _ (List.reverse_perm later).symm).append_right []
  rcases (hdropped.perm hperm (List.Perm.refl handles)).orphanAll with
    ⟨hbalanced, hevolves⟩
  rw [heq]
  exact ⟨hbalanced, (h.evolves_dropLater hnodes).trans (hevolves.mono (by simp))⟩

@[simp] theorem nextKey_rollback (p : Pool) (checkpoint : Checkpoint) :
    (p.rollback checkpoint).nextKey = p.nextKey := by
  rcases rollback_eq p checkpoint with ⟨later, earlier, -, heq⟩
  rw [heq]
  exact nextKey_foldl nextKey_orphan _ _

end Steps

end Pool
end PocketAlgebra
